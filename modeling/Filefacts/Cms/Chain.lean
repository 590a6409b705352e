import Filefacts.Cache.Open

set_option autoImplicit false

namespace Filefacts.Cms

inductive Vendor where
  | microsoft
  | apple
  deriving DecidableEq, Repr

def basicConstraintsOid : List Nat := [2, 5, 29, 19]

def keyUsageOid : List Nat := [2, 5, 29, 15]

structure Extension where
  oid : List Nat
  value : List UInt8
  deriving DecidableEq, Repr

structure BasicConstraints where
  ca : Bool
  pathLen : Option Nat
  deriving DecidableEq, Repr

-- Names are their encodings; the encoding of the whole certificate is absent when it does not encode.
structure Certificate where
  issuer : List UInt8
  subject : List UInt8
  extensions : Option (List Extension)
  der : Option (List UInt8)
  deriving DecidableEq, Repr

-- What the walk takes from its libraries: the hash, the decoders of the two extensions (of the key usage, whether it
-- permits certificate signing) and whether an issuer's key verifies a certificate's signature.
structure Libraries where
  sha256 : List UInt8 → List UInt8
  basicConstraints : List UInt8 → Option BasicConstraints
  keyCertSign : List UInt8 → Option Bool
  signs : Certificate → Certificate → Bool

def thumbprintSha256 (lib : Libraries) (cert : Certificate) : Option String :=
  cert.der.map fun der => Cache.hexEncode (lib.sha256 der)

structure PinnedRoot (lib : Libraries) where
  vendor : Vendor
  cert : Certificate
  thumbprint : String
  own : thumbprintSha256 lib cert = some thumbprint

structure Chain where
  thumbprints : List String
  anchor : Option Vendor
  deriving DecidableEq, Repr

def certExtension {α : Type} (oid : List Nat) (decode : List UInt8 → Option α) (cert : Certificate) : Option α :=
  ((cert.extensions.getD []).find? fun ext => ext.oid = oid).bind fun ext => decode ext.value

def hasKeyUsage (cert : Certificate) : Bool := (cert.extensions.getD []).any fun ext => ext.oid = keyUsageOid

def mayIssue (lib : Libraries) (issuer : Certificate) (intermediatesBelow : Nat) : Bool :=
  match certExtension basicConstraintsOid lib.basicConstraints issuer with
  | none => false
  | some constraints =>
      if !constraints.ca || constraints.pathLen.any fun max => max < intermediatesBelow then false
      else !hasKeyUsage issuer || (certExtension keyUsageOid lib.keyCertSign issuer).any id

def maxLinkAttempts : Nat := 32

def maxChain : Nat := 8

structure Tally where
  attempts : Nat
  verifications : Nat
  deriving DecidableEq, Repr

def findIssuer (lib : Libraries) (child : Certificate) (intermediatesBelow : Nat) :
    List (Certificate × Bool) → Tally → Option Certificate × Tally
  | [], tally => (none, tally)
  | (candidate, anchor) :: rest, tally =>
      if candidate.subject = child.issuer ∧ (anchor || mayIssue lib candidate intermediatesBelow) then
        let attempts := tally.attempts + 1
        if attempts ≤ maxLinkAttempts then
          if lib.signs candidate child then (some candidate, ⟨attempts, tally.verifications + 1⟩)
          else findIssuer lib child intermediatesBelow rest ⟨attempts, tally.verifications + 1⟩
        else findIssuer lib child intermediatesBelow rest ⟨attempts, tally.verifications⟩
      else findIssuer lib child intermediatesBelow rest tally

def candidates (lib : Libraries) (bag : List Certificate) (roots : List (PinnedRoot lib)) : List (Certificate × Bool) :=
  (bag.map fun cert => (cert, false)) ++ roots.map fun root => (root.cert, true)

-- Each round adds a thumbprint or stops, and the round that adds the eighth stops.
def walkFrom (lib : Libraries) (bag : List Certificate) (roots : List (PinnedRoot lib)) :
    Nat → Certificate → Chain → Tally → Chain × Tally
  | 0, _, chain, tally => (chain, tally)
  | fuel + 1, cert, chain, tally =>
      match thumbprintSha256 lib cert with
      | none => (chain, tally)
      | some thumbprint =>
          if chain.thumbprints.contains thumbprint then (chain, tally)
          else
            let thumbprints := chain.thumbprints ++ [thumbprint]
            match roots.find? fun root => root.thumbprint = thumbprint with
            | some root => (⟨thumbprints, some root.vendor⟩, tally)
            | none =>
                if thumbprints.length = maxChain ∨ cert.issuer = cert.subject then (⟨thumbprints, chain.anchor⟩, tally)
                else
                  match findIssuer lib cert (thumbprints.length - 1) (candidates lib bag roots) tally with
                  | (none, tally) => (⟨thumbprints, chain.anchor⟩, tally)
                  | (some issuer, tally) => walkFrom lib bag roots fuel issuer ⟨thumbprints, chain.anchor⟩ tally

def walkChain (lib : Libraries) (bag : List Certificate) (signer : Certificate) (roots : List (PinnedRoot lib)) : Chain × Tally :=
  walkFrom lib bag roots maxChain signer ⟨[], none⟩ ⟨0, 0⟩

structure MayIssue (lib : Libraries) (issuer : Certificate) (below : Nat) : Prop where
  authority : ∃ constraints, certExtension basicConstraintsOid lib.basicConstraints issuer = some constraints ∧
    constraints.ca = true ∧ ∀ max, constraints.pathLen = some max → below ≤ max
  usage : (∃ ext ∈ issuer.extensions.getD [], ext.oid = keyUsageOid) →
    certExtension keyUsageOid lib.keyCertSign issuer = some true

variable (lib : Libraries) (bag : List Certificate) (signer : Certificate)

theorem may_issue (issuer : Certificate) (below : Nat) (permits : mayIssue lib issuer below = true) :
    MayIssue lib issuer below := by
  unfold mayIssue at permits
  cases decoded : certExtension basicConstraintsOid lib.basicConstraints issuer with
  | none => simp only [decoded] at permits; cases permits
  | some constraints =>
      simp only [decoded] at permits
      by_cases refused : (!constraints.ca || constraints.pathLen.any fun max => max < below) = true
      · rw [if_pos refused] at permits
        cases permits
      · rw [if_neg refused] at permits
        rw [Bool.or_eq_true, not_or] at refused
        refine ⟨⟨constraints, decoded, by simpa using refused.1, fun max limit => ?_⟩, fun ⟨ext, member, same⟩ => ?_⟩
        · by_cases past : max < below
          · exact absurd (by rw [limit]; exact decide_eq_true past) refused.2
          · exact Nat.not_lt.mp past
        · have has : hasKeyUsage issuer = true := List.any_eq_true.mpr ⟨ext, member, decide_eq_true same⟩
          rw [has, Bool.not_true, Bool.false_or] at permits
          cases usage : certExtension keyUsageOid lib.keyCertSign issuer with
          | none => rw [usage] at permits; cases permits
          | some allowed =>
              rw [usage] at permits
              exact congrArg some permits

structure Link (lib : Libraries) (bag : List Certificate) (roots : List (PinnedRoot lib)) (below : Nat)
    (child issuer : Certificate) : Prop where
  named : issuer.subject = child.issuer
  verified : lib.signs issuer child = true
  permitted : (∃ root ∈ roots, root.cert = issuer) ∨ (issuer ∈ bag ∧ MayIssue lib issuer below)

def Counted (tally : Tally) : Prop := tally.verifications ≤ maxLinkAttempts ∧ tally.verifications ≤ tally.attempts

theorem find_issuer_spec (roots : List (PinnedRoot lib)) (child : Certificate)
    (below : Nat) (rest : List (Certificate × Bool)) (tally : Tally) (inside : ∀ entry ∈ rest, entry ∈ candidates lib bag roots)
    (counted : Counted tally) :
    Counted (findIssuer lib child below rest tally).2 ∧
      ∀ issuer, (findIssuer lib child below rest tally).1 = some issuer → Link lib bag roots below child issuer := by
  induction rest generalizing tally with
  | nil => exact ⟨counted, fun issuer found => (by cases found)⟩
  | cons entry rest ih =>
      obtain ⟨candidate, anchor⟩ := entry
      have later : ∀ entry ∈ rest, entry ∈ candidates lib bag roots := fun entry member => inside entry (List.mem_cons_of_mem _ member)
      obtain ⟨within, below_⟩ := counted
      simp only [findIssuer]
      by_cases eligible : candidate.subject = child.issuer ∧ (anchor || mayIssue lib candidate below) = true
      · rw [if_pos eligible]
        by_cases room : tally.attempts + 1 ≤ maxLinkAttempts
        · rw [if_pos room]
          have next : Counted ⟨tally.attempts + 1, tally.verifications + 1⟩ :=
            ⟨Nat.le_trans (Nat.succ_le_succ below_) room, Nat.succ_le_succ below_⟩
          by_cases verified : lib.signs candidate child = true
          · rw [if_pos verified]
            refine ⟨next, fun issuer found => ?_⟩
            obtain rfl := Option.some.inj found
            refine ⟨eligible.1, verified, ?_⟩
            rcases List.mem_append.mp (inside _ List.mem_cons_self) with carried | pinned
            · obtain ⟨cert, member, same⟩ := List.mem_map.mp carried
              obtain ⟨rfl, rfl⟩ := Prod.mk.inj same
              have permits := eligible.2
              rw [Bool.false_or] at permits
              exact Or.inr ⟨member, may_issue lib cert below permits⟩
            · obtain ⟨root, member, same⟩ := List.mem_map.mp pinned
              exact Or.inl ⟨root, member, (Prod.mk.inj same).1⟩
          · rw [if_neg verified]
            exact ih _ later next
        · rw [if_neg room]
          exact ih _ later ⟨within, Nat.le_trans below_ (Nat.le_succ _)⟩
      · rw [if_neg eligible]
        exact ih tally later ⟨within, below_⟩

-- Certificates from the signer upward, each the issuer of the one before it; the index of a certificate is the number of
-- certificates between its issuer and the signer.
structure Linked (lib : Libraries) (bag : List Certificate) (signer : Certificate) (roots : List (PinnedRoot lib))
    (certs : List Certificate) : Prop where
  first : ∀ cert, certs[0]? = some cert → cert = signer
  links : ∀ (index : Nat) (child issuer : Certificate), certs[index]? = some child → certs[index + 1]? = some issuer →
    Link lib bag roots index child issuer

structure VerifiedChain (lib : Libraries) (bag : List Certificate) (signer : Certificate) (roots : List (PinnedRoot lib))
    (chain : Chain) : Prop where
  starts : chain.thumbprints.head? = thumbprintSha256 lib signer
  short : chain.thumbprints.length ≤ maxChain
  distinct : chain.thumbprints.Nodup
  certs : ∃ certs, certs.map (thumbprintSha256 lib) = chain.thumbprints.map some ∧ Linked lib bag signer roots certs ∧
    ∀ vendor, chain.anchor = some vendor → ∃ last root, certs.getLast? = some last ∧ root ∈ roots ∧ root.vendor = vendor ∧
      thumbprintSha256 lib last = some root.thumbprint

theorem linked_init (last : Certificate) (roots : List (PinnedRoot lib))
    (certs : List Certificate) (linked : Linked lib bag signer roots (certs ++ [last])) : Linked lib bag signer roots certs := by
  have kept : ∀ (index : Nat) (cert : Certificate), certs[index]? = some cert → (certs ++ [last])[index]? = some cert := by
    intro index cert there
    rw [List.getElem?_append_left (List.getElem?_eq_some_iff.mp there).1]
    exact there
  exact ⟨fun cert there => linked.first cert (kept 0 cert there),
    fun index child issuer one other => linked.links index child issuer (kept _ _ one) (kept _ _ other)⟩

variable {roots : List (PinnedRoot lib)} {certs : List Certificate} {cert : Certificate} {chain : Chain}

theorem linked_push {child issuer : Certificate} (linked : Linked lib bag signer roots (certs ++ [child]))
    (link : Link lib bag roots certs.length child issuer) : Linked lib bag signer roots (certs ++ [child] ++ [issuer]) := by
  refine ⟨fun cert there => ?_, fun index one other oneAt otherAt => ?_⟩
  · rw [List.getElem?_append_left (by simp)] at there
    exact linked.first cert there
  · by_cases last : index + 1 = (certs ++ [child]).length
    · have length : (certs ++ [child]).length = certs.length + 1 := List.length_append
      have index_ : index = certs.length := by omega
      subst index_
      rw [last, List.getElem?_concat_length] at otherAt
      rw [List.append_assoc, List.getElem?_append_right (Nat.le_refl _), Nat.sub_self] at oneAt
      obtain rfl := Option.some.inj otherAt
      obtain rfl := Option.some.inj oneAt
      exact link
    · have bound := (List.getElem?_eq_some_iff.mp otherAt).1
      rw [List.length_append, List.length_singleton] at bound
      rw [List.getElem?_append_left (by omega)] at oneAt otherAt
      exact linked.links index one other oneAt otherAt

theorem verified_chain_starts {thumbprints : List String} (same : certs.map (thumbprintSha256 lib) = thumbprints.map some)
    (linked : Linked lib bag signer roots certs) (some_ : certs ≠ []) : thumbprints.head? = thumbprintSha256 lib signer := by
  cases certs with
  | nil => exact absurd rfl some_
  | cons first rest =>
      cases thumbprints with
      | nil => cases same
      | cons thumbprint others =>
          rw [← linked.first first rfl]
          exact (List.cons.inj same).1.symm

structure Walking (lib : Libraries) (bag : List Certificate) (signer : Certificate) (roots : List (PinnedRoot lib))
    (cert : Certificate) (chain : Chain) (certs : List Certificate) : Prop where
  same : certs.map (thumbprintSha256 lib) = chain.thumbprints.map some
  linked : Linked lib bag signer roots (certs ++ [cert])
  distinct : chain.thumbprints.Nodup
  unanchored : chain.anchor = none

theorem walking_length (walking : Walking lib bag signer roots cert chain certs) :
    certs.length = chain.thumbprints.length := by
  have lengths := congrArg List.length walking.same
  rwa [List.length_map, List.length_map] at lengths

theorem walking_stop (walking : Walking lib bag signer roots cert chain certs)
    (short : chain.thumbprints.length < maxChain) (begun : certs = [] → thumbprintSha256 lib cert = none) :
    VerifiedChain lib bag signer roots chain := by
  have linked := linked_init lib bag signer cert roots certs walking.linked
  refine ⟨?_, Nat.le_of_lt short, walking.distinct, certs, walking.same, linked, fun vendor anchored => ?_⟩
  · by_cases empty : certs = []
    · subst empty
      have none := List.map_eq_nil_iff.mp walking.same.symm
      rw [none, ← walking.linked.first cert rfl, begun rfl]
      rfl
    · exact verified_chain_starts lib bag signer walking.same linked empty
  · rw [walking.unanchored] at anchored
    cases anchored

theorem walking_add (roots : List (PinnedRoot lib))
    (cert : Certificate) (chain : Chain) (certs : List Certificate) (thumbprint : String) (anchor : Option Vendor)
    (walking : Walking lib bag signer roots cert chain certs) (short : chain.thumbprints.length < maxChain)
    (own : thumbprintSha256 lib cert = some thumbprint) (new : thumbprint ∉ chain.thumbprints)
    (anchored : ∀ vendor, anchor = some vendor → ∃ root ∈ roots, root.vendor = vendor ∧ root.thumbprint = thumbprint) :
    VerifiedChain lib bag signer roots ⟨chain.thumbprints ++ [thumbprint], anchor⟩ := by
  have same : (certs ++ [cert]).map (thumbprintSha256 lib) = (chain.thumbprints ++ [thumbprint]).map some := by
    rw [List.map_append, List.map_append, walking.same, List.map_singleton, List.map_singleton, own]
  refine ⟨verified_chain_starts lib bag signer same walking.linked (by simp), ?_, ?_, _, same, walking.linked,
    fun vendor has => ?_⟩
  · rw [List.length_append, List.length_singleton]
    exact short
  · rw [List.nodup_append]
    refine ⟨walking.distinct, List.pairwise_singleton _ _, fun left member right last => ?_⟩
    obtain rfl := List.mem_singleton.mp last
    exact fun equal => new (equal ▸ member)
  · obtain ⟨root, member, vendor_, print⟩ := anchored vendor has
    refine ⟨cert, root, List.getLast?_concat, member, vendor_, ?_⟩
    rw [own, print]

theorem walk_from_verified (roots : List (PinnedRoot lib))
    (fuel : Nat) (cert : Certificate) (chain : Chain) (tally : Tally) (certs : List Certificate)
    (walking : Walking lib bag signer roots cert chain certs) (short : chain.thumbprints.length < maxChain)
    (fuelLeft : fuel + chain.thumbprints.length = maxChain) (counted : Counted tally)
    (begun : certs = [] → chain.thumbprints = []) :
    VerifiedChain lib bag signer roots (walkFrom lib bag roots fuel cert chain tally).1 ∧
      Counted (walkFrom lib bag roots fuel cert chain tally).2 := by
  induction fuel generalizing cert chain tally certs with
  | zero => omega
  | succ fuel ih =>
      simp only [walkFrom]
      cases own : thumbprintSha256 lib cert with
      | none => exact ⟨walking_stop lib bag signer walking short (fun _ => own), counted⟩
      | some thumbprint =>
          simp only
          by_cases seen : chain.thumbprints.contains thumbprint = true
          · rw [if_pos seen]
            refine ⟨walking_stop lib bag signer walking short (fun empty => ?_), counted⟩
            rw [begun empty] at seen
            cases seen
          · rw [if_neg seen]
            have new : thumbprint ∉ chain.thumbprints := fun member => seen (List.contains_iff_mem.mpr member)
            have added := fun anchor => walking_add lib bag signer roots cert chain certs thumbprint anchor walking short own new
            have plain : ∀ vendor, chain.anchor = some vendor → ∃ root ∈ roots, root.vendor = vendor ∧ root.thumbprint = thumbprint :=
              fun vendor has => by
                rw [walking.unanchored] at has
                cases has
            cases pinned : roots.find? fun root => root.thumbprint = thumbprint with
            | some root =>
                refine ⟨added (some root.vendor) fun vendor has => ?_, counted⟩
                refine ⟨root, List.mem_of_find?_eq_some pinned, Option.some.inj has, ?_⟩
                simpa using List.find?_some pinned
            | none =>
                simp only
                by_cases stop : (chain.thumbprints ++ [thumbprint]).length = maxChain ∨ cert.issuer = cert.subject
                · rw [if_pos stop]
                  exact ⟨added chain.anchor plain, counted⟩
                · rw [if_neg stop]
                  have length : (chain.thumbprints ++ [thumbprint]).length = chain.thumbprints.length + 1 := List.length_append
                  have spec := find_issuer_spec lib bag roots cert ((chain.thumbprints ++ [thumbprint]).length - 1)
                    (candidates lib bag roots) tally (fun _ member => member) counted
                  rcases search : findIssuer lib cert ((chain.thumbprints ++ [thumbprint]).length - 1) (candidates lib bag roots)
                    tally with ⟨found, spent⟩
                  rw [search] at spec
                  cases found with
                  | none => exact ⟨added chain.anchor plain, spec.1⟩
                  | some issuer =>
                      have link := spec.2 issuer rfl
                      rw [length, Nat.add_sub_cancel, ← walking_length lib bag signer walking] at link
                      have room : (chain.thumbprints ++ [thumbprint]).length ≠ maxChain := fun full => stop (Or.inl full)
                      apply ih issuer _ spent (certs ++ [cert]) ?_ ?_ ?_ spec.1
                      · intro empty
                        exact absurd empty (by simp)
                      · refine ⟨?_, linked_push lib bag signer walking.linked link,
                          (added none (fun _ has => (by cases has))).distinct, walking.unanchored⟩
                        rw [List.map_append, List.map_append, walking.same, List.map_singleton, List.map_singleton, own]
                      · simp only [length] at room ⊢
                        omega
                      · simp only [length]
                        omega

theorem walk_chain_verified (lib : Libraries) (bag : List Certificate) (signer : Certificate) (roots : List (PinnedRoot lib)) :
    VerifiedChain lib bag signer roots (walkChain lib bag signer roots).1 ∧
      (walkChain lib bag signer roots).2.verifications ≤ maxLinkAttempts := by
  have walking : Walking lib bag signer roots signer ⟨[], none⟩ [] := by
    refine ⟨rfl, ⟨fun cert there => ?_, fun index child issuer _ other => ?_⟩, List.nodup_nil, rfl⟩
    · exact (Option.some.inj there).symm
    · cases other
  have walked := walk_from_verified lib bag signer roots maxChain signer ⟨[], none⟩ ⟨0, 0⟩ [] walking (by decide) rfl
    ⟨Nat.zero_le _, Nat.le_refl _⟩ (fun _ => rfl)
  exact ⟨walked.1, walked.2.1⟩

end Filefacts.Cms
