import Filefacts.Bytes
import Mathlib.Data.List.Nodup

set_option autoImplicit false

namespace Filefacts.Apk

open Filefacts.Bytes (ascii eqIgnoreAsciiCase fromUtf8)

-- One section of a manifest or signature file: the range of its bytes, the blank line ending it included, and its
-- attributes in order. A key is kept as the octets of its UTF-8 text.
structure Section where
  start : Nat
  stop : Nat
  attrs : List (List UInt8 × List UInt8)
  deriving DecidableEq, Repr

def Section.raw (part : Section) (text : List UInt8) : Option (List UInt8) := Bytes.get text part.start part.stop

def Section.name (part : Section) : Option (List UInt8) :=
  match part.attrs.filter fun attr => eqIgnoreAsciiCase attr.1 (ascii "Name") with
  | [(_, name)] => some name
  | _ => none

def lineOf (rest : List UInt8) : List UInt8 × Nat :=
  let line := rest.takeWhile fun b => b ≠ 13 && b ≠ 10
  match rest.drop line.length with
  | 13 :: 10 :: _ => (line, 2)
  | _ :: _ => (line, 1)
  | [] => (line, 0)

def splitAttribute : List UInt8 → Option (List UInt8 × List UInt8)
  | 58 :: 32 :: value => some ([], value)
  | byte :: rest => (splitAttribute rest).map fun attr => (byte :: attr.1, attr.2)
  | [] => none

def addLine (part : Section) (line : List UInt8) : Option Section :=
  match line with
  | 32 :: more =>
      match part.attrs.getLast? with
      | none => none
      | some (key, value) => some { part with attrs := part.attrs.dropLast ++ [(key, value ++ more)] }
  | _ =>
      match splitAttribute line with
      | none => none
      | some (key, value) => (fromUtf8 key).map fun key => { part with attrs := part.attrs ++ [(key, value)] }

-- The loop over lines; each consumes at least one octet, so the length of the text bounds the rounds.
def sectionsFrom (text : List UInt8) : Nat → Nat → Option Section → List Section → Option (List Section)
  | 0, _, _, _ => none
  | fuel + 1, pos, current, out =>
      let rest := text.drop pos
      if rest = [] then
        match current with
        | none => some out
        | some part => some (out ++ [{ part with stop := text.length }])
      else
        let line := (lineOf rest).1
        let stop := pos + line.length + (lineOf rest).2
        if line = [] then
          match current with
          | none => sectionsFrom text fuel stop none out
          | some part => sectionsFrom text fuel stop none (out ++ [{ part with stop := stop }])
        else
          match addLine (current.getD ⟨pos, pos, []⟩) line with
          | none => none
          | some part => sectionsFrom text fuel stop (some part) out

def sections (text : List UInt8) : Option (List Section) := sectionsFrom text (text.length + 1) 0 none []

-- What the loop keeps: the finished sections lie in order before the open one, and that one starts at or before the line.
structure Laid (text : List UInt8) (pos : Nat) (current : Option Section) (out : List Section) : Prop where
  inside : pos ≤ text.length
  opened : ∀ part, current = some part → part.start ≤ pos
  closed : ∀ part ∈ out, part.start ≤ part.stop ∧ part.stop ≤ (current.map Section.start).getD pos
  ordered : out.Pairwise fun before after => before.stop ≤ after.start

example :
    sections (ascii "Manifest-Version: 1.0\r\n\r\nName: a/na\r\n me.txt\r\n\r\n\nName: b\r") =
      some [⟨0, 25, [(ascii "Manifest-Version", ascii "1.0")]⟩, ⟨25, 48, [(ascii "Name", ascii "a/name.txt")]⟩,
        ⟨49, 57, [(ascii "Name", ascii "b")]⟩] := by decide +kernel

open Filefacts.Bytes (ascii toAsciiUppercase eqIgnoreAsciiCase)

inductive Alg where
  | sha1
  | sha256
  | sha384
  | sha512
  deriving DecidableEq, Repr

def Alg.named (name : List UInt8) : Option Alg :=
  let upper := toAsciiUppercase name
  if upper = ascii "SHA1" ∨ upper = ascii "SHA-1" ∨ upper = ascii "SHA" then some .sha1
  else if upper = ascii "SHA-256" then some .sha256
  else if upper = ascii "SHA-384" then some .sha384
  else if upper = ascii "SHA-512" then some .sha512
  else none

structure Primitives where
  digest : Alg → List UInt8 → List UInt8
  base64 : List UInt8 → Option (List UInt8)
  crc32 : List UInt8 → Nat

-- A cut is allowed where a character of the key starts or the key ends.
def isCharBoundary (key : List UInt8) (index : Nat) : Bool :=
  index = key.length || key[index]?.any fun b => b < 128 || 192 ≤ b

def recognised (suffix : List UInt8) (attr : List UInt8 × List UInt8) : Option (Alg × List UInt8) :=
  (Bytes.checkedSub attr.1.length suffix.length).bind fun index =>
    if isCharBoundary attr.1 index ∧ eqIgnoreAsciiCase (attr.1.drop index) suffix then
      (Alg.named (attr.1.take index)).map fun alg => (alg, attr.2)
    else none

-- The digests a section states under a suffix, and for each of their algorithms the octets hashed so far.
structure Digests where
  claims : List (Alg × List UInt8)
  hashers : List (Alg × List UInt8)
  deriving DecidableEq, Repr

def startHashers (claims : List (Alg × List UInt8)) : List (Alg × List UInt8) :=
  claims.foldl (fun hashers claim =>
    if hashers.any fun hasher => hasher.1 = claim.1 then hashers else hashers ++ [(claim.1, [])]) []

def Digests.of (part : Section) (suffix : List UInt8) : Digests :=
  let claims := part.attrs.filterMap (recognised suffix)
  ⟨claims, startHashers claims⟩

def Digests.isEmpty (digests : Digests) : Bool := digests.claims.isEmpty

def Digests.update (digests : Digests) (data : List UInt8) (budget : Nat) : Option (Digests × Nat) :=
  (Bytes.checkedSub budget (Bytes.saturatingMul data.length digests.hashers.length)).map fun left =>
    ({ digests with hashers := digests.hashers.map fun hasher => (hasher.1, hasher.2 ++ data) }, left)

def Digests.matches (prims : Primitives) (digests : Digests) : Bool :=
  !digests.claims.isEmpty && digests.claims.all fun claim =>
    digests.hashers.any fun hasher => hasher.1 = claim.1 && prims.base64 claim.2 = some (prims.digest hasher.1 hasher.2)

inductive Check where
  | absent
  | matching
  | mismatch
  | overBudget
  deriving DecidableEq, Repr

def check (prims : Primitives) (part : Section) (suffix data : List UInt8) (budget : Nat) : Check × Nat :=
  let digests := Digests.of part suffix
  if digests.isEmpty then (.absent, budget)
  else
    match digests.update data budget with
    | none => (.overBudget, budget)
    | some (hashed, left) => if hashed.matches prims then (.matching, left) else (.mismatch, left)

-- What the digests of a section promise about some bytes: at least one is recognised, and each is the digest of the bytes.
def Promises (prims : Primitives) (part : Section) (suffix data : List UInt8) : Prop :=
  let claims := part.attrs.filterMap (recognised suffix)
  claims ≠ [] ∧ ∀ claim ∈ claims, prims.base64 claim.2 = some (prims.digest claim.1 data)

def algorithms (part : Section) (suffix : List UInt8) : Nat := (Digests.of part suffix).hashers.length

structure Fed (digests : Digests) (data : List UInt8) : Prop where
  named : ∀ alg, alg ∈ digests.hashers.map Prod.fst ↔ alg ∈ digests.claims.map Prod.fst
  same : ∀ hasher ∈ digests.hashers, hasher.2 = data
  distinct : (digests.hashers.map Prod.fst).Nodup

theorem start_hashers_fold (claims started : List (Alg × List UInt8)) (distinct : (started.map Prod.fst).Nodup)
    (empty : ∀ hasher ∈ started, hasher.2 = []) :
    let all := claims.foldl (fun hashers claim =>
      if hashers.any fun hasher => hasher.1 = claim.1 then hashers else hashers ++ [(claim.1, [])]) started
    (all.map Prod.fst).Nodup ∧ (∀ hasher ∈ all, hasher.2 = []) ∧
      ∀ alg, alg ∈ all.map Prod.fst ↔ alg ∈ started.map Prod.fst ∨ alg ∈ claims.map Prod.fst := by
  induction claims generalizing started with
  | nil => exact ⟨distinct, empty, fun alg => by simp⟩
  | cons claim rest ih =>
      simp only [List.foldl_cons]
      by_cases known : (started.any fun hasher => hasher.1 = claim.1) = true
      · rw [if_pos known]
        obtain ⟨hasher, member, same⟩ := List.any_eq_true.mp known
        have there : claim.1 ∈ started.map Prod.fst := List.mem_map.mpr ⟨hasher, member, of_decide_eq_true same⟩
        obtain ⟨nodup, fresh, named⟩ := ih started distinct empty
        refine ⟨nodup, fresh, fun alg => ?_⟩
        rw [named, List.map_cons, List.mem_cons]
        by_cases first : alg = claim.1
        · rw [first]
          exact iff_of_true (Or.inl there) (Or.inl there)
        · simp only [first, false_or]
      · rw [if_neg known]
        have absent : claim.1 ∉ started.map Prod.fst := fun there => by
          obtain ⟨hasher, member, same⟩ := List.mem_map.mp there
          exact known (List.any_eq_true.mpr ⟨hasher, member, decide_eq_true same⟩)
        obtain ⟨nodup, fresh, named⟩ := ih (started ++ [(claim.1, [])])
          (by
            rw [List.map_append, List.nodup_append]
            refine ⟨distinct, List.nodup_singleton _, fun left member right last => ?_⟩
            obtain rfl := List.mem_singleton.mp last
            exact fun same => absent (same ▸ member))
          (by
            intro hasher member
            rcases List.mem_append.mp member with old | new
            · exact empty hasher old
            · rw [List.mem_singleton.mp new])
        refine ⟨nodup, fresh, fun alg => ?_⟩
        rw [named, List.map_append, List.mem_append, List.map_cons, List.mem_cons]
        simp only [List.map_cons, List.map_nil, List.mem_cons, List.not_mem_nil, false_or, or_assoc]

theorem digests_of_fed (part : Section) (suffix : List UInt8) : Fed (Digests.of part suffix) [] := by
  have all := start_hashers_fold (part.attrs.filterMap (recognised suffix)) [] List.nodup_nil
    (fun hasher member => (by cases member))
  refine ⟨fun alg => ?_, all.2.1, all.1⟩
  rw [show (Digests.of part suffix).hashers = startHashers (part.attrs.filterMap (recognised suffix)) from rfl]
  exact (all.2.2 alg).trans (by simp only [List.map_nil, List.not_mem_nil, false_or]; rfl)

variable {digests : Digests} {data : List UInt8}

theorem fed_few (fed : Fed digests data) : digests.hashers.length ≤ 4 := by
  have inside : digests.hashers.map Prod.fst ⊆ [Alg.sha1, .sha256, .sha384, .sha512] := by
    intro alg _
    cases alg <;> simp
  have bound := List.Nodup.length_le_of_subset fed.distinct inside
  rwa [List.length_map] at bound

theorem update_fed (digests hashed : Digests) (before data : List UInt8) (budget left : Nat) (fed : Fed digests before)
    (updated : digests.update data budget = some (hashed, left)) :
    Fed hashed (before ++ data) ∧ hashed.claims = digests.claims ∧ hashed.hashers.length = digests.hashers.length ∧
      left + Bytes.saturatingMul data.length digests.hashers.length = budget := by
  obtain ⟨rest, paid, same⟩ := Option.map_eq_some_iff.mp updated
  obtain ⟨rfl, rfl⟩ := Prod.mk.inj same
  have keys : (digests.hashers.map fun hasher => (hasher.1, hasher.2 ++ data)).map Prod.fst = digests.hashers.map Prod.fst := by
    rw [List.map_map]
    rfl
  refine ⟨⟨fun alg => ?_, fun hasher member => ?_, ?_⟩, rfl, List.length_map _, ?_⟩
  · simp only [keys]
    exact fed.named alg
  · obtain ⟨old, there, rfl⟩ := List.mem_map.mp member
    simp only [fed.same old there]
  · simp only [keys]
    exact fed.distinct
  · rw [Bytes.checkedSub, Option.ite_none_right_eq_some, Option.some.injEq] at paid
    omega

theorem matches_iff (prims : Primitives) (fed : Fed digests data) : digests.matches prims = true ↔
      digests.claims ≠ [] ∧ ∀ claim ∈ digests.claims, prims.base64 claim.2 = some (prims.digest claim.1 data) := by
  unfold Digests.matches
  rw [Bool.and_eq_true, Bool.not_eq_true', List.isEmpty_eq_false_iff, List.all_eq_true]
  refine and_congr_right fun _ => forall₂_congr fun claim member => ?_
  rw [List.any_eq_true]
  constructor
  · rintro ⟨hasher, there, both⟩
    rw [Bool.and_eq_true, decide_eq_true_iff, decide_eq_true_iff] at both
    rw [both.2, both.1, fed.same hasher there]
  · intro decoded
    obtain ⟨hasher, there, same⟩ := List.mem_map.mp ((fed.named claim.1).mpr (List.mem_map_of_mem member))
    refine ⟨hasher, there, ?_⟩
    rw [Bool.and_eq_true, decide_eq_true_iff, decide_eq_true_iff, same, fed.same hasher there]
    exact ⟨rfl, decoded⟩

theorem check_budget (prims : Primitives) (part : Section) (suffix data : List UInt8) (budget : Nat) :
    (check prims part suffix data budget).2 ≤ budget := by
  simp only [check]
  by_cases none : (Digests.of part suffix).isEmpty = true
  · rw [if_pos none]
  · rw [if_neg none]
    cases updated : (Digests.of part suffix).update data budget with
    | none => exact Nat.le_refl _
    | some out =>
        obtain ⟨hashed, left⟩ := out
        have paid := (update_fed _ hashed [] data budget left (digests_of_fed part suffix) updated).2.2.2
        have least : left ≤ budget := by omega
        by_cases equal : hashed.matches prims = true
        · simpa only [if_pos equal] using least
        · simpa only [if_neg equal] using least

theorem check_matching {prims : Primitives} {part : Section} {suffix : List UInt8} {budget : Nat}
    (matched : (check prims part suffix data budget).1 = .matching) :
    Promises prims part suffix data ∧ (check prims part suffix data budget).2 +
      Bytes.saturatingMul data.length (algorithms part suffix) = budget := by
  unfold check at matched ⊢
  by_cases none : (Digests.of part suffix).isEmpty = true
  · simp only [if_pos none] at matched
    cases matched
  · simp only [if_neg none] at matched ⊢
    cases updated : (Digests.of part suffix).update data budget with
    | none =>
        rw [updated] at matched
        cases matched
    | some out =>
        obtain ⟨hashed, left⟩ := out
        obtain ⟨fed, claims, _, paid⟩ := update_fed _ hashed [] data budget left (digests_of_fed part suffix) updated
        rw [List.nil_append] at fed
        rw [updated] at matched
        by_cases equal : hashed.matches prims = true
        · simp only [if_pos equal]
          refine ⟨?_, paid⟩
          have promised := (matches_iff prims fed).mp equal
          rwa [claims] at promised
        · simp only [if_neg equal] at matched
          cases matched

end Filefacts.Apk
