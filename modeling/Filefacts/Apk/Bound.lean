import Filefacts.Apk.Binding

set_option autoImplicit false

namespace Filefacts.Apk

open Filefacts.Bytes (ascii)

def NamedOnce (parts : List Section) (name : List UInt8) (part : Section) : Prop :=
  ∃ index : Nat, parts[index]? = some part ∧ part.name = some name ∧
    ∀ (other : Nat) (twin : Section), parts[other]? = some twin → twin.name = some name → other = index

def NamesDistinct (parts : List Section) : Prop :=
  ∀ (left right : Nat) (one other : Section) (name : List UInt8),
    parts[left]? = some one → parts[right]? = some other → one.name = some name → other.name = some name → left = right

structure Indexed (parts : List Section) (count : Nat) (table : List (List UInt8 × Nat)) : Prop where
  sound : ∀ entry ∈ table, entry.2 < count ∧ ∃ part, parts[entry.2]? = some part ∧ part.name = some entry.1
  complete : ∀ index, index < count → ∃ part name, parts[index]? = some part ∧ part.name = some name ∧ (name, index) ∈ table
  distinct : (table.map Prod.fst).Nodup

variable {table : List (List UInt8 × Nat)} {name : List UInt8}

theorem lookup_mem {index : Nat} (found : table.lookup name = some index) : (name, index) ∈ table := by
  obtain ⟨before, after, rfl, _⟩ := List.lookup_eq_some_iff.mp found
  exact List.mem_append_right _ List.mem_cons_self

variable (parts : List Section) (prims : Primitives)

theorem index_names_indexed (rest : List Section) (count : Nat) (table final : List (List UInt8 × Nat))
    (left : parts.drop count = rest) (indexed : Indexed parts count table) (built : indexNames rest count table = some final) :
    Indexed parts parts.length final := by
  induction rest generalizing count table with
  | nil =>
      obtain rfl := Option.some.inj built
      have past : parts.length ≤ count := List.drop_eq_nil_iff.mp left
      refine ⟨fun entry member => ?_, fun index inside => indexed.complete index (by omega), indexed.distinct⟩
      obtain ⟨_, part, there, named⟩ := indexed.sound entry member
      exact ⟨(List.getElem?_eq_some_iff.mp there).1, part, there, named⟩
  | cons part rest ih =>
      have there : parts[count]? = some part := by
        rw [← List.head?_drop, left, List.head?_cons]
      simp only [indexNames] at built
      cases named : part.name with
      | none =>
          rw [named] at built
          cases built
      | some name =>
          rw [named] at built
          by_cases known : (table.lookup name).isSome = true
          · simp only [if_pos known] at built
            cases built
          · simp only [if_neg known] at built
            have fresh : name ∉ table.map Prod.fst := fun inside => by
              obtain ⟨entry, member, rfl⟩ := List.mem_map.mp inside
              exact known (List.lookup_isSome_iff.mpr ⟨entry, member, beq_self_eq_true _⟩)
            apply ih (count + 1) _ ?_ ?_ built
            · rw [← List.drop_drop, left, List.drop_one, List.tail_cons]
            · refine ⟨fun entry member => ?_, fun index inside => ?_, ?_⟩
              · rcases List.mem_append.mp member with old | new
                · obtain ⟨bound, rest⟩ := indexed.sound entry old
                  exact ⟨by omega, rest⟩
                · obtain rfl := List.mem_singleton.mp new
                  exact ⟨Nat.lt_succ_self _, part, there, named⟩
              · by_cases last : index = count
                · subst last
                  exact ⟨part, name, there, named, List.mem_append_right _ List.mem_cons_self⟩
                · obtain ⟨part, name, at_, named, member⟩ := indexed.complete index (by omega)
                  exact ⟨part, name, at_, named, List.mem_append_left _ member⟩
              · rw [List.map_append, List.nodup_append]
                refine ⟨indexed.distinct, List.nodup_singleton _, fun old member new last => ?_⟩
                obtain rfl := List.mem_singleton.mp last
                exact fun same => fresh (same ▸ member)

theorem index_names_all (table : List (List UInt8 × Nat)) (built : indexNames parts 0 [] = some table) :
    Indexed parts parts.length table := by
  apply index_names_indexed parts parts 0 [] table rfl ?_ built
  exact ⟨fun entry member => (by cases member), fun index inside => absurd inside (Nat.not_lt_zero _), List.nodup_nil⟩

variable {left : Nat} {zip : Zip} {part : Section} {budget : Nat} {archive : Archive} {entries : List Section}
  {verifier : Verifier}

theorem nodup_lookup {right : Nat}
    (distinct : (table.map Prod.fst).Nodup) (one : (name, left) ∈ table) (other : (name, right) ∈ table) : left = right := by
  have same := List.inj_on_of_nodup_map distinct one other rfl
  exact (Prod.mk.inj same).2

theorem section_named_once (archive : Archive) (name : List UInt8) (part : Section)
    (indexed : Indexed archive.sections archive.sections.length archive.byName) (found : archive.section name = some part) :
    NamedOnce archive.sections name part := by
  obtain ⟨index, looked, there⟩ := Option.bind_eq_some_iff.mp found
  have member := lookup_mem looked
  obtain ⟨_, own, at_, named⟩ := indexed.sound _ member
  obtain rfl := Option.some.inj (at_.symm.trans there)
  refine ⟨index, there, named, fun other twin place twinName => ?_⟩
  obtain ⟨other', name', at', named', member'⟩ := indexed.complete other (List.getElem?_eq_some_iff.mp place).1
  obtain rfl := Option.some.inj (at'.symm.trans place)
  obtain rfl := Option.some.inj (named'.symm.trans twinName)
  exact nodup_lookup indexed.distinct member' member

theorem hash_pieces_ok (pieces : List (List UInt8)) (complete : Bool) (digests hashed : Digests) (before : List UInt8)
    (budget left : Nat) (fed : Fed digests before) (sized : ∀ piece ∈ pieces, piece.length ≤ chunkBytes)
    (done : hashPieces pieces complete digests budget = (.ok hashed, left)) :
    complete = true ∧ Fed hashed (before ++ pieces.flatten) ∧ hashed.claims = digests.claims ∧
      left + digests.hashers.length * pieces.flatten.length = budget := by
  induction pieces generalizing digests before budget with
  | nil =>
      cases complete with
      | false => cases done
      | true =>
          obtain ⟨ok, rfl⟩ := Prod.mk.inj done
          obtain rfl := Except.ok.inj ok
          exact ⟨rfl, by simpa using fed, rfl, by simp⟩
  | cons piece rest ih =>
      simp only [hashPieces] at done
      cases updated : digests.update piece budget with
      | none =>
          rw [updated] at done
          cases done
      | some out =>
          obtain ⟨next, paid⟩ := out
          rw [updated] at done
          obtain ⟨fedNext, claims, same, cost⟩ := update_fed digests next before piece budget paid fed updated
          obtain ⟨whole, fedAll, claimsAll, costAll⟩ := ih next (before ++ piece) paid fedNext
            (fun other member => sized other (List.mem_cons_of_mem _ member)) done
          rw [List.append_assoc] at fedAll
          refine ⟨whole, by simpa only [List.flatten_cons] using fedAll, claimsAll.trans claims, ?_⟩
          have few := fed_few fed
          have short := sized piece List.mem_cons_self
          have exact_ : Bytes.saturatingMul piece.length digests.hashers.length = digests.hashers.length * piece.length := by
            have product : piece.length * digests.hashers.length ≤ chunkBytes * 4 := Nat.mul_le_mul short few
            rw [Bytes.saturatingMul, Nat.min_eq_left, Nat.mul_comm]
            exact Nat.le_trans product (by decide)
          rw [exact_] at cost
          rw [same] at costAll
          rw [List.flatten_cons, List.length_append, Nat.mul_add]
          omega

theorem hash_member_ok {hashed : Digests}
    (done : hashMember zip name (Digests.of part digestSuffix) budget = (.ok hashed, left)) :
    ∃ stream, (byName zip name).bind Member.entry = some stream ∧ stream.complete = true ∧ Fed hashed stream.content ∧
      hashed.claims = (Digests.of part digestSuffix).claims ∧
      left + algorithms part digestSuffix * stream.content.length = budget := by
  unfold hashMember at done
  cases opened : (byName zip name).bind Member.entry with
  | none =>
      rw [opened] at done
      cases done
  | some stream =>
      rw [opened] at done
      obtain ⟨whole, fed, claims, cost⟩ := hash_pieces_ok stream.pieces stream.complete _ hashed [] budget left
        (digests_of_fed part digestSuffix) (fun piece member => (stream.sized piece member).2) done
      exact ⟨stream, rfl, whole, fed, claims, cost⟩

-- What the manifest says of one needed member, and what hashing it cost.
structure MemberHolds (prims : Primitives) (archive : Archive) (zip : Zip) (name : List UInt8) (cost : Nat) : Prop where
  holds : ∃ part stream, archive.section name = some part ∧ (byName zip name).bind Member.entry = some stream ∧
    stream.complete = true ∧ Promises prims part digestSuffix stream.content ∧
    cost = algorithms part digestSuffix * stream.content.length

theorem check_members_bound (archive : Archive) (zip : Zip) (names : List (List UInt8)) (budget left : Nat)
    (done : archive.checkMembers prims zip names budget = (.bound, left)) :
    ∃ costs : List Nat, List.Forall₂ (MemberHolds prims archive zip) names costs ∧ left + costs.sum = budget := by
  induction names generalizing budget with
  | nil =>
      obtain ⟨_, rfl⟩ := Prod.mk.inj done
      exact ⟨[], List.Forall₂.nil, rfl⟩
  | cons name rest ih =>
      simp only [Archive.checkMembers] at done
      cases found : archive.section name with
      | none =>
          rw [found] at done
          cases done
      | some part =>
          simp only [found] at done
          cases hashed : hashMember zip name (Digests.of part digestSuffix) budget with
          | mk outcome paid =>
              rw [hashed] at done
              cases outcome with
              | error reason => cases done
              | ok digests =>
                  obtain ⟨stream, opened, whole, fed, claims, cost⟩ := hash_member_ok hashed
                  by_cases equal : digests.matches prims = true
                  · simp only [if_pos equal] at done
                    obtain ⟨costs, all, total⟩ := ih paid done
                    have promised := (matches_iff prims fed).mp equal
                    rw [claims] at promised
                    refine ⟨_ :: costs, List.Forall₂.cons ⟨part, stream, found, opened, whole, promised, rfl⟩ all, ?_⟩
                    rw [List.sum_cons]
                    omega
                  · simp only [if_neg equal] at done
                    cases done

theorem members_bound (archive : Archive) (zip : Zip) (budget left : Nat)
    (done : archive.membersBound prims zip budget = (.bound, left)) :
    ∃ costs : List Nat, List.Forall₂ (MemberHolds prims archive zip) archive.needed costs ∧ left + costs.sum = budget := by
  unfold Archive.membersBound at done
  by_cases missing : archive.needed.any archive.undigested = true
  · rw [if_pos missing] at done
    cases done
  · rw [if_neg missing] at done
    exact check_members_bound prims archive zip archive.needed budget left done

theorem inflate_capped_length (stream : Stream) (cap : Nat) (read : MemberPrefix) (done : inflateCapped stream cap = some read) :
    read.bytes.length ≤ cap := by
  simp only [inflateCapped] at done
  split at done
  · cases done
  · obtain rfl := Option.some.inj done
    simp only [List.length_take]
    omega

theorem read_member_prefix_length (zip : Zip) (name : List UInt8) (read : MemberPrefix) (max : Nat)
    (done : readMemberPrefix prims zip name max = .ok (some read)) : read.bytes.length ≤ max := by
  unfold readMemberPrefix at done
  cases there : byName zip name with
  | none => rw [there] at done; cases done
  | some member =>
      simp only [there] at done
      by_cases opens : (!member.opensRaw) = true
      · rw [if_pos opens] at done
        cases done
      · rw [if_neg opens] at done
        by_cases encrypted : member.encrypted = true
        · rw [if_pos encrypted] at done
          split at done
          · cases done
          · split at done
            · cases done
            · split at done
              · cases done
              · obtain rfl := Option.some.inj (Except.ok.inj done)
                exact List.length_take_le _ _
        · rw [if_neg encrypted] at done
          split at done
          · cases done
          · next inflated =>
              obtain ⟨stream, _, capped⟩ := Option.bind_eq_some_iff.mp inflated
              obtain rfl := Option.some.inj (Except.ok.inj done)
              exact inflate_capped_length stream max _ capped

theorem read_member_length {bytes : List UInt8} {max : Nat}
    (done : readMember prims zip name max = .ok (some bytes)) : bytes.length ≤ max := by
  unfold readMember at done
  cases outcome : readMemberPrefix prims zip name max with
  | error why => rw [outcome] at done; cases done
  | ok found =>
      cases found with
      | none => rw [outcome] at done; cases done
      | some read =>
          simp only [outcome] at done
          split at done
          · cases done
          · obtain rfl := Option.some.inj (Except.ok.inj done)
            exact read_member_prefix_length prims zip name read max outcome

structure ReadFrom (prims : Primitives) (zip : Zip) (archive : Archive) (all : List Section) : Prop where
  distinct : (zip.filterMap Member.name).Nodup
  manifest : readMember prims zip manifestName maxManifestBytes = .ok (some archive.manifest)
  split : sections archive.manifest = some all
  parts : archive.sections = all.drop 1
  indexed : Indexed archive.sections archive.sections.length archive.byName
  needed : archive.needed = (zip.filterMap Member.name).filter needsDigest

theorem read_from (done : Archive.read prims zip budget = (.ok archive, left)) :
    ∃ all, ReadFrom prims zip archive all ∧ (archive.members = .bound →
      ∃ costs : List Nat, List.Forall₂ (MemberHolds prims archive zip) archive.needed costs ∧ left + costs.sum = budget) := by
  unfold Archive.read at done
  by_cases twice : hasDuplicateNames zip = true
  · rw [if_pos twice] at done
    cases done
  · rw [if_neg twice] at done
    have distinct : (zip.filterMap Member.name).Nodup := by
      simpa only [hasDuplicateNames, decide_not, Bool.not_eq_true, Bool.not_eq_false', decide_eq_true_iff] using twice
    have names : (fileNames zip).filterMap id = zip.filterMap Member.name := by
      rw [fileNames, List.filterMap_map]
      rfl
    split at done
    · cases done
    · cases done
    · cases done
    · next manifest reads =>
        cases split_ : sections manifest with
        | none => simp only [split_] at done; cases done
        | some all =>
            simp only [split_] at done
            cases built : indexNames (all.drop 1) 0 [] with
            | none => simp only [built] at done; cases done
            | some table =>
                simp only [built, names] at done
                obtain ⟨ok, rfl⟩ := Prod.mk.inj done
                obtain rfl := Except.ok.inj ok
                refine ⟨all, ⟨distinct, reads, split_, rfl, index_names_all _ table built, rfl⟩, fun bound => ?_⟩
                obtain ⟨costs, holds, paid⟩ := members_bound prims _ zip budget _ (Prod.ext bound rfl)
                refine ⟨costs, ?_, paid⟩
                apply holds.imp
                intro name cost one
                exact ⟨one.holds⟩

theorem list_names_listed (entries : List Section) (listed final : List (List UInt8)) (name : List UInt8)
    (done : listNames entries listed = some final) (inside : name ∈ final) :
    name ∈ listed ∨ ∃ entry ∈ entries, entry.name = some name := by
  induction entries generalizing listed with
  | nil =>
      obtain rfl := Option.some.inj done
      exact Or.inl inside
  | cons entry rest ih =>
      simp only [listNames] at done
      cases named : entry.name with
      | none => simp only [named] at done; cases done
      | some own =>
          simp only [named] at done
          split at done
          · cases done
          · rcases ih _ done with before | ⟨later, member, same⟩
            · rcases List.mem_append.mp before with old | new
              · exact Or.inl old
              · obtain rfl := List.mem_singleton.mp new
                exact Or.inr ⟨entry, List.mem_cons_self, named⟩
            · exact Or.inr ⟨later, List.mem_cons_of_mem _ member, same⟩

theorem check_matching_cost {suffix data : List UInt8}
    (short : data.length ≤ maxManifestBytes) (matched : check prims part suffix data budget = (.matching, left)) :
    Promises prims part suffix data ∧ left + algorithms part suffix * data.length = budget := by
  have both := check_matching (by rw [matched])
  rw [matched] at both
  have few := fed_few (digests_of_fed part suffix)
  have product : data.length * algorithms part suffix ≤ maxManifestBytes * 4 := Nat.mul_le_mul short few
  rw [Bytes.saturatingMul, Nat.min_eq_left (Nat.le_trans product (by decide)), Nat.mul_comm] at both
  exact both

structure EntryHolds (prims : Primitives) (archive : Archive) (entry : Section) (cost : Nat) : Prop where
  holds : ∃ name part raw, entry.name = some name ∧ archive.section name = some part ∧ part.raw archive.manifest = some raw ∧
    Promises prims entry digestSuffix raw ∧ cost = algorithms entry digestSuffix * raw.length

theorem raw_length {text raw : List UInt8} (found : part.raw text = some raw) : raw.length ≤ text.length := by
  unfold Section.raw Bytes.get at found
  split at found
  · obtain rfl := Option.some.inj found
    simp only [List.length_take, List.length_drop]
    omega
  · cases found

theorem check_entries_bound (archive : Archive) (entries : List Section) (budget left : Nat)
    (short : archive.manifest.length ≤ maxManifestBytes)
    (done : archive.checkEntries prims entries budget = (.bound, left)) :
    ∃ costs : List Nat, List.Forall₂ (EntryHolds prims archive) entries costs ∧ left + costs.sum = budget := by
  induction entries generalizing budget with
  | nil =>
      obtain ⟨_, rfl⟩ := Prod.mk.inj done
      exact ⟨[], List.Forall₂.nil, rfl⟩
  | cons entry rest ih =>
      simp only [Archive.checkEntries] at done
      cases found : (entry.name.bind archive.section).bind fun part => part.raw archive.manifest with
      | none => simp only [found] at done; cases done
      | some raw =>
          simp only [found] at done
          cases checked : check prims entry digestSuffix raw budget with
          | mk outcome paid =>
              rw [checked] at done
              cases outcome with
              | absent => cases done
              | mismatch => cases done
              | overBudget => cases done
              | matching =>
                  obtain ⟨part, section_, range⟩ := Option.bind_eq_some_iff.mp found
                  obtain ⟨name, named, there⟩ := Option.bind_eq_some_iff.mp section_
                  have inside := raw_length range
                  obtain ⟨promised, cost⟩ := check_matching_cost prims (by omega) checked
                  obtain ⟨costs, all, total⟩ := ih paid done
                  refine ⟨_ :: costs, List.Forall₂.cons ⟨name, part, raw, named, there, range, promised, rfl⟩ all, ?_⟩
                  rw [List.sum_cons]
                  omega

theorem binds_manifest_bound {main : Option Section} (short : archive.manifest.length ≤ maxManifestBytes)
    (done : archive.bindsManifest prims main entries budget = (.bound, left)) :
    (∃ part, main = some part ∧ Promises prims part digestManifestSuffix archive.manifest ∧
        left + algorithms part digestManifestSuffix * archive.manifest.length = budget) ∨
      ∃ costs : List Nat, List.Forall₂ (EntryHolds prims archive) entries costs ∧ left + costs.sum ≤ budget := by
  unfold Archive.bindsManifest at done
  cases main with
  | none =>
      obtain ⟨costs, all, total⟩ := check_entries_bound prims archive entries budget left short done
      exact Or.inr ⟨costs, all, by omega⟩
  | some part =>
      have spent := check_budget prims part digestManifestSuffix archive.manifest budget
      cases checked : check prims part digestManifestSuffix archive.manifest budget with
      | mk outcome paid =>
          rw [checked] at spent
          simp only [checked] at done
          have fallback := fun done => check_entries_bound prims archive entries paid left short done
          cases outcome with
          | overBudget => cases done
          | matching =>
              obtain ⟨_, rfl⟩ := Prod.mk.inj done
              exact Or.inl ⟨part, rfl, check_matching_cost prims short checked⟩
          | absent =>
              obtain ⟨costs, all, total⟩ := fallback done
              exact Or.inr ⟨costs, all, by simp only at spent; omega⟩
          | mismatch =>
              obtain ⟨costs, all, total⟩ := fallback done
              exact Or.inr ⟨costs, all, by simp only at spent; omega⟩

def named (parts : List Section) (name : Option (List UInt8)) : Option Section := parts.find? fun part => part.name = name

def memberCost (parts : List Section) (member : Member) : Nat :=
  match member.name, member.entry with
  | some name, some stream =>
      if needsDigest name then
        (named parts (some name)).elim 0 fun part => algorithms part digestSuffix * stream.content.length
      else 0
  | _, _ => 0

def entryCost (parts : List Section) (manifest : List UInt8) (entry : Section) : Nat :=
  ((named parts entry.name).bind fun part => part.raw manifest).elim 0 fun raw => algorithms entry digestSuffix * raw.length

-- The signature of a file reaches an archive: every link of the chain from it to the members holds, and all that was
-- hashed to see it fits the budget, of which something is left.
structure Covers (prims : Primitives) (zip : Zip) (manifest : List UInt8) (parts entries : List Section) (budget left : Nat) : Prop where
  distinct : (zip.filterMap Member.name).Nodup
  read : readMember prims zip manifestName maxManifestBytes = .ok (some manifest)
  split : sections manifest = some parts
  members : ∀ member ∈ zip, ∀ name, member.name = some name → ¬ Directory name → ¬ SigningFile name →
    ∃ stream part entry, member.entry = some stream ∧ stream.complete = true ∧ NamedOnce (parts.drop 1) name part ∧
      Promises prims part digestSuffix stream.content ∧ entry ∈ entries.drop 1 ∧ entry.name = some name
  signed :
    (∃ main, entries.head? = some main ∧ Promises prims main digestManifestSuffix manifest ∧
        left + (zip.map (memberCost (parts.drop 1))).sum + algorithms main digestManifestSuffix * manifest.length ≤ budget) ∨
      ((∀ entry ∈ entries.drop 1, ∃ name part raw, entry.name = some name ∧ NamedOnce (parts.drop 1) name part ∧
          part.raw manifest = some raw ∧ Promises prims entry digestSuffix raw) ∧
        left + (zip.map (memberCost (parts.drop 1))).sum + ((entries.drop 1).map (entryCost (parts.drop 1) manifest)).sum ≤ budget)

theorem named_once_named (once : NamedOnce parts name part) : named parts (some name) = some part := by
  obtain ⟨index, there, has, only⟩ := once
  cases found : named parts (some name) with
  | none =>
      have none := List.find?_eq_none.mp found part (List.mem_of_getElem? there)
      exact absurd (decide_eq_true has) none
  | some first =>
      obtain ⟨place, at_⟩ := List.mem_iff_getElem?.mp (List.mem_of_find?_eq_some found)
      have firstName : first.name = some name := by simpa using List.find?_some (show parts.find? _ = some first from found)
      have same := only place first at_ firstName
      subst same
      exact at_.symm.trans there

theorem member_cost_holds {member : Member} {cost : Nat}
    (distinct : (zip.filterMap Member.name).Nodup) (indexed : Indexed archive.sections archive.sections.length archive.byName)
    (there : member ∈ zip) (has : member.name = some name) (needs : needsDigest name = true)
    (holds : MemberHolds prims archive zip name cost) : cost = memberCost archive.sections member := by
  obtain ⟨part, stream, found, opened, _, _, rfl⟩ := holds.holds
  rw [by_name_unique distinct there has, Option.bind_some] at opened
  have once := named_once_named _ (section_named_once archive name part indexed found)
  simp only [memberCost, has, opened, if_pos needs, once, Option.elim_some]

theorem member_costs (archive : Archive) (zip sub : Zip) (costs : List Nat)
    (distinct : (zip.filterMap Member.name).Nodup) (indexed : Indexed archive.sections archive.sections.length archive.byName)
    (inside : ∀ member ∈ sub, member ∈ zip)
    (holds : List.Forall₂ (MemberHolds prims archive zip) ((sub.filterMap Member.name).filter needsDigest) costs) :
    costs.sum = (sub.map (memberCost archive.sections)).sum := by
  induction sub generalizing costs with
  | nil =>
      cases holds
      rfl
  | cons member rest ih =>
      have restInside : ∀ other ∈ rest, other ∈ zip := fun other there => inside other (List.mem_cons_of_mem _ there)
      rw [List.map_cons, List.sum_cons]
      cases has : member.name with
      | none =>
          rw [List.filterMap_cons_none has] at holds
          have free : memberCost archive.sections member = 0 := by simp only [memberCost, has]
          rw [free, Nat.zero_add, ih costs restInside holds]
      | some name =>
          rw [List.filterMap_cons_some has] at holds
          by_cases needs : needsDigest name = true
          · rw [List.filter_cons_of_pos needs] at holds
            cases holds with
            | cons one others =>
                rw [List.sum_cons, ih _ restInside others,
                  member_cost_holds prims distinct indexed (inside member List.mem_cons_self) has needs one]
          · rw [List.filter_cons_of_neg needs] at holds
            have free : memberCost archive.sections member = 0 := by
              simp only [memberCost, has]
              cases member.entry with
              | none => rfl
              | some stream => exact if_neg needs
            rw [free, Nat.zero_add, ih costs restInside holds]

theorem entry_costs {costs : List Nat} (indexed : Indexed archive.sections archive.sections.length archive.byName)
    (holds : List.Forall₂ (EntryHolds prims archive) entries costs) :
    costs.sum = (entries.map (entryCost archive.sections archive.manifest)).sum := by
  induction holds with
  | nil => rfl
  | cons one _ ih =>
      obtain ⟨name, part, raw, has, found, range, _, rfl⟩ := one.holds
      have once := named_once_named _ (section_named_once archive name part indexed found)
      rw [List.sum_cons, List.map_cons, List.sum_cons, ih]
      simp only [entryCost, has, once, Option.bind_some, range, Option.elim_some]

theorem binds_bound {signatureFile : List UInt8}
    (short : archive.manifest.length ≤ maxManifestBytes) (done : archive.binds prims signatureFile budget = (.bound, left)) :
    ∃ entries, sections signatureFile = some entries ∧
      (∀ name ∈ archive.needed, ∃ entry ∈ entries.drop 1, entry.name = some name) ∧
      ((∃ part, entries.head? = some part ∧ Promises prims part digestManifestSuffix archive.manifest ∧
          left + algorithms part digestManifestSuffix * archive.manifest.length = budget) ∨
        ∃ costs : List Nat, List.Forall₂ (EntryHolds prims archive) (entries.drop 1) costs ∧ left + costs.sum ≤ budget) := by
  unfold Archive.binds at done
  cases split_ : sections signatureFile with
  | none => simp only [split_] at done; cases done
  | some entries =>
      simp only [split_] at done
      cases names : listNames (entries.drop 1) [] with
      | none => simp only [names] at done; cases done
      | some listed =>
          simp only [names] at done
          cases checked : archive.bindsManifest prims entries.head? (entries.drop 1) budget with
          | mk outcome paid =>
              simp only [checked] at done
              cases outcome with
              | broken why => cases done
              | unverifiable reason => cases done
              | bound =>
                  by_cases missing : (archive.needed.any fun name => !listed.contains name) = true
                  · simp only [if_pos missing] at done
                    cases done
                  · simp only [if_neg missing] at done
                    obtain ⟨_, rfl⟩ := Prod.mk.inj done
                    refine ⟨entries, rfl, fun name needs => ?_, binds_manifest_bound prims short checked⟩
                    have inside : name ∈ listed := by
                      by_cases there : name ∈ listed
                      · exact there
                      · exact absurd (List.any_eq_true.mpr ⟨name, needs, by simpa using there⟩) missing
                    rcases list_names_listed _ [] listed name names inside with before | found
                    · cases before
                    · exact found

theorem read_error {why : Binding} (done : Archive.read prims zip budget = (.error why, left)) : why ≠ .bound := by
  unfold Archive.read at done
  split at done
  · cases done
    exact Binding.noConfusion
  · split at done
    · cases done
      exact Binding.noConfusion
    · cases done
      exact Binding.noConfusion
    · cases done
      exact Binding.noConfusion
    · next manifest _ =>
        cases split_ : sections manifest with
        | none =>
            simp only [split_] at done
            cases done
            exact Binding.noConfusion
        | some all =>
            simp only [split_] at done
            split at done
            · cases done
              exact Binding.noConfusion
            · cases done

-- Between calls a verifier either has not read the archive and spent nothing, or keeps what reading it gave.
def Kept (prims : Primitives) (zip : Zip) (budget : Nat) (verifier : Verifier) : Prop :=
  verifier = Verifier.new budget ∨
    ∃ left, verifier.archive = some (Archive.read prims zip budget).1 ∧ (Archive.read prims zip budget).2 = left ∧
      verifier.budget ≤ left

theorem check_entries_budget (archive : Archive) (entries : List Section) (budget : Nat) :
    (archive.checkEntries prims entries budget).2 ≤ budget := by
  induction entries generalizing budget with
  | nil => exact Nat.le_refl _
  | cons entry rest ih =>
      simp only [Archive.checkEntries]
      cases (entry.name.bind archive.section).bind fun part => part.raw archive.manifest with
      | none => exact Nat.le_refl _
      | some raw =>
          have spent := check_budget prims entry digestSuffix raw budget
          simp only
          cases checked : check prims entry digestSuffix raw budget with
          | mk outcome paid =>
              rw [checked] at spent
              cases outcome with
              | matching => exact Nat.le_trans (ih paid) spent
              | absent => exact spent
              | mismatch => exact spent
              | overBudget => exact spent

theorem binds_budget (archive : Archive) (signatureFile : List UInt8) (budget : Nat) :
    (archive.binds prims signatureFile budget).2 ≤ budget := by
  have manifest : ∀ main entries, (archive.bindsManifest prims main entries budget).2 ≤ budget := by
    intro main entries
    cases main with
    | none => exact check_entries_budget prims archive entries budget
    | some part =>
        have spent := check_budget prims part digestManifestSuffix archive.manifest budget
        unfold Archive.bindsManifest
        simp only
        cases checked : check prims part digestManifestSuffix archive.manifest budget with
        | mk outcome paid =>
            rw [checked] at spent
            cases outcome with
            | matching => exact spent
            | overBudget => exact spent
            | absent => exact Nat.le_trans (check_entries_budget prims archive entries paid) spent
            | mismatch => exact Nat.le_trans (check_entries_budget prims archive entries paid) spent
  unfold Archive.binds
  cases sections signatureFile with
  | none => exact Nat.le_refl _
  | some entries =>
      simp only
      cases listNames (entries.drop 1) [] with
      | none => exact Nat.le_refl _
      | some listed =>
          have spent := manifest entries.head? (entries.drop 1)
          simp only
          cases checked : archive.bindsManifest prims entries.head? (entries.drop 1) budget with
          | mk outcome paid =>
              rw [checked] at spent
              cases outcome with
              | broken why => exact spent
              | unverifiable reason => exact spent
              | bound =>
                  simp only
                  split
                  · exact spent
                  · exact spent

variable (signatureFile : List UInt8)

theorem bind_answers (kept : Kept prims zip budget verifier) : ∃ paid, paid ≤ (Archive.read prims zip budget).2 ∧
      verifier.bind prims zip signatureFile =
        (⟨paid, some (Archive.read prims zip budget).1⟩ : Verifier).bind prims zip signatureFile := by
  rcases kept with rfl | ⟨left, has, rfl, least⟩
  · exact ⟨(Archive.read prims zip budget).2, Nat.le_refl _, rfl⟩
  · exact ⟨verifier.budget, least, by rw [← has]⟩

theorem bind_kept
    (kept : Kept prims zip budget verifier) : Kept prims zip budget (verifier.bind prims zip signatureFile).2 := by
  obtain ⟨paid, least, same⟩ := bind_answers prims signatureFile kept
  refine Or.inr ⟨_, ?_, rfl, ?_⟩
  · rw [same]
    unfold Verifier.bind
    simp only
    cases (Archive.read prims zip budget).1 with
    | error why => rfl
    | ok archive =>
        simp only
        cases archive.binds prims signatureFile paid with
        | mk outcome left => cases outcome <;> rfl
  · rw [same]
    unfold Verifier.bind
    simp only
    cases (Archive.read prims zip budget).1 with
    | error why => exact least
    | ok archive =>
        have spent := binds_budget prims archive signatureFile paid
        simp only
        cases checked : archive.binds prims signatureFile paid with
        | mk outcome left =>
            rw [checked] at spent
            cases outcome <;> exact Nat.le_trans spent least

theorem calls_kept (zip : Zip) (budget : Nat) (earlier : List (List UInt8)) (verifier : Verifier)
    (kept : Kept prims zip budget verifier) :
    Kept prims zip budget (earlier.foldl (fun verifier file => (verifier.bind prims zip file).2) verifier) := by
  induction earlier generalizing verifier with
  | nil => exact kept
  | cons file rest ih => exact ih _ (bind_kept prims file kept)

theorem forall₂_left {α β : Type} {rel : α → β → Prop} (left : List α) (right : List β) (all : List.Forall₂ rel left right)
    (one : α) (member : one ∈ left) : ∃ other, rel one other := by
  induction all with
  | nil => cases member
  | cons first _ ih =>
      rcases List.mem_cons.mp member with rfl | inside
      · exact ⟨_, first⟩
      · exact ih inside

theorem holds_covers (zip : Zip) (archive : Archive) (all entries : List Section) (costs : List Nat)
    (from_ : ReadFrom prims zip archive all)
    (listed : ∀ name ∈ archive.needed, ∃ entry ∈ entries.drop 1, entry.name = some name)
    (holds : List.Forall₂ (MemberHolds prims archive zip) ((zip.filterMap Member.name).filter needsDigest) costs)
    (member : Member) (there : member ∈ zip) (name : List UInt8) (has : member.name = some name)
    (file : ¬ Directory name) (unsigned : ¬ SigningFile name) :
    ∃ stream part entry, member.entry = some stream ∧ stream.complete = true ∧ NamedOnce (all.drop 1) name part ∧
      Promises prims part digestSuffix stream.content ∧ entry ∈ entries.drop 1 ∧ entry.name = some name := by
  have needed : name ∈ (zip.filterMap Member.name).filter needsDigest :=
    List.mem_filter.mpr ⟨List.mem_filterMap.mpr ⟨member, there, has⟩, needs_digest name file unsigned⟩
  obtain ⟨cost, one⟩ := forall₂_left _ _ holds name needed
  obtain ⟨part, stream, found, opened, whole, promised, _⟩ := one.holds
  rw [by_name_unique from_.distinct there has, Option.bind_some] at opened
  obtain ⟨entry, inside, named⟩ := listed name (from_.needed ▸ needed)
  have once := section_named_once archive name part from_.indexed found
  rw [from_.parts] at once
  exact ⟨stream, part, entry, opened, whole, once, promised, inside, named⟩

theorem bound_covers (prims : Primitives) (zip : Zip) (budget : Nat) (earlier : List (List UInt8)) (signatureFile : List UInt8)
    (after : Verifier)
    (verdict : (earlier.foldl (fun verifier file => (verifier.bind prims zip file).2) (Verifier.new budget)).bind prims zip
      signatureFile = (.bound, after)) :
    ∃ manifest parts entries, sections signatureFile = some entries ∧
      Covers prims zip manifest parts entries budget after.budget := by
  have kept := calls_kept prims zip budget earlier (Verifier.new budget) (Or.inl rfl)
  obtain ⟨paid, least, same⟩ := bind_answers prims signatureFile kept
  rw [same] at verdict
  cases readEq : Archive.read prims zip budget with
  | mk outcome spent =>
      rw [readEq] at verdict least
      unfold Verifier.bind at verdict
      simp only at verdict least
      cases outcome with
      | error why => exact absurd (Prod.mk.inj verdict).1 (read_error prims readEq)
      | ok archive =>
          obtain ⟨all, from_, memberCosts⟩ := read_from prims readEq
          have short := read_member_length prims from_.manifest
          cases checked : archive.binds prims signatureFile paid with
          | mk outcome left =>
              simp only [checked] at verdict
              cases outcome with
              | broken why => cases verdict
              | unverifiable reason => cases verdict
              | bound =>
                  obtain ⟨bound, rfl⟩ := Prod.mk.inj verdict
                  obtain ⟨costs, holds, total⟩ := memberCosts bound
                  obtain ⟨entries, split_, listed, signed⟩ := binds_bound prims short checked
                  refine ⟨archive.manifest, all, entries, split_, ?_⟩
                  rw [from_.needed] at holds
                  have sum := member_costs prims archive zip zip costs from_.distinct from_.indexed (fun _ there => there) holds
                  have once := fun name part => section_named_once archive name part from_.indexed
                  have covered := holds_covers prims zip archive all entries costs from_ listed holds
                  rw [from_.parts] at sum once
                  refine ⟨from_.distinct, from_.manifest, from_.split, covered, ?_⟩
                  rcases signed with ⟨part, main, promised, cost⟩ | ⟨entryCosts, all_, cost⟩
                  · exact Or.inl ⟨part, main, promised, by simp only; omega⟩
                  · have entrySum := entry_costs prims from_.indexed all_
                    rw [from_.parts] at entrySum
                    refine Or.inr ⟨fun entry member => ?_, by simp only; omega⟩
                    obtain ⟨cost, one⟩ := forall₂_left _ _ all_ entry member
                    obtain ⟨name, part, raw, has, found, range, promised, _⟩ := one.holds
                    exact ⟨name, part, raw, has, once name part found, range, promised⟩

-- A verifier that has refused one signature file still finds bound the one that covers the archive. The primitives agree
-- with SHA-256 and base64 on what is hashed and decoded here.
def sampleManifest : List UInt8 :=
  ascii "Manifest-Version: 1.0\r\n\r\nName: a\r\nSHA-256-Digest: Om6weQ85rIfJTzhWst0sXREOaBFgImGpqSPTuyOtyLc=\r\n\r\n"

def sampleSignatureFile : List UInt8 :=
  ascii "Signature-Version: 1.0\r\nSHA-256-Digest-Manifest: ZR4NtAELvq5CF8YXB6ndDM5jGTQAuIvC3KYyQDB68Mo=\r\n\r\nName: a\r\n\r\n"

def dataDigest : List UInt8 :=
  [58, 110, 176, 121, 15, 57, 172, 135, 201, 79, 56, 86, 178, 221, 44, 93,
    17, 14, 104, 17, 96, 34, 97, 169, 169, 35, 211, 187, 35, 173, 200, 183]

def manifestDigest : List UInt8 :=
  [101, 30, 13, 180, 1, 11, 190, 174, 66, 23, 198, 23, 7, 169, 221, 12,
    206, 99, 25, 52, 0, 184, 139, 194, 220, 166, 50, 64, 48, 122, 240, 202]

def samplePrimitives : Primitives where
  digest alg bytes := if alg = .sha256 ∧ bytes = ascii "data" then dataDigest else if bytes = sampleManifest then manifestDigest else []
  base64 text :=
    if text = ascii "Om6weQ85rIfJTzhWst0sXREOaBFgImGpqSPTuyOtyLc=" then some dataDigest
    else if text = ascii "ZR4NtAELvq5CF8YXB6ndDM5jGTQAuIvC3KYyQDB68Mo=" then some manifestDigest
    else none
  crc32 _ := 0

def sampleStream (pieces : List (List UInt8)) (sized : ∀ piece ∈ pieces, 0 < piece.length ∧ piece.length ≤ chunkBytes) : Stream :=
  ⟨pieces, true, sized⟩

def sampleZip : Zip :=
  [⟨some (ascii "a"), true, false, 4, 0, none, some (sampleStream [ascii "da", ascii "ta"] (by decide +kernel))⟩,
    ⟨some manifestName, true, false, 98, 0, none, some (sampleStream [sampleManifest] (by decide +kernel))⟩]

theorem bound_covers_second_call :
    ∃ manifest parts entries, sections sampleSignatureFile = some entries ∧
      Covers samplePrimitives sampleZip manifest parts entries 150 48 :=
  bound_covers samplePrimitives sampleZip 150 [ascii "Name: a\r\n\r\n"] sampleSignatureFile
    ⟨48, some (Archive.read samplePrimitives sampleZip 150).1⟩ (by decide +kernel)

end Filefacts.Apk
