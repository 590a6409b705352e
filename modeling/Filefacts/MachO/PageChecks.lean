import Filefacts.MachO.CodeDirectory

set_option autoImplicit false

namespace Filefacts.Macho

open Bytes (checkedAdd checkedMul checkedSub divCeil)

theorem get_front {bytes : List UInt8} {stop : Nat} (inside : stop ≤ bytes.length) : Bytes.get bytes 0 stop = some (bytes.take stop) := by
  simp [Bytes.get, inside]

variable (hashes : Hashes)

variable {digest : List UInt8} {size : Nat}

theorem slot_digest_total {hashType : Nat} {data : List UInt8} (data' : List UInt8)
    (known : slotDigest hashes hashType data = some (digest, size)) : ∃ digest', slotDigest hashes hashType data' = some (digest', size) := by
  unfold slotDigest at known ⊢
  split_ifs at known ⊢ <;> simp_all

-- What a CodeDirectory's check needs of it before it looks at any hash.
def Checkable (hashes : Hashes) (cd : CdSlots) (pageSize : Option Nat) : Prop :=
  (∃ digest, slotDigest hashes cd.hashType [] = some (digest, cd.hashSize)) ∧ pageSizeOf cd.pageSizeLog2 = some pageSize

section Memo

variable (hashes : Hashes) (image : List UInt8)

def Sound (memo : PageDigests) : Prop :=
  ∀ known ∈ memo, ∀ pageSize, pageSizeOf known.1.2.1 = some pageSize →
    computeDigests hashes image known.1.1 known.1.2.2 pageSize = some known.2

theorem page_digests_fresh (cd : CdSlots) (pageSize : Option Nat) (memo : PageDigests) (sized : pageSizeOf cd.pageSizeLog2 = some pageSize)
    (sound : Sound hashes image memo) :
    (pageDigests hashes cd pageSize image memo).1 = computeDigests hashes image cd.hashType cd.codeLimit pageSize ∧
      Sound hashes image (pageDigests hashes cd pageSize image memo).2 := by
  unfold pageDigests
  simp only
  cases found : memo.find? fun known => known.1 == (cd.hashType, cd.pageSizeLog2, cd.codeLimit) with
  | some known =>
      have key : known.1 = (cd.hashType, cd.pageSizeLog2, cd.codeLimit) := by simpa using List.find?_some found
      have digests := sound known (List.mem_of_find?_eq_some found) pageSize (by rw [key]; exact sized)
      rw [key] at digests
      exact ⟨digests.symm, sound⟩
  | none =>
      cases computed : computeDigests hashes image cd.hashType cd.codeLimit pageSize with
      | none => exact ⟨rfl, sound⟩
      | some pages =>
          refine ⟨rfl, fun known member size sizedToo => ?_⟩
          rcases List.mem_append.mp member with earlier | last
          · exact sound known earlier size sizedToo
          · obtain rfl : known = ((cd.hashType, cd.pageSizeLog2, cd.codeLimit), pages) := by simpa using last
            obtain rfl := Option.some.inj (sized.symm.trans sizedToo)
            exact computed

end Memo

def pagesCheck (hashes : Hashes) (cd : CdSlots) (image : List UInt8) : Option CdCheck :=
  (slotDigest hashes cd.hashType []).bind fun (_, digestLen) =>
    if cd.hashSize ≠ digestLen then none
    else
      (pageSizeOf cd.pageSizeLog2).bind fun pageSize =>
        let check : CdCheck := { pagesOk := covers cd pageSize image, mismatchedPages := 0, firstMismatch := none, specialOk := none }
        if covers cd pageSize image then
          (computeDigests hashes image cd.hashType cd.codeLimit pageSize).bind fun digests =>
            comparePages cd (pageSize.getD cd.codeLimit) 0 digests check
        else some check

variable (cd : CdSlots) (image : List UInt8) (page : Nat) (pageSize : Option Nat)

variable (entries : List BlobEntry) (check : CdCheck) (code : List UInt8) (items : List (List UInt8))

theorem check_code_directory_memo (memo : PageDigests) (sound : Sound hashes image memo) :
    (checkCodeDirectory hashes cd image entries memo).1 = (pagesCheck hashes cd image).bind (checkSpecial hashes cd entries) ∧
      Sound hashes image (checkCodeDirectory hashes cd image entries memo).2 := by
  unfold checkCodeDirectory pagesCheck
  cases slotDigest hashes cd.hashType [] with
  | none => exact ⟨rfl, sound⟩
  | some known =>
      obtain ⟨digest, digestLen⟩ := known
      simp only [Option.bind_some]
      by_cases wrong : cd.hashSize ≠ digestLen
      · simp only [if_pos wrong]
        exact ⟨rfl, sound⟩
      · simp only [if_neg wrong]
        cases sized : pageSizeOf cd.pageSizeLog2 with
        | none => exact ⟨rfl, sound⟩
        | some pageSize =>
            simp only [Option.bind_some]
            by_cases covered : covers cd pageSize image = true
            · simp only [covered, if_true]
              have fresh := page_digests_fresh hashes image cd pageSize memo sized sound
              rcases digested : pageDigests hashes cd pageSize image memo with ⟨digests, after⟩
              rw [digested] at fresh
              cases digests with
              | none => exact ⟨by simp [← fresh.1], fresh.2⟩
              | some digests => exact ⟨by simp [← fresh.1], fresh.2⟩
            · simp only [if_neg covered]
              exact ⟨rfl, sound⟩

theorem binds_blob_total (entry : BlobEntry) (digest : List UInt8) (size : Nat)
    (known : slotDigest hashes cd.hashType [] = some (digest, size)) : ∃ bound, bindsBlob hashes cd entry = some bound := by
  obtain ⟨_, computed⟩ := slot_digest_total hashes entry.blob known
  unfold bindsBlob
  split
  · exact ⟨false, rfl⟩
  · exact ⟨_, by rw [computed]; rfl⟩

def specialEntries (entries : List BlobEntry) : List BlobEntry := entries.filter isSpecial

theorem check_special_spec (known : slotDigest hashes cd.hashType [] = some (digest, size)) :
    ∃ specialOk, checkSpecial hashes cd entries check = some { check with specialOk } ∧
      (specialOk = some true → check.specialOk.getD true = true ∧
        ∀ entry ∈ specialEntries entries, bindsBlob hashes cd entry = some true) ∧
      (specialOk = none → check.specialOk = none ∧ specialEntries entries = []) := by
  induction entries generalizing check with
  | nil => exact ⟨check.specialOk, rfl, fun verified => ⟨by simp [verified], by simp [specialEntries]⟩, fun absent => ⟨absent, rfl⟩⟩
  | cons entry entries ih =>
      by_cases special : isSpecial entry = true
      · obtain ⟨bound, binds⟩ := binds_blob_total hashes cd entry digest size known
        obtain ⟨specialOk, checked, all, none⟩ := ih { check with specialOk := some (check.specialOk.getD true && bound) }
        refine ⟨specialOk, by simp only [checkSpecial, if_pos special, binds, checked], fun verified => ?_, fun absent => ?_⟩
        · obtain ⟨before, rest⟩ := all verified
          simp only [Option.getD_some, Bool.and_eq_true] at before
          refine ⟨before.1, ?_⟩
          rw [specialEntries, List.filter_cons_of_pos special]
          exact List.forall_mem_cons.mpr ⟨by rw [binds, before.2], rest⟩
        · cases (none absent).1
      · obtain ⟨specialOk, checked, all, none⟩ := ih check
        rw [specialEntries, List.filter_cons_of_neg special]
        exact ⟨specialOk, by simp only [checkSpecial, if_neg special, checked], all, none⟩

theorem compare_pages_ok (i : Nat) (digests : List (List UInt8)) (check after : CdCheck)
    (compared : comparePages cd page i digests check = some after) (ok : after.pagesOk = true) :
    check.pagesOk = true ∧ ∀ j digest, digests[j]? = some digest →
      ∃ stored, cd.slot ((i + j : Nat) : Int) = some stored ∧ Bytes.get digest 0 cd.hashSize = some stored := by
  induction digests generalizing i check with
  | nil =>
      obtain rfl := Option.some.inj compared
      exact ⟨ok, by simp⟩
  | cons digest digests ih =>
      simp only [comparePages] at compared
      cases stored : cd.slot i with
      | none => simp [stored] at compared
      | some hash =>
          simp only [stored] at compared
          by_cases same : Bytes.get digest 0 cd.hashSize = some hash
          · rw [if_pos same] at compared
            obtain ⟨before, rest⟩ := ih (i + 1) check compared
            refine ⟨before, fun j other at_ => ?_⟩
            cases j with
            | zero =>
                obtain rfl : digest = other := by simpa using at_
                exact ⟨hash, stored, same⟩
            | succ j =>
                have there := rest j other (by simpa using at_)
                rwa [show i + 1 + j = i + (j + 1) by omega] at there
          · rw [if_neg same] at compared
            exact absurd (ih (i + 1) _ compared).1 (by simp [CdCheck.mismatch])

theorem covers_slot (image : List UInt8) (covered : covers cd pageSize image = true)
    (i : Nat) (declared : i < cd.nCodeSlots) : ∃ stored, cd.slot (i : Int) = some stored := by
  simp only [covers, Bool.and_eq_true, Option.any_eq_true, Option.bind_eq_some_iff, decide_eq_true_eq] at covered
  obtain ⟨_, stop, ⟨above, product, sum⟩, inside⟩ := covered
  simp only [checkedMul, checkedAdd, Option.ite_none_right_eq_some, Option.some.injEq] at product sum
  obtain ⟨_, rfl⟩ := product
  obtain ⟨small, rfl⟩ := sum
  have through : (i + 1) * cd.hashSize ≤ cd.nCodeSlots * cd.hashSize := Nat.mul_le_mul_right _ declared
  rw [Nat.succ_mul] at through
  refine ⟨((cd.blob.drop (cd.hashOffset + i * cd.hashSize)).take cd.hashSize), ?_⟩
  simp only [CdSlots.slot, checkedMul, checkedAdd, Int.natAbs_natCast, Int.natCast_nonneg, ge_iff_le, if_true, Option.bind_eq_bind]
  rw [if_pos (by omega), Option.bind_some, if_pos (by omega), Option.bind_some, if_pos (by omega), Option.bind_some, Bytes.get,
    if_pos (by omega), Nat.add_sub_cancel_left]

theorem chunks_length : (chunks page code).length = divCeil code.length page := by
  simp [chunks]

theorem pages_of_length (positive : ∀ page, pageSize = some page → 0 < page) :
    (pagesOf pageSize code).length = expectedSlots pageSize code.length := by
  rw [pagesOf, chunks_length]
  cases pageSize with
  | none =>
      by_cases empty : code.length > 0
      · rw [expectedSlots, if_pos empty, Option.getD_none, Nat.max_eq_left empty, divCeil, Nat.div_eq_of_lt_le] <;> omega
      · simp [expectedSlots, divCeil, show code.length = 0 by omega]
  | some page => rw [expectedSlots, Option.getD_some, Nat.max_eq_left (positive page rfl)]

theorem compare_pages_total (i : Nat) (digests : List (List UInt8)) (check : CdCheck)
    (slots : ∀ j, i ≤ j → j < i + digests.length → ∃ stored, cd.slot (j : Int) = some stored) :
    ∃ after, comparePages cd page i digests check = some after ∧ after.specialOk = check.specialOk := by
  induction digests generalizing i check with
  | nil => exact ⟨check, rfl, rfl⟩
  | cons digest digests ih =>
      obtain ⟨stored, there⟩ := slots i le_rfl (by simp)
      have rest := fun check => ih (i + 1) check fun j low high => slots j (by omega) (by simp only [List.length_cons]; omega)
      by_cases same : Bytes.get digest 0 cd.hashSize = some stored
      · obtain ⟨after, compared, special⟩ := rest check
        exact ⟨after, by simp only [comparePages, there, if_pos same, compared], special⟩
      · obtain ⟨after, compared, special⟩ := rest (check.mismatch (Bytes.saturatingMul i page))
        exact ⟨after, by simp only [comparePages, there, if_neg same, compared], special⟩

theorem mapm_length (f : List UInt8 → Option (List UInt8)) (results : List (List UInt8))
    (mapped : items.mapM f = some results) : results.length = items.length := by
  induction items generalizing results with
  | nil =>
      obtain rfl : [] = results := by simpa using mapped
      rfl
  | cons item items ih =>
      simp only [List.mapM_cons, Option.bind_eq_bind, Option.bind_eq_some_iff, Option.pure_def, Option.some.injEq] at mapped
      obtain ⟨first, _, rest, mappedRest, rfl⟩ := mapped
      simp [ih rest mappedRest]

theorem mapm_get (f : List UInt8 → Option (List UInt8)) (results : List (List UInt8))
    (mapped : items.mapM f = some results) (i : Nat) (item : List UInt8) (there : items[i]? = some item) :
    ∃ result, f item = some result ∧ results[i]? = some result := by
  induction items generalizing results i with
  | nil => simp at there
  | cons head items ih =>
      simp only [List.mapM_cons, Option.bind_eq_bind, Option.bind_eq_some_iff, Option.pure_def, Option.some.injEq] at mapped
      obtain ⟨first, computed, rest, mappedRest, rfl⟩ := mapped
      cases i with
      | zero =>
          obtain rfl : head = item := by simpa using there
          exact ⟨first, computed, rfl⟩
      | succ i => exact ih rest mappedRest i (by simpa using there)

variable {log2 : Nat}

theorem page_size_positive {pageSize : Option Nat} (sized : pageSizeOf log2 = some pageSize) :
    ∀ page, pageSize = some page → page = 2 ^ log2 ∧ 0 < page := by
  rintro page rfl
  unfold pageSizeOf at sized
  split at sized
  · cases sized
  · split at sized
    · obtain rfl : 1 <<< log2 = page := by simpa using sized
      rw [Nat.one_shiftLeft]
      exact ⟨rfl, Nat.two_pow_pos log2⟩
    · cases sized

def imagePages (log2 : Nat) (code : List UInt8) : List (List UInt8) :=
  if log2 = 0 then (if code = [] then [] else [code]) else chunks (2 ^ log2) code

theorem pages_of_image {pageSize : Option Nat} (code : List UInt8) (sized : pageSizeOf log2 = some pageSize) :
    pagesOf pageSize code = imagePages log2 code := by
  unfold imagePages
  cases pageSize with
  | some page =>
      obtain ⟨power, positive⟩ := page_size_positive sized page rfl
      have nonzero : log2 ≠ 0 := by
        rintro rfl
        simp [pageSizeOf] at sized
      rw [if_neg nonzero, pagesOf, Option.getD_some, Nat.max_eq_left positive, power]
  | none =>
      have zero : log2 = 0 := by
        unfold pageSizeOf at sized
        split at sized
        · assumption
        · split at sized <;> cases sized
      rw [if_pos zero, pagesOf, Option.getD_none]
      split
      · next empty => simp [empty, chunks, divCeil]
      · next nonempty =>
          have positive := List.length_pos_iff.mpr nonempty
          have one : divCeil code.length code.length = 1 := by
            rw [divCeil, Nat.div_eq_of_lt_le] <;> omega
          simp [Nat.max_eq_left positive, chunks, one]

structure PagesHold (hashes : Hashes) (image : List UInt8) (cd : CdSlots) : Prop where
  checkable : ∃ pageSize, Checkable hashes cd pageSize
  inside : cd.codeLimit ≤ image.length
  slots : cd.nCodeSlots = (imagePages cd.pageSizeLog2 (image.take cd.codeLimit)).length
  pages : ∀ (i : Nat) (page : List UInt8), (imagePages cd.pageSizeLog2 (image.take cd.codeLimit))[i]? = some page →
    ∃ digest size stored, slotDigest hashes cd.hashType page = some (digest, size) ∧ cd.slot (i : Int) = some stored ∧
      Bytes.get digest 0 cd.hashSize = some stored

theorem covers_limits (image : List UInt8) (covered : covers cd pageSize image = true) :
    cd.codeLimit ≤ image.length ∧ cd.nCodeSlots = expectedSlots pageSize cd.codeLimit := by
  simp only [covers, Bool.and_eq_true, decide_eq_true_eq, beq_iff_eq] at covered
  exact ⟨covered.1.1.1, covered.1.1.2⟩

theorem compute_digests_total (image : List UInt8)
    (checkable : Checkable hashes cd pageSize) (inside : cd.codeLimit ≤ image.length) :
    ∃ digests, computeDigests hashes image cd.hashType cd.codeLimit pageSize = some digests := by
  obtain ⟨⟨digest, known⟩, _⟩ := checkable
  rw [computeDigests, get_front inside, Option.bind_some]
  induction pagesOf pageSize (image.take cd.codeLimit) with
  | nil => exact ⟨[], rfl⟩
  | cons page pages ih =>
      obtain ⟨rest, mapped⟩ := ih
      obtain ⟨first, computed⟩ := slot_digest_total hashes page known
      exact ⟨first :: rest, by simp [List.mapM_cons, mapped, computed]⟩

theorem pages_check_eq (image : List UInt8) (checkable : Checkable hashes cd pageSize) : pagesCheck hashes cd image =
      if covers cd pageSize image then
        (computeDigests hashes image cd.hashType cd.codeLimit pageSize).bind fun digests =>
          comparePages cd (pageSize.getD cd.codeLimit) 0 digests ⟨true, 0, none, none⟩
      else some ⟨false, 0, none, none⟩ := by
  obtain ⟨⟨digest, known⟩, sized⟩ := checkable
  unfold pagesCheck
  rw [known, Option.bind_some, sized]
  simp only [ne_eq, not_true_eq_false, if_false, Option.bind_some]
  cases covers cd pageSize image <;> rfl

theorem pages_check_checkable
    (checked : pagesCheck hashes cd image = some check) : ∃ pageSize, Checkable hashes cd pageSize := by
  simp only [pagesCheck, Option.bind_eq_some_iff] at checked
  obtain ⟨⟨digest, digestLen⟩, known, rest⟩ := checked
  split at rest
  · cases rest
  · next same =>
      obtain ⟨pageSize, sized, _⟩ := Option.bind_eq_some_iff.mp rest
      have size : cd.hashSize = digestLen := not_not.mp same
      rw [← size] at known
      exact ⟨pageSize, ⟨digest, known⟩, sized⟩

theorem pages_check_total (image : List UInt8)
    (checkable : Checkable hashes cd pageSize) : ∃ check, pagesCheck hashes cd image = some check ∧ check.specialOk = none := by
  rw [pages_check_eq hashes cd pageSize image checkable]
  split
  · next covered =>
      obtain ⟨inside, count⟩ := covers_limits cd pageSize image covered
      obtain ⟨digests, computed⟩ := compute_digests_total hashes cd pageSize image checkable inside
      rw [computed, Option.bind_some]
      refine compare_pages_total cd _ 0 digests ⟨true, 0, none, none⟩ fun j _ high => covers_slot cd pageSize image covered j ?_
      rw [computeDigests, get_front inside, Option.bind_some] at computed
      have positive := fun page isSome => (page_size_positive checkable.2 page isSome).2
      rw [mapm_length _ _ _ computed, pages_of_length pageSize _ positive, List.length_take, Nat.min_eq_left inside, ← count] at high
      omega
  · exact ⟨_, rfl, rfl⟩

theorem pages_check_holds (check : CdCheck)
    (checked : pagesCheck hashes cd image = some check) (ok : check.pagesOk = true) : PagesHold hashes image cd := by
  obtain ⟨pageSize, checkable⟩ := pages_check_checkable hashes cd image check checked
  rw [pages_check_eq hashes cd pageSize image checkable] at checked
  split at checked
  · next covered =>
      obtain ⟨inside, count⟩ := covers_limits cd pageSize image covered
      obtain ⟨digests, computed, compared⟩ := Option.bind_eq_some_iff.mp checked
      obtain ⟨_, same⟩ := compare_pages_ok cd _ 0 digests _ check compared ok
      have positive := fun page isSome => (page_size_positive checkable.2 page isSome).2
      have length := pages_of_length pageSize (image.take cd.codeLimit) positive
      rw [computeDigests, get_front inside, Option.bind_some] at computed
      rw [pages_of_image _ checkable.2] at computed length
      rw [List.length_take, Nat.min_eq_left inside, ← count] at length
      refine ⟨⟨pageSize, checkable⟩, inside, length.symm, fun i page there => ?_⟩
      obtain ⟨digest, hashed, at_⟩ := mapm_get _ _ digests computed i page there
      obtain ⟨stored, slot, equal⟩ := same i digest at_
      obtain ⟨⟨_, size⟩, known, rfl⟩ := Option.map_eq_some_iff.mp hashed
      exact ⟨_, size, stored, known, by simpa using slot, equal⟩
  · obtain rfl := Option.some.inj checked
    cases ok

end Filefacts.Macho
