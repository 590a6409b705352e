import Filefacts.MachO.PageChecks
import Filefacts.Lib.FirstCome

set_option autoImplicit false

namespace Filefacts.Macho

def directoryCheck (hashes : Hashes) (image : List UInt8) (entries : List BlobEntry) (blob : List UInt8) : Option CdCheck :=
  (CdSlots.read blob).bind fun cd => (checkCodeDirectory hashes cd image entries []).1

def verdictsAlone (hashes : Hashes) (image : List UInt8) (entries : List BlobEntry) (primary : Option (List UInt8)) : Verdicts :=
  let directories := codeDirectories entries
  if directories.isEmpty then noVerdicts
  else
    let start : Folded :=
      { memo := [], pagesOk := directories.any fun entry => honouredCodeDirectorySlot entry.slot, special := none, mismatch := none }
    let folded := ((honouredDirectories entries).map fun entry => directoryCheck hashes image entries entry.blob).foldl Folded.take start
    { codePagesVerified := some folded.pagesOk
      codePageMismatches := folded.mismatch.map Prod.fst
      codePageFirstMismatchOffset := folded.mismatch.bind Prod.snd
      specialSlotsVerified := folded.special
      codeDirectoriesConsistent := if directories.length > 1 then some (consistent directories primary) else none }

variable (hashes : Hashes) (image : List UInt8) (entries : List BlobEntry) (blob : List UInt8)
  (checks : List (Option CdCheck)) (primary : Option (List UInt8)) (cd : CdSlots)

theorem sound_nil : Sound hashes image [] := by
  intro known member
  cases member

theorem directory_check_eq : directoryCheck hashes image entries blob =
      (CdSlots.read blob).bind fun cd => (pagesCheck hashes cd image).bind (checkSpecial hashes cd entries) := by
  unfold directoryCheck
  refine congrArg (Option.bind (CdSlots.read blob)) (funext fun cd => ?_)
  exact (check_code_directory_memo hashes cd image entries [] (sound_nil hashes image)).1

variable (folded : Folded) (memo : PageDigests) (embedded : BlobEntry)

theorem take_memo (check : Option CdCheck) : (folded.remember memo).take check = (folded.take check).remember memo := by
  cases check <;> rfl

theorem take_all_memo :
    checks.foldl Folded.take (folded.remember memo) = (checks.foldl Folded.take folded).remember memo := by
  induction checks generalizing folded with
  | nil => rfl
  | cons check checks ih => rw [List.foldl_cons, take_memo, ih, List.foldl_cons]

theorem fold_directory_memo (blob : List UInt8) (sound : Sound hashes image folded.memo) :
    ∃ memo, Sound hashes image memo ∧
      foldDirectory hashes image entries folded blob = (folded.take (directoryCheck hashes image entries blob)).remember memo := by
  rw [directory_check_eq, foldDirectory]
  cases CdSlots.read blob with
  | none => exact ⟨folded.memo, sound, rfl⟩
  | some cd =>
      obtain ⟨same, after⟩ := check_code_directory_memo hashes cd image entries folded.memo sound
      exact ⟨_, after, by rw [Option.bind_some, ← same, ← take_memo]⟩

theorem fold_memo_alone (blobs : List (List UInt8)) (folded : Folded) (sound : Sound hashes image folded.memo) :
    ∃ memo, blobs.foldl (foldDirectory hashes image entries) folded =
      ((blobs.map (directoryCheck hashes image entries)).foldl Folded.take folded).remember memo := by
  induction blobs generalizing folded with
  | nil => exact ⟨folded.memo, rfl⟩
  | cons blob blobs ih =>
      obtain ⟨memo, after, step⟩ := fold_directory_memo hashes image entries folded blob sound
      obtain ⟨final, run⟩ := ih (foldDirectory hashes image entries folded blob) (by rw [step]; exact after)
      refine ⟨final, ?_⟩
      rw [List.foldl_cons, run, step, take_all_memo, List.map_cons, List.foldl_cons]
      rfl

theorem verdicts_alone : checkCodeDirectories hashes image entries primary = verdictsAlone hashes image entries primary := by
  unfold checkCodeDirectories verdictsAlone
  simp only
  split
  · rfl
  · obtain ⟨memo, alone⟩ := fold_memo_alone hashes image entries ((honouredDirectories entries).map BlobEntry.blob)
      ⟨[], (codeDirectories entries).any fun entry => honouredCodeDirectorySlot entry.slot, none, none⟩ (sound_nil hashes image)
    rw [alone, List.map_map]
    rfl

theorem take_all_pages : (checks.foldl Folded.take folded).pagesOk = true ↔
      folded.pagesOk = true ∧ ∀ check ∈ checks, ∃ held, check = some held ∧ held.pagesOk = true := by
  induction checks generalizing folded with
  | nil => simp
  | cons check checks ih =>
      rw [List.foldl_cons, ih, List.forall_mem_cons, ← and_assoc]
      refine and_congr_left fun _ => ?_
      cases check with
      | none => simp [Folded.take]
      | some held => simp [Folded.take]

theorem take_all_special (verified : (checks.foldl Folded.take folded).special = some true) :
    folded.special.getD true = true ∧ ∀ held, some held ∈ checks → held.specialOk.getD true = true := by
  induction checks generalizing folded with
  | nil => exact ⟨by rw [List.foldl_nil] at verified; rw [verified]; rfl, by simp⟩
  | cons check checks ih =>
      obtain ⟨now, later⟩ := ih (folded.take check) verified
      cases check with
      | none => exact ⟨now, by simpa using later⟩
      | some held =>
          have both : folded.special.getD true = true ∧ held.specialOk.getD true = true := by
            cases ok : held.specialOk with
            | none => simpa [Folded.take, ok] using now
            | some ok' => simpa [Folded.take, ok] using now
          refine ⟨both.1, fun other member => ?_⟩
          rcases List.mem_cons.mp member with same | earlier
          · rw [Option.some.inj same]
            exact both.2
          · exact later other earlier

theorem honoured_member (entry : BlobEntry) : entry ∈ honouredDirectories entries ↔
      entry ∈ entries ∧ entry.magic = csmagicCodedirectory ∧ honouredCodeDirectorySlot entry.slot = true := by
  simp [honouredDirectories, codeDirectories, and_comm]

def BlobBound (hashes : Hashes) (cd : CdSlots) (embedded : BlobEntry) : Prop :=
  embedded.slot ≤ cd.nSpecialSlots ∧ ∃ digest size stored, slotDigest hashes cd.hashType embedded.blob = some (digest, size) ∧
    cd.slot (-(embedded.slot : Int)) = some stored ∧ Bytes.get digest 0 cd.hashSize = some stored

theorem binds_blob_bound (binds : bindsBlob hashes cd embedded = some true) : BlobBound hashes cd embedded := by
  unfold bindsBlob at binds
  split at binds
  · cases binds
  · next declared =>
      obtain ⟨⟨digest, size⟩, known, equal⟩ := Option.map_eq_some_iff.mp binds
      obtain ⟨stored, there, same⟩ := (Option.any_eq_true _ _).mp equal
      exact ⟨Nat.le_of_not_lt declared, digest, size, stored, known, there, of_decide_eq_true same⟩

theorem directory_pages_hold (held : CdCheck)
    (checked : directoryCheck hashes image entries blob = some held) (ok : held.pagesOk = true) :
    ∃ cd, CdSlots.read blob = some cd ∧ PagesHold hashes image cd := by
  rw [directory_check_eq] at checked
  obtain ⟨cd, read, rest⟩ := Option.bind_eq_some_iff.mp checked
  obtain ⟨check, pages, special⟩ := Option.bind_eq_some_iff.mp rest
  obtain ⟨pageSize, ⟨digest, known⟩, _⟩ := pages_check_checkable hashes cd image check pages
  obtain ⟨_, specialChecked, _, _⟩ := check_special_spec hashes cd entries check known
  obtain rfl := Option.some.inj (specialChecked.symm.trans special)
  exact ⟨cd, read, pages_check_holds hashes cd image check pages ok⟩

theorem directory_special_bound
    (read : CdSlots.read blob = some cd) (pageSize : Option Nat) (checkable : Checkable hashes cd pageSize) :
    ∃ held, directoryCheck hashes image entries blob = some held ∧
      (held.specialOk.getD true = true → ∀ embedded ∈ specialEntries entries, BlobBound hashes cd embedded) := by
  obtain ⟨check, pages, fresh⟩ := pages_check_total hashes cd pageSize image checkable
  obtain ⟨digest, known⟩ := checkable.1
  obtain ⟨specialOk, checked, all, none⟩ := check_special_spec hashes cd entries check known
  refine ⟨{ check with specialOk }, by rw [directory_check_eq, read, Option.bind_some, pages, Option.bind_some, checked], fun good => ?_⟩
  intro embedded member
  cases specialOk with
  | none =>
      rw [(none rfl).2] at member
      cases member
  | some ok =>
      obtain rfl : ok = true := good
      exact binds_blob_bound hashes cd embedded ((all rfl).2 embedded member)

theorem read_scatter_free (read : CdSlots.read blob = some cd) :
    ∃ version, Bytes.u32be blob 0x08 = some version ∧ scatters blob version = false := by
  obtain ⟨version, there, rest⟩ := Option.bind_eq_some_iff.mp read
  refine ⟨version, there, ?_⟩
  split at rest
  · cases rest
  · next free => exact Bool.eq_false_iff.mpr free

theorem code_pages_verified
    (verified : (checkCodeDirectories hashes image entries primary).codePagesVerified = some true) :
    (∃ entry, entry ∈ honouredDirectories entries) ∧
      ∀ entry ∈ honouredDirectories entries, ∃ cd, CdSlots.read entry.blob = some cd ∧ PagesHold hashes image cd := by
  rw [verdicts_alone, verdictsAlone] at verified
  simp only at verified
  split at verified
  · cases verified
  · obtain ⟨some_, all⟩ := (take_all_pages _ _).mp (Option.some.inj verified)
    constructor
    · obtain ⟨entry, member, honoured⟩ := List.any_eq_true.mp some_
      exact ⟨entry, List.mem_filter.mpr ⟨member, honoured⟩⟩
    · intro entry member
      obtain ⟨held, checked, ok⟩ := all _ (List.mem_map.mpr ⟨entry, member, rfl⟩)
      exact directory_pages_hold hashes image entries entry.blob held checked ok

theorem special_slots_verified
    (verified : (checkCodeDirectories hashes image entries primary).specialSlotsVerified = some true) (entry : BlobEntry)
    (member : entry ∈ honouredDirectories entries) (cd : CdSlots) (read : CdSlots.read entry.blob = some cd) (pageSize : Option Nat)
    (checkable : Checkable hashes cd pageSize) : ∀ embedded ∈ specialEntries entries, BlobBound hashes cd embedded := by
  rw [verdicts_alone, verdictsAlone] at verified
  simp only at verified
  split at verified
  · cases verified
  · obtain ⟨held, checked, bound⟩ := directory_special_bound hashes image entries entry.blob cd read pageSize checkable
    exact bound ((take_all_special _ _ verified).2 held (List.mem_map.mpr ⟨entry, member, checked⟩))

theorem special_entry (member : embedded ∈ entries) (positive : 0 < embedded.slot)
    (below : embedded.slot < csslotAlternateCodedirectories) : embedded ∈ specialEntries entries := by
  refine List.mem_filter.mpr ⟨member, ?_⟩
  simp only [isSpecial, csslotCodedirectory, Bool.not_eq_true', Bool.or_eq_false_iff, beq_eq_false_iff_ne, decide_eq_false_iff_not]
  omega

-- What the verdicts vouch for. Special slots are only compared by those
-- CodeDirectories whose hash type and page size can be checked at all.
theorem verdicts_sound (hashes : Hashes) (image : List UInt8) (entries : List BlobEntry) (primary : Option (List UInt8)) :
    ((checkCodeDirectories hashes image entries primary).codePagesVerified = some true →
      (∃ entry ∈ entries, entry.magic = csmagicCodedirectory ∧ honouredCodeDirectorySlot entry.slot = true) ∧
      ∀ entry ∈ entries, entry.magic = csmagicCodedirectory → honouredCodeDirectorySlot entry.slot = true →
        ∃ cd, CdSlots.read entry.blob = some cd ∧ (∃ version, Bytes.u32be entry.blob 0x08 = some version ∧
          scatters entry.blob version = false) ∧ PagesHold hashes image cd) ∧
    checkCodeDirectories hashes image entries primary = verdictsAlone hashes image entries primary ∧
    ((checkCodeDirectories hashes image entries primary).specialSlotsVerified = some true →
      ∀ entry ∈ entries, entry.magic = csmagicCodedirectory → honouredCodeDirectorySlot entry.slot = true →
        ∀ cd, CdSlots.read entry.blob = some cd → (∃ pageSize, Checkable hashes cd pageSize) →
          ∀ embedded ∈ entries, 0 < embedded.slot → embedded.slot < csslotAlternateCodedirectories → BlobBound hashes cd embedded) := by
  refine ⟨fun verified => ?_, verdicts_alone hashes image entries primary, fun verified => ?_⟩
  · obtain ⟨⟨first, honoured⟩, all⟩ := code_pages_verified hashes image entries primary verified
    refine ⟨⟨first, (honoured_member entries first).mp honoured⟩, fun entry member magic slot => ?_⟩
    obtain ⟨cd, read, holds⟩ := all entry ((honoured_member entries entry).mpr ⟨member, magic, slot⟩)
    exact ⟨cd, read, read_scatter_free entry.blob cd read, holds⟩
  · rintro entry member magic slot cd read ⟨pageSize, checkable⟩ embedded embeddedMember positive below
    exact special_slots_verified hashes image entries primary verified entry ((honoured_member entries entry).mpr ⟨member, magic, slot⟩)
      cd read pageSize checkable embedded (special_entry entries embedded embeddedMember positive below)

def words (numbers : List Nat) : List UInt8 := numbers.flatMap (BigEndian.octetsOf 4)

def sampleCode : List UInt8 := [0x61, 0x62, 0x63, 0x64]

def sampleRequirements : List UInt8 := words [csmagicRequirements, 12, 0]

def sampleCodeDigest : List UInt8 :=
  [0x88, 0xD4, 0x26, 0x6F, 0xD4, 0xE6, 0x33, 0x8D, 0x13, 0xB8, 0x45, 0xFC, 0xF2, 0x89, 0x57, 0x9D, 0x20, 0x9C, 0x89, 0x78, 0x23, 0xB9, 0x21, 0x7D, 0xA3, 0xE1, 0x61, 0x93, 0x6F, 0x03, 0x15, 0x89]

def sampleRequirementsDigest : List UInt8 :=
  [0x98, 0x79, 0x20, 0x90, 0x4E, 0xAB, 0x65, 0x0E, 0x75, 0x78, 0x8C, 0x05, 0x4A, 0xA0, 0xB0, 0x52, 0x4E, 0x6A, 0x80, 0xBF, 0xC7, 0x1A, 0xA3, 0x2D, 0xF8, 0xD2, 0x37, 0xA6, 0x17, 0x43, 0xF9, 0x86]

def emptyDigest : List UInt8 :=
  [0xE3, 0xB0, 0xC4, 0x42, 0x98, 0xFC, 0x1C, 0x14, 0x9A, 0xFB, 0xF4, 0xC8, 0x99, 0x6F, 0xB9, 0x24, 0x27, 0xAE, 0x41, 0xE4, 0x64, 0x9B, 0x93, 0x4C, 0xA4, 0x95, 0x99, 0x1B, 0x78, 0x52, 0xB8, 0x55]

def sampleHashes : Hashes where
  sha1 := fun _ => []
  sha256 := fun data =>
    if data = sampleCode then sampleCodeDigest else if data = sampleRequirements then sampleRequirementsDigest else emptyDigest
  sha384 := fun _ => []

def sampleDirectory (hashType : UInt8) : List UInt8 :=
  words [csmagicCodedirectory, 140, 0x20001, 0, 108, 0, 2, 1, 4] ++ [32, hashType, 0, 12] ++ words [0] ++ sampleRequirementsDigest ++
    List.replicate 32 0 ++ sampleCodeDigest

def sampleEntries : List BlobEntry :=
  [⟨0, 28, csmagicCodedirectory, sampleDirectory 2⟩, ⟨2, 168, csmagicRequirements, sampleRequirements⟩]

theorem verdicts_sound_sample : ∃ cd, CdSlots.read (sampleDirectory 2) = some cd ∧ PagesHold sampleHashes sampleCode cd ∧
    BlobBound sampleHashes cd ⟨2, 168, csmagicRequirements, sampleRequirements⟩ := by
  obtain ⟨pages, _, special⟩ := verdicts_sound sampleHashes sampleCode sampleEntries (some (sampleDirectory 2))
  obtain ⟨cd, read, _, holds⟩ := (pages (by decide +kernel)).2 ⟨0, 28, csmagicCodedirectory, sampleDirectory 2⟩ (by decide +kernel) rfl rfl
  refine ⟨cd, read, holds, ?_⟩
  exact special (by decide +kernel) ⟨0, 28, csmagicCodedirectory, sampleDirectory 2⟩ (by decide +kernel) rfl rfl cd read holds.checkable
    ⟨2, 168, csmagicRequirements, sampleRequirements⟩ (by decide +kernel) (by decide) (by decide)

def mixedEntries : List BlobEntry := sampleEntries ++ [⟨0x1000, 180, csmagicCodedirectory, sampleDirectory 9⟩]

theorem unchecked_directory_binds_nothing :
    (checkCodeDirectories sampleHashes sampleCode mixedEntries (some (sampleDirectory 2))).specialSlotsVerified = some true ∧
    ¬ ∀ entry ∈ mixedEntries, entry.magic = csmagicCodedirectory → honouredCodeDirectorySlot entry.slot = true →
      ∀ cd, CdSlots.read entry.blob = some cd → ∀ embedded ∈ mixedEntries, 0 < embedded.slot →
        embedded.slot < csslotAlternateCodedirectories → BlobBound sampleHashes cd embedded := by
  refine ⟨by decide +kernel, fun all => ?_⟩
  cases read : CdSlots.read (sampleDirectory 9) with
  | none => exact absurd read (by decide +kernel)
  | some cd =>
      obtain ⟨_, digest, size, _, hashed, _⟩ := all ⟨0x1000, 180, csmagicCodedirectory, sampleDirectory 9⟩ (by decide +kernel) rfl
        rfl cd read ⟨2, 168, csmagicRequirements, sampleRequirements⟩ (by decide +kernel) (by decide) (by decide)
      have hashType : cd.hashType = 9 := by
        have known : (CdSlots.read (sampleDirectory 9)).map CdSlots.hashType = some 9 := by decide +kernel
        rw [read] at known
        exact Option.some.inj known
      rw [slotDigest, hashType] at hashed
      cases hashed

open Bytes (u32be saturatingAdd)

-- What parsing hands on for one entry: the blob that a reporter reads, with the
-- place or the CodeDirectory that goes with it.
inductive Report where
  | codeDirectory (blob : List UInt8) (base : Nat)
  | requirements (size : Nat) (blob : List UInt8)
  | entitlements (blob : List UInt8)
  | derEntitlements (size : Nat)
  | cms (blob : List UInt8) (primary : Option (List UInt8))
deriving DecidableEq, Repr

def report (sigOff : Nat) (primary : Option (List UInt8)) (entry : BlobEntry) : Option Report :=
  if entry.magic = csmagicCodedirectory ∧ honouredCodeDirectorySlot entry.slot then
    some (.codeDirectory entry.blob (sigOff + entry.offset))
  else if entry.slot = csslotRequirements ∧ entry.magic = csmagicRequirements then
    some (.requirements (entry.blob.length - 8) entry.blob)
  else if entry.slot = csslotEntitlements ∧ entry.magic = csmagicEmbeddedEntitlements then some (.entitlements entry.blob)
  else if entry.slot = csslotDerEntitlements ∧ entry.magic = csmagicDerEntitlements then
    some (.derEntitlements (entry.blob.length - 8))
  else if entry.slot = csslotSignatureslot ∧ entry.magic = csmagicBlobwrapper then some (.cms entry.blob primary)
  else none

def superBlob (bytes : List UInt8) (sigOff sigSize : Nat) : Option (List UInt8 × Nat) := do
  let sig ← Bytes.get bytes sigOff (saturatingAdd sigOff sigSize)
  if sig.length < 12 then none
  else
    let magic ← u32be sig 0
    let totalLen ← u32be sig 4
    if totalLen < 12 ∨ totalLen > sig.length then none
    else if magic ≠ csmagicEmbeddedSignature ∧ magic ≠ csmagicDetachedSignature then none
    else some (sig, totalLen)

structure Parsed where
  reports : List Report
  verdicts : Verdicts
deriving DecidableEq, Repr

def primaryCd (entries : List BlobEntry) : Option (List UInt8) :=
  (entries.find? fun entry => entry.slot == csslotCodedirectory && entry.magic == csmagicCodedirectory).map BlobEntry.blob

def parse (hashes : Hashes) (bytes : List UInt8) (sigOff sigSize : Nat) : Option Parsed := do
  let (sig, totalLen) ← superBlob bytes sigOff sigSize
  let entries ← superBlobEntries sig totalLen
  let primary := primaryCd entries
  some { reports := entries.filterMap (report sigOff primary), verdicts := checkCodeDirectories hashes bytes entries primary }

-- The slot types the kernel reads, and the ones it reads a blob of this magic from.
def honouredSlot (slot : Nat) : Bool :=
  honouredCodeDirectorySlot slot || slot == csslotRequirements || slot == csslotEntitlements || slot == csslotDerEntitlements ||
    slot == csslotSignatureslot

def consulted (slot magic : Nat) : Bool :=
  (magic == csmagicCodedirectory && honouredCodeDirectorySlot slot) || (slot == csslotRequirements && magic == csmagicRequirements) ||
    (slot == csslotEntitlements && magic == csmagicEmbeddedEntitlements) ||
    (slot == csslotDerEntitlements && magic == csmagicDerEntitlements) || (slot == csslotSignatureslot && magic == csmagicBlobwrapper)

theorem consulted_honoured (slot magic : Nat) (reads : consulted slot magic = true) : honouredSlot slot = true := by
  simp only [consulted, honouredSlot, Bool.or_eq_true, Bool.and_eq_true] at reads ⊢
  tauto

variable (sigOff : Nat)

theorem report_consulted (primary : Option (List UInt8)) (entry : BlobEntry) :
    (report sigOff primary entry).isSome = consulted entry.slot entry.magic := by
  unfold report consulted
  split_ifs <;> simp_all

def selected (entries : List BlobEntry) : List BlobEntry := entries.filter fun entry => consulted entry.slot entry.magic

theorem reports_selected (primary : Option (List UInt8)) (entries : List BlobEntry) :
    entries.filterMap (report sigOff primary) = (selected entries).filterMap (report sigOff primary) := by
  rw [selected, List.filterMap_filter]
  refine congrArg (List.filterMap · entries) (funext fun entry => ?_)
  have known := report_consulted sigOff primary entry
  cases reads : consulted entry.slot entry.magic with
  | true => rfl
  | false =>
      rw [reads, Option.isSome_eq_false_iff, Option.isNone_iff_eq_none] at known
      simpa using known

theorem primary_selected : primaryCd entries = primaryCd (selected entries) := by
  unfold primaryCd selected
  rw [List.find?_filter]
  refine congrArg (fun found => Option.map BlobEntry.blob (List.find? found entries)) (funext fun entry => ?_)
  cases magic : entry.magic == csmagicCodedirectory <;> cases slot : entry.slot == csslotCodedirectory <;>
    simp_all [consulted, honouredCodeDirectorySlot]

theorem honoured_selected : honouredDirectories entries = honouredDirectories (selected entries) := by
  unfold honouredDirectories codeDirectories selected
  simp only [List.filter_filter]
  refine congrArg (List.filter · entries) (funext fun entry => ?_)
  cases magic : entry.magic == csmagicCodedirectory <;> cases slot : honouredCodeDirectorySlot entry.slot <;>
    simp [consulted, magic, slot]

end Filefacts.Macho
