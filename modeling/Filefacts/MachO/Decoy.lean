import Mathlib.Data.List.Basic
import Filefacts.MachO.CodeSignature

set_option autoImplicit false

namespace Filefacts.Macho

open Bytes (u32be checkedAdd checkedMul)

open FirstCome (serve serveAll privilegedServed Steady)

def indexAt (sig : List UInt8) (i : Nat) : Option (Nat × Nat) :=
  match u32be sig (12 + i * 8), u32be sig (12 + i * 8 + 4) with
  | some slot, some offset => some (slot, offset)
  | _, _ => none

def blobIndex (sig : List UInt8) (totalLen : Nat) : Option (List (Nat × Nat)) := do
  let count ← u32be sig 8
  let table ← checkedMul count 8
  let indexEnd ← checkedAdd table 12
  if indexEnd > totalLen then none else (List.range count).mapM (indexAt sig)

def shares (one other : Nat × Nat) : Bool := other.1 == one.1 || other.2 == one.2

section Signature

variable (sig : List UInt8) (totalLen : Nat)

def readable (listed : Nat × Nat) : Bool := (blobAt sig totalLen listed.2).isSome

def holds (magic : Nat) (listed : Nat × Nat) : Bool := (blobAt sig totalLen listed.2).any fun blob => blob.1 == magic

def kernelReads (listed : Nat × Nat) : Bool := (blobAt sig totalLen listed.2).any fun blob => consulted listed.1 blob.1

def entryOf (listed : Nat × Nat) : Option BlobEntry :=
  (blobAt sig totalLen listed.2).map fun (magic, blob) => { slot := listed.1, offset := listed.2, magic, blob }

abbrev servedEntries (index : List (Nat × Nat)) : List (Nat × Nat) := serveAll shares maxBlobIndex (readable sig totalLen) index

variable (served : List (Nat × Nat))

theorem any_shares (listed : Nat × Nat) (ready : ∀ one ∈ served, readable sig totalLen one = true) :
    ((served.filterMap (entryOf sig totalLen)).any fun entry => entry.slot == listed.1 || entry.offset == listed.2) =
      served.any (shares listed) := by
  induction served with
  | nil => rfl
  | cons one served ih =>
      obtain ⟨readyOne, readyRest⟩ := List.forall_mem_cons.mp ready
      obtain ⟨blob, there⟩ := Option.isSome_iff_exists.mp readyOne
      simp only [List.filterMap_cons, entryOf, there, Option.map_some, List.any_cons, shares]
      rw [← ih readyRest]

theorem read_entry_serve (i : Nat) (listed : Nat × Nat) (there : indexAt sig i = some listed)
    (ready : ∀ one ∈ served, readable sig totalLen one = true) :
    readEntry sig totalLen (served.filterMap (entryOf sig totalLen)) i =
      (serve shares (readable sig totalLen) served listed).filterMap (entryOf sig totalLen) ∧
    ∀ one ∈ serve shares (readable sig totalLen) served listed, readable sig totalLen one = true := by
  unfold indexAt at there
  split at there
  · next slot offset slotAt offsetAt =>
      obtain rfl := Option.some.inj there
      simp only [readEntry, slotAt, offsetAt]
      rw [any_shares sig totalLen served (slot, offset) ready, serve]
      cases taken : served.any (shares (slot, offset)) with
      | true => simpa using ready
      | false =>
          cases blob : blobAt sig totalLen offset with
          | none => simpa [readable, blob] using ready
          | some found =>
              simp only [Bool.false_eq_true, if_false, readable, blob, Option.isSome_some, Bool.not_false, Bool.and_self, if_true]
              refine ⟨by simp [entryOf, blob], ?_⟩
              intro one member
              rcases List.mem_append.mp member with earlier | last
              · exact ready one earlier
              · obtain rfl : one = (slot, offset) := by simpa using last
                simp [blob]
  · cases there

theorem fold_read_serve (positions : List Nat) (listed served : List (Nat × Nat)) (cap : Nat)
    (there : positions.mapM (indexAt sig) = some listed) (ready : ∀ one ∈ served, readable sig totalLen one = true) :
    (positions.take cap).foldl (readEntry sig totalLen) (served.filterMap (entryOf sig totalLen)) =
      ((listed.take cap).foldl (serve shares (readable sig totalLen)) served).filterMap (entryOf sig totalLen) := by
  induction positions generalizing listed served cap with
  | nil =>
      obtain rfl : [] = listed := by simpa using there
      simp
  | cons position positions ih =>
      simp only [List.mapM_cons, Option.bind_eq_bind, Option.bind_eq_some_iff, Option.pure_def, Option.some.injEq] at there
      obtain ⟨first, firstAt, rest, restAt, rfl⟩ := there
      cases cap with
      | zero => rfl
      | succ cap =>
          obtain ⟨step, after⟩ := read_entry_serve sig totalLen served position first firstAt ready
          rw [List.take_succ_cons, List.take_succ_cons, List.foldl_cons, List.foldl_cons, step]
          exact ih rest _ cap restAt after

theorem super_blob_entries_served (index : List (Nat × Nat)) (listed : blobIndex sig totalLen = some index) :
    superBlobEntries sig totalLen = some ((servedEntries sig totalLen index).filterMap (entryOf sig totalLen)) := by
  simp only [blobIndex, Option.bind_eq_bind, Option.bind_eq_some_iff] at listed
  obtain ⟨count, counted, table, tabled, indexEnd, ended, rest⟩ := listed
  split at rest
  · cases rest
  · next inside =>
      have fold := fold_read_serve sig totalLen (List.range count) index [] maxBlobIndex rest (by simp)
      rw [List.take_range, Nat.min_comm] at fold
      simp only [superBlobEntries, counted, tabled, ended, if_neg inside, Option.bind_eq_bind, Option.bind_some]
      exact congrArg some fold

theorem selected_served : selected (served.filterMap (entryOf sig totalLen)) =
      (served.filter (kernelReads sig totalLen)).filterMap (entryOf sig totalLen) := by
  rw [selected, List.filter_filterMap, List.filterMap_filter]
  refine congrArg (List.filterMap · served) (funext fun listed => ?_)
  cases blob : blobAt sig totalLen listed.2 with
  | none => simp [entryOf, blob]
  | some found => cases reads : consulted listed.1 found.1 <;> simp [entryOf, kernelReads, blob, reads]

end Signature

-- An index with entries put in, each of a slot type the kernel ignores.
inductive Inserted : List (Nat × Nat) → List (Nat × Nat) → Prop where
  | done : Inserted [] []
  | keep (listed : Nat × Nat) (index index' : List (Nat × Nat)) (rest : Inserted index index') :
      Inserted (listed :: index) (listed :: index')
  | insert (decoy : Nat × Nat) (index index' : List (Nat × Nat)) (ignored : honouredSlot decoy.1 = false)
      (rest : Inserted index index') : Inserted index (decoy :: index')

-- Two files that differ in the signature's index: the blobs it listed stay, and
-- no CodeDirectory's code limit reaches over what has changed.
structure IndexInsertion (bytes bytes' : List UInt8) (sigOff sigSize : Nat) (sig sig' : List UInt8) (totalLen : Nat)
    (index index' : List (Nat × Nat)) : Prop where
  original : superBlob bytes sigOff sigSize = some (sig, totalLen)
  modified : superBlob bytes' sigOff sigSize = some (sig', totalLen)
  listed : blobIndex sig totalLen = some index
  listed' : blobIndex sig' totalLen = some index'
  inserted : Inserted index index'
  blobs : ∀ one ∈ index, blobAt sig' totalLen one.2 = blobAt sig totalLen one.2
  length : bytes'.length = bytes.length
  unsigned : ∀ one ∈ index, honouredCodeDirectorySlot one.1 = true → ∀ blob cd,
    blobAt sig totalLen one.2 = some (csmagicCodedirectory, blob) → CdSlots.read blob = some cd →
      bytes'.take cd.codeLimit = bytes.take cd.codeLimit

theorem inserted_member {index index' : List (Nat × Nat)} (inserted : Inserted index index') {one : Nat × Nat} (member : one ∈ index') :
    one ∈ index ∨ honouredSlot one.1 = false := by
  induction inserted with
  | done => exact .inl member
  | keep listed index index' _ ih =>
      rcases List.mem_cons.mp member with rfl | later
      · exact .inl List.mem_cons_self
      · exact (ih later).imp_left (List.mem_cons_of_mem _)
  | insert decoy index index' ignored _ ih =>
      rcases List.mem_cons.mp member with rfl | later
      · exact .inr ignored
      · exact ih later

variable (sig : List UInt8) (totalLen : Nat) (hashes : Hashes)

theorem kernel_reads_honoured (one : Nat × Nat) (reads : kernelReads sig totalLen one = true) :
    honouredSlot one.1 = true := by
  obtain ⟨blob, _, taken⟩ := (Option.any_eq_true _ _).mp reads
  exact consulted_honoured one.1 blob.1 taken

theorem inserted_reads (index index' : List (Nat × Nat)) (inserted : Inserted index index') :
    index.filter (kernelReads sig totalLen) = index'.filter (kernelReads sig totalLen) := by
  induction inserted with
  | done => rfl
  | keep listed index index' _ ih => simp only [List.filter_cons, ih]
  | insert decoy index index' ignored _ ih =>
      rw [List.filter_cons_of_neg, ih]
      intro reads
      rw [kernel_reads_honoured sig totalLen decoy reads] at ignored
      cases ignored

def pageVerdicts (verdicts : Verdicts) : Option Bool × Option Nat × Option Nat :=
  (verdicts.codePagesVerified, verdicts.codePageMismatches, verdicts.codePageFirstMismatchOffset)

def pageParts (check : CdCheck) : Bool × Nat × Option Nat := (check.pagesOk, check.mismatchedPages, check.firstMismatch)

theorem take_page_parts {folded folded' : Folded} {check check' : Option CdCheck}
    (start : folded.pagesOk = folded'.pagesOk ∧ folded.mismatch = folded'.mismatch) (same : check.map pageParts = check'.map pageParts) :
    (folded.take check).pagesOk = (folded'.take check').pagesOk ∧ (folded.take check).mismatch = (folded'.take check').mismatch := by
  cases check with
  | none =>
      obtain rfl : check' = none := by simpa using same.symm
      exact ⟨rfl, start.2⟩
  | some held =>
      cases check' with
      | none => cases same
      | some held' =>
          simp only [Option.map_some, Option.some.injEq, pageParts, Prod.mk.injEq] at same
          simp only [Folded.take, start.1, start.2, same.1, same.2.1, same.2.2, and_self]

theorem take_all_page_parts (checks checks' : List (Option CdCheck)) (folded folded' : Folded)
    (start : folded.pagesOk = folded'.pagesOk ∧ folded.mismatch = folded'.mismatch)
    (same : checks.map (Option.map pageParts) = checks'.map (Option.map pageParts)) :
    (checks.foldl Folded.take folded).pagesOk = (checks'.foldl Folded.take folded').pagesOk ∧
      (checks.foldl Folded.take folded).mismatch = (checks'.foldl Folded.take folded').mismatch := by
  induction checks generalizing checks' folded folded' with
  | nil =>
      obtain rfl : checks' = [] := by simpa using same.symm
      exact start
  | cons check checks ih =>
      cases checks' with
      | nil => cases same
      | cons check' checks' =>
          obtain ⟨first, rest⟩ := List.cons.inj same
          exact ih checks' _ _ (take_page_parts start first) rest

theorem directory_page_parts (image : List UInt8) (entries : List BlobEntry) (blob : List UInt8) :
    (directoryCheck hashes image entries blob).map pageParts =
      ((CdSlots.read blob).bind fun cd => pagesCheck hashes cd image).map pageParts := by
  rw [directory_check_eq]
  cases CdSlots.read blob with
  | none => rfl
  | some cd =>
      simp only [Option.bind_some]
      cases checked : pagesCheck hashes cd image with
      | none => rfl
      | some check =>
          obtain ⟨pageSize, ⟨digest, known⟩, _⟩ := pages_check_checkable hashes cd image check checked
          obtain ⟨specialOk, special, _, _⟩ := check_special_spec hashes cd entries check known
          rw [Option.bind_some, special]
          rfl

theorem pages_check_image (cd : CdSlots) (image image' : List UInt8) (length : image'.length = image.length)
    (covered_ : image'.take cd.codeLimit = image.take cd.codeLimit) : pagesCheck hashes cd image' = pagesCheck hashes cd image := by
  have covers_ : ∀ pageSize, covers cd pageSize image' = covers cd pageSize image := fun pageSize => by simp only [covers, length]
  have digests : ∀ pageSize, computeDigests hashes image' cd.hashType cd.codeLimit pageSize =
      computeDigests hashes image cd.hashType cd.codeLimit pageSize := by
    intro pageSize
    simp only [computeDigests, Bytes.get, length, List.drop_zero, Nat.sub_zero, covered_]
  simp only [pagesCheck, covers_, digests]

theorem page_verdicts_same {image image' : List UInt8} {entries entries' : List BlobEntry}
    (primary primary' : Option (List UInt8)) (honoured : honouredDirectories entries' = honouredDirectories entries)
    (length : image'.length = image.length)
    (covered : ∀ entry ∈ honouredDirectories entries, ∀ cd, CdSlots.read entry.blob = some cd →
      image'.take cd.codeLimit = image.take cd.codeLimit) :
    pageVerdicts (checkCodeDirectories hashes image' entries' primary') = pageVerdicts (checkCodeDirectories hashes image entries primary) ↔
      (honouredDirectories entries = [] → (codeDirectories entries = [] ↔ codeDirectories entries' = [])) := by
  have anyHonoured : ∀ entries, ((codeDirectories entries).any fun entry => honouredCodeDirectorySlot entry.slot) =
      !(honouredDirectories entries).isEmpty := by
    intro entries
    rw [honouredDirectories, Bool.eq_iff_iff]
    simp [List.isEmpty_eq_false_iff, List.filter_eq_nil_iff]
  have checks : ((honouredDirectories entries').map fun entry => directoryCheck hashes image' entries' entry.blob).map (Option.map pageParts) =
      ((honouredDirectories entries).map fun entry => directoryCheck hashes image entries entry.blob).map (Option.map pageParts) := by
    rw [honoured, List.map_map, List.map_map]
    refine List.map_congr_left fun entry member => ?_
    simp only [Function.comp_apply, directory_page_parts]
    cases read : CdSlots.read entry.blob with
    | none => rfl
    | some cd => rw [Option.bind_some, Option.bind_some, pages_check_image hashes cd image image' length (covered entry member cd read)]
  have onlyOne : ∀ entries, codeDirectories entries = [] → honouredDirectories entries = [] := by
    intro entries empty
    rw [honouredDirectories, empty, List.filter_nil]
  rw [verdicts_alone, verdicts_alone, verdictsAlone, verdictsAlone]
  simp only [anyHonoured, honoured]
  cases empty : codeDirectories entries with
  | nil =>
      cases empty' : codeDirectories entries' with
      | nil => simp
      | cons first rest => simp [pageVerdicts, noVerdicts, onlyOne entries empty]
  | cons first rest =>
      cases empty' : codeDirectories entries' with
      | nil =>
          have none := onlyOne entries' empty'
          rw [honoured] at none
          simp [pageVerdicts, noVerdicts, none]
      | cons first' rest' =>
          refine iff_of_true ?_ (by simp)
          rw [honoured] at checks
          obtain ⟨pagesOk, mismatch⟩ := take_all_page_parts _ _ ⟨[], !(honouredDirectories entries).isEmpty, none, none⟩
            ⟨[], !(honouredDirectories entries).isEmpty, none, none⟩ ⟨rfl, rfl⟩ checks
          simp only [pageVerdicts, List.isEmpty_cons, Bool.false_eq_true, if_false, pagesOk, mismatch]

def ListsDirectory (sig : List UInt8) (totalLen : Nat) (index : List (Nat × Nat)) (slots : Nat → Bool) : Prop :=
  ∃ one ∈ servedEntries sig totalLen index, slots one.1 = true ∧ holds sig totalLen csmagicCodedirectory one = true

theorem directories_listed (index : List (Nat × Nat)) (slots : Nat → Bool) :
    ((codeDirectories ((servedEntries sig totalLen index).filterMap (entryOf sig totalLen))).filter fun entry => slots entry.slot) = [] ↔
      ¬ ListsDirectory sig totalLen index slots := by
  simp only [codeDirectories, List.filter_filter, List.filter_eq_nil_iff, List.mem_filterMap, ListsDirectory, not_exists, not_and]
  constructor
  · intro none one member slot isDirectory
    obtain ⟨blob, there, magic⟩ := (Option.any_eq_true _ _).mp isDirectory
    exact none ⟨one.1, one.2, blob.1, blob.2⟩ ⟨one, member, by rw [entryOf, there]; rfl⟩ (by simp [slot, magic])
  · rintro none entry ⟨one, member, made⟩ both
    obtain ⟨blob, there, rfl⟩ := Option.map_eq_some_iff.mp made
    simp only [Bool.and_eq_true] at both
    exact none one member both.1 (by rw [holds, there]; exact both.2)

theorem no_directories_listed (index : List (Nat × Nat)) :
    codeDirectories ((servedEntries sig totalLen index).filterMap (entryOf sig totalLen)) = [] ↔
      ¬ ListsDirectory sig totalLen index fun _ => true := by
  rw [← directories_listed, List.filter_eq_self.mpr fun _ _ => rfl]

theorem parse_served {bytes : List UInt8} {sigOff sigSize : Nat} {sig : List UInt8} {totalLen : Nat}
    {index : List (Nat × Nat)} (found : superBlob bytes sigOff sigSize = some (sig, totalLen))
    (listed : blobIndex sig totalLen = some index) :
    parse hashes bytes sigOff sigSize =
      let entries := (servedEntries sig totalLen index).filterMap (entryOf sig totalLen)
      some { reports := entries.filterMap (report sigOff (primaryCd entries))
             verdicts := checkCodeDirectories hashes bytes entries (primaryCd entries) } := by
  simp only [parse, found, Option.bind_eq_bind, Option.bind_some, super_blob_entries_served sig totalLen index listed]

theorem entries_listed (served : List (Nat × Nat)) (reads : ∀ one ∈ served, kernelReads sig totalLen one = true) :
    (served.filterMap (entryOf sig totalLen)).map (fun entry => (entry.slot, entry.offset)) = served := by
  induction served with
  | nil => rfl
  | cons one served ih =>
      obtain ⟨first, rest⟩ := List.forall_mem_cons.mp reads
      obtain ⟨blob, there, _⟩ := (Option.any_eq_true _ _).mp first
      simp only [List.filterMap_cons, entryOf, there, Option.map_some, List.map_cons]
      exact congrArg (one :: ·) (ih rest)

section Insertion

variable (bytes bytes' : List UInt8) (sigOff sigSize : Nat) (sig sig' : List UInt8) (totalLen : Nat)
  (index index' : List (Nat × Nat)) (insertion : IndexInsertion bytes bytes' sigOff sigSize sig sig' totalLen index index')

include insertion

theorem insertion_served_reads :
    (servedEntries sig' totalLen index').filter (kernelReads sig' totalLen) =
      (servedEntries sig' totalLen index').filter (kernelReads sig totalLen) := by
  refine List.filter_congr fun one member => ?_
  have listed' := FirstCome.serve_all_member shares maxBlobIndex (readable sig' totalLen) member
  rcases inserted_member insertion.inserted listed' with listed | ignored
  · rw [kernelReads, kernelReads, insertion.blobs one listed]
  · rw [Bool.eq_iff_iff]
    exact iff_of_false (fun reads => by rw [kernel_reads_honoured sig' totalLen one reads] at ignored; cases ignored)
      fun reads => by rw [kernel_reads_honoured sig totalLen one reads] at ignored; cases ignored

theorem insertion_kept (one : Nat × Nat) (member : one ∈ (servedEntries sig' totalLen index').filter (kernelReads sig totalLen)) :
    one ∈ index := by
  obtain ⟨served, reads⟩ := List.mem_filter.mp member
  have listed' := FirstCome.serve_all_member shares maxBlobIndex (readable sig' totalLen) served
  rcases inserted_member insertion.inserted listed' with listed | ignored
  · exact listed
  · rw [kernel_reads_honoured sig totalLen one reads] at ignored
    cases ignored

theorem insertion_selected_iff :
    selected ((servedEntries sig' totalLen index').filterMap (entryOf sig' totalLen)) =
        selected ((servedEntries sig totalLen index).filterMap (entryOf sig totalLen)) ↔
      Steady shares (kernelReads sig totalLen) maxBlobIndex (readable sig totalLen) (readable sig' totalLen) [] [] index index' := by
  have agree : ∀ one ∈ index, kernelReads sig totalLen one = true → readable sig' totalLen one = readable sig totalLen one :=
    fun one member _ => by rw [readable, readable, insertion.blobs one member]
  have reflexive : ∀ one : Nat × Nat, shares one one = true := by simp [shares]
  have same : ((servedEntries sig' totalLen index').filter (kernelReads sig totalLen)).filterMap (entryOf sig' totalLen) =
      ((servedEntries sig' totalLen index').filter (kernelReads sig totalLen)).filterMap (entryOf sig totalLen) :=
    List.filterMap_congr fun one member => by
      rw [entryOf, entryOf, insertion.blobs one (insertion_kept bytes bytes' sigOff sigSize sig sig' totalLen index index' insertion one member)]
  rw [← FirstCome.served_same_iff shares (kernelReads sig totalLen) maxBlobIndex (readable sig totalLen) (readable sig' totalLen)
    reflexive index index' agree (inserted_reads sig totalLen index index' insertion.inserted), selected_served, selected_served,
    insertion_served_reads bytes bytes' sigOff sigSize sig sig' totalLen index index' insertion, same]
  constructor
  · intro equal
    have keys := congrArg (List.map fun entry : BlobEntry => (entry.slot, entry.offset)) equal
    rw [entries_listed sig totalLen _ fun one member => (List.mem_filter.mp member).2,
      entries_listed sig totalLen _ fun one member => (List.mem_filter.mp member).2] at keys
    exact keys.symm
  · intro equal
    rw [privilegedServed, privilegedServed] at equal
    rw [← equal]

theorem insertion_covered (entry : BlobEntry)
    (member : entry ∈ honouredDirectories ((servedEntries sig totalLen index).filterMap (entryOf sig totalLen))) (cd : CdSlots)
    (read : CdSlots.read entry.blob = some cd) : bytes'.take cd.codeLimit = bytes.take cd.codeLimit := by
  obtain ⟨made, magic, honoured⟩ := (honoured_member _ entry).mp member
  obtain ⟨one, served, there⟩ := List.mem_filterMap.mp made
  obtain ⟨blob, found, rfl⟩ := Option.map_eq_some_iff.mp there
  have listed := FirstCome.serve_all_member shares maxBlobIndex (readable sig totalLen) served
  obtain ⟨kind, octets⟩ := blob
  simp only at magic
  rw [magic] at found
  exact insertion.unsigned one listed honoured octets cd found read

end Insertion

-- What the insertion must leave alone: the selected blobs, all that is reported
-- of them, and the verdicts on the code pages.
structure Unchanged (hashes : Hashes) (bytes bytes' : List UInt8) (sigOff sigSize : Nat) (sig sig' : List UInt8) (totalLen : Nat) :
    Prop where
  selection : (superBlobEntries sig' totalLen).map selected = (superBlobEntries sig totalLen).map selected
  reports : (parse hashes bytes' sigOff sigSize).map Parsed.reports = (parse hashes bytes sigOff sigSize).map Parsed.reports
  pages : (parse hashes bytes' sigOff sigSize).map (fun parsed => pageVerdicts parsed.verdicts) =
    (parse hashes bytes sigOff sigSize).map fun parsed => pageVerdicts parsed.verdicts

-- Decoys leave what the kernel reads alone exactly when none of them changes
-- which listed blobs are shadowed, by an ignored entry that takes their offset
-- first or by the cap, and no CodeDirectory but an ignored one comes or goes.
theorem decoy_insertion_iff (hashes : Hashes) (bytes bytes' : List UInt8) (sigOff sigSize : Nat) (sig sig' : List UInt8) (totalLen : Nat)
    (index index' : List (Nat × Nat)) (insertion : IndexInsertion bytes bytes' sigOff sigSize sig sig' totalLen index index') :
    Unchanged hashes bytes bytes' sigOff sigSize sig sig' totalLen ↔
      Steady shares (kernelReads sig totalLen) maxBlobIndex (readable sig totalLen) (readable sig' totalLen) [] [] index index' ∧
      (ListsDirectory sig totalLen index honouredCodeDirectorySlot ∨
        (ListsDirectory sig totalLen index (fun _ => true) ↔ ListsDirectory sig' totalLen index' fun _ => true)) := by
  have served := super_blob_entries_served sig totalLen index insertion.listed
  have served' := super_blob_entries_served sig' totalLen index' insertion.listed'
  have parsed := parse_served hashes insertion.original insertion.listed
  have parsed' := parse_served hashes insertion.modified insertion.listed'
  have covered := insertion_covered bytes bytes' sigOff sigSize sig sig' totalLen index index' insertion
  rw [← insertion_selected_iff bytes bytes' sigOff sigSize sig sig' totalLen index index' insertion]
  have honouredListed : honouredDirectories ((servedEntries sig totalLen index).filterMap (entryOf sig totalLen)) = [] ↔ _ :=
    directories_listed sig totalLen index honouredCodeDirectorySlot
  have listed := no_directories_listed sig totalLen index
  have listed' := no_directories_listed sig' totalLen index'
  simp only at parsed parsed'
  generalize (servedEntries sig totalLen index).filterMap (entryOf sig totalLen) = entries at *
  generalize (servedEntries sig' totalLen index').filterMap (entryOf sig' totalLen) = entries' at *
  have pages : selected entries' = selected entries →
      (pageVerdicts (checkCodeDirectories hashes bytes' entries' (primaryCd entries')) =
        pageVerdicts (checkCodeDirectories hashes bytes entries (primaryCd entries)) ↔
      (ListsDirectory sig totalLen index honouredCodeDirectorySlot ∨
        (ListsDirectory sig totalLen index (fun _ => true) ↔ ListsDirectory sig' totalLen index' fun _ => true))) := by
    intro equal
    have honoured : honouredDirectories entries' = honouredDirectories entries := by
      rw [honoured_selected entries', equal, ← honoured_selected]
    rw [page_verdicts_same hashes _ _ honoured insertion.length covered, listed, listed',
      honouredListed, not_iff_not, ← or_iff_not_imp_left]
  constructor
  · rintro ⟨selection, _, pagesSame⟩
    rw [served, served', Option.map_some, Option.map_some] at selection
    have equal := Option.some.inj selection
    rw [parsed, parsed', Option.map_some, Option.map_some] at pagesSame
    exact ⟨equal, (pages equal).mp (Option.some.inj pagesSame)⟩
  · rintro ⟨equal, directories⟩
    refine ⟨by rw [served, served', Option.map_some, Option.map_some, equal], ?_, ?_⟩
    · have reports : entries'.filterMap (report sigOff (primaryCd entries')) = entries.filterMap (report sigOff (primaryCd entries)) := by
        rw [reports_selected _ _ entries', reports_selected _ _ entries, primary_selected entries', primary_selected entries, equal]
      rw [parsed, parsed', Option.map_some, Option.map_some]
      exact congrArg some reports
    · rw [parsed, parsed', Option.map_some, Option.map_some, (pages equal).mpr directories]

def entitledSignature (count : Nat) (index : List Nat) : List UInt8 :=
  words ([csmagicEmbeddedSignature, 36, count] ++ index ++ [csmagicEmbeddedEntitlements, 8])

theorem entitled_insertion {index : List Nat} {listed : List (Nat × Nat)}
    (modified : superBlob (entitledSignature 2 index) 0 36 = some (entitledSignature 2 index, 36))
    (listed' : blobIndex (entitledSignature 2 index) 36 = some listed) (inserted : Inserted [(5, 28)] listed)
    (blob : blobAt (entitledSignature 2 index) 36 28 = blobAt (entitledSignature 1 [5, 28, 0, 0]) 36 28)
    (length : (entitledSignature 2 index).length = (entitledSignature 1 [5, 28, 0, 0]).length) :
    IndexInsertion (entitledSignature 1 [5, 28, 0, 0]) (entitledSignature 2 index) 0 36 (entitledSignature 1 [5, 28, 0, 0])
      (entitledSignature 2 index) 36 [(5, 28)] listed := by
  refine ⟨by decide +kernel, modified, by decide +kernel, listed', inserted, ?_, length, ?_⟩
  · intro one member
    obtain rfl := List.mem_singleton.mp member
    exact blob
  · intro one member honoured
    obtain rfl := List.mem_singleton.mp member
    cases honoured

theorem decoy_insertion_iff_behind :
    Unchanged sampleHashes (entitledSignature 1 [5, 28, 0, 0]) (entitledSignature 2 [5, 28, 0x2000, 28]) 0 36
      (entitledSignature 1 [5, 28, 0, 0]) (entitledSignature 2 [5, 28, 0x2000, 28]) 36 ∧
    Steady shares (kernelReads (entitledSignature 1 [5, 28, 0, 0]) 36) maxBlobIndex (readable (entitledSignature 1 [5, 28, 0, 0]) 36)
      (readable (entitledSignature 2 [5, 28, 0x2000, 28]) 36) [] [] [(5, 28)] [(5, 28), (0x2000, 28)] := by
  have unchanged : Unchanged sampleHashes (entitledSignature 1 [5, 28, 0, 0]) (entitledSignature 2 [5, 28, 0x2000, 28]) 0 36
      (entitledSignature 1 [5, 28, 0, 0]) (entitledSignature 2 [5, 28, 0x2000, 28]) 36 :=
    ⟨by decide +kernel, by decide +kernel, by decide +kernel⟩
  exact ⟨unchanged, ((decoy_insertion_iff sampleHashes _ _ 0 36 _ _ 36 [(5, 28)] [(5, 28), (0x2000, 28)]
    (entitled_insertion (by decide +kernel) (by decide +kernel)
      (.keep _ _ _ (.insert _ _ _ (by decide) .done)) (by decide +kernel) (by decide +kernel))).mp unchanged).1⟩

theorem decoy_in_front_hides_entitlements :
    IndexInsertion (entitledSignature 1 [5, 28, 0, 0]) (entitledSignature 2 [0x2000, 28, 5, 28]) 0 36
      (entitledSignature 1 [5, 28, 0, 0]) (entitledSignature 2 [0x2000, 28, 5, 28]) 36 [(5, 28)] [(0x2000, 28), (5, 28)] ∧
    ¬ Unchanged sampleHashes (entitledSignature 1 [5, 28, 0, 0]) (entitledSignature 2 [0x2000, 28, 5, 28]) 0 36
      (entitledSignature 1 [5, 28, 0, 0]) (entitledSignature 2 [0x2000, 28, 5, 28]) 36 := by
  refine ⟨entitled_insertion (by decide +kernel) (by decide +kernel)
    (.insert _ _ _ (by decide) (.keep _ _ _ .done)) (by decide +kernel) (by decide +kernel), fun unchanged => ?_⟩
  exact absurd unchanged.reports (by decide +kernel)

end Filefacts.Macho
