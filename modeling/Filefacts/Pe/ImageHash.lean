import Mathlib.Data.List.Sort
import Filefacts.Bytes
import Filefacts.Lib.Tiling

set_option autoImplicit false

namespace Filefacts.ImageHash

open Bytes (checkedAdd checkedMul saturatingAdd)

open Tiling (Range positions Tiles)

-- The parsed headers, as far as the image hash reads them.
structure SectionTable where
  pointerToRawData : Nat
  sizeOfRawData : Nat
deriving DecidableEq, Repr

structure OptionalHeader where
  magic : Nat
  sizeOfHeaders : Nat
  certificateTable : Option Nat
deriving DecidableEq, Repr

structure Pe where
  pePointer : Nat
  optionalHeader : Option OptionalHeader
  sections : List SectionTable
deriving DecidableEq, Repr

def sizeofPeMagic : Nat := 4

def sizeofCoffHeader : Nat := 20

def certificateDirectory : Nat := 4

def optionalHeaderOffset (pePointer : Nat) : Option Nat := checkedAdd pePointer (sizeofPeMagic + sizeofCoffHeader)

def dataDirectoryStart (magic : Nat) : Option Nat :=
  if magic = 0x10b then some 96 else if magic = 0x20b then some 112 else none

def dataDirectoryOffset (pePointer magic index : Nat) : Option Nat := do
  let header ← optionalHeaderOffset pePointer
  let start ← dataDirectoryStart magic
  let directories ← checkedAdd header start
  let offset ← checkedMul index 8
  checkedAdd directories offset

def checksumOffset (pePointer magic : Nat) : Option Nat := do
  let _start ← dataDirectoryStart magic
  let header ← optionalHeaderOffset pePointer
  checkedAdd header 64

structure Regions where
  ranges : List Range
  overlayPadding : Nat
deriving DecidableEq, Repr

def byRawOffset (sections : List SectionTable) : List SectionTable :=
  (sections.filter fun entry => decide (entry.sizeOfRawData > 0)).insertionSort fun one other =>
    one.pointerToRawData ≤ other.pointerToRawData

-- The ranges of the sections, and of the gaps between them, from where the last
-- one ended.
def sectionRanges (length : Nat) : List SectionTable → List Range → Nat → Option (List Range × Nat)
  | [], ranges, lastRawEnd => some (ranges, lastRawEnd)
  | entry :: rest, ranges, lastRawEnd =>
      match checkedAdd entry.pointerToRawData entry.sizeOfRawData with
      | none => none
      | some stop =>
          if stop > length then none
          else
            let start := entry.pointerToRawData
            let gap := if start > lastRawEnd then [(lastRawEnd, start)] else []
            sectionRanges length rest (ranges ++ gap ++ [(start, stop)]) (max lastRawEnd stop)

def overlay (fileSize lastRawEnd certTableSize : Nat) : Option Range :=
  if fileSize > saturatingAdd lastRawEnd certTableSize then
    if lastRawEnd < fileSize - certTableSize ∧ fileSize - certTableSize ≤ fileSize then some (lastRawEnd, fileSize - certTableSize)
    else none
  else none

def certTableSize (opt : OptionalHeader) : Nat := opt.certificateTable.getD 0

def deriveRegions (pe : Pe) (bytes : List UInt8) : Option Regions := do
  let opt ← pe.optionalHeader
  let checksum ← checksumOffset pe.pePointer opt.magic
  let certDir ← dataDirectoryOffset pe.pePointer opt.magic certificateDirectory
  if checksum + 4 > bytes.length ∨ certDir + 8 > bytes.length ∨ opt.sizeOfHeaders > bytes.length then none
  else if checksum + 4 > certDir ∨ certDir + 8 > opt.sizeOfHeaders then none
  else
    let headers := [(0, checksum), (checksum + 4, certDir), (certDir + 8, opt.sizeOfHeaders)]
    let (ranges, lastRawEnd) ← sectionRanges bytes.length (byRawOffset pe.sections) headers opt.sizeOfHeaders
    match overlay bytes.length lastRawEnd (certTableSize opt) with
    | some (start, stop) => some { ranges := ranges ++ [(start, stop)], overlayPadding := stop - start }
    | none => some { ranges, overlayPadding := 0 }

def Regions.fed (regions : Regions) (bytes : List UInt8) : Option (List UInt8) :=
  (regions.ranges.mapM fun range => Bytes.get bytes range.1 range.2).map List.flatten

open Bytes (checkedAdd saturatingAdd maxU64)

open Tiling (Range positions Tiles tiles_append tiles_range tiles_hole)

def SectionTable.stop (entry : SectionTable) : Nat := entry.pointerToRawData + entry.sizeOfRawData

def rawSections (pe : Pe) : List SectionTable := pe.sections.filter fun entry => decide (entry.sizeOfRawData > 0)

-- A layout whose raw sections keep clear of each other, of the headers and of
-- the last bytes of the file, where the certificate table is.
structure Laid (pe : Pe) (opt : OptionalHeader) (length : Nat) : Prop where
  apart : (rawSections pe).Pairwise fun one other => one.stop ≤ other.pointerToRawData ∨ other.stop ≤ one.pointerToRawData
  afterHeaders : ∀ entry ∈ rawSections pe, opt.sizeOfHeaders ≤ entry.pointerToRawData
  beforeTable : ∀ entry ∈ rawSections pe, entry.stop + certTableSize opt ≤ length

def inHole (checksum certDir position : Nat) : Bool :=
  (decide (checksum ≤ position) && decide (position < checksum + 4)) || (decide (certDir ≤ position) && decide (position < certDir + 8))

def rawEnd (pe : Pe) (opt : OptionalHeader) : Nat := (rawSections pe).foldl (fun last entry => max last entry.stop) opt.sizeOfHeaders

variable (pe : Pe) (opt : OptionalHeader) (bytes : List UInt8)

theorem by_raw_offset_perm : (byRawOffset pe.sections).Perm (rawSections pe) := List.perm_insertionSort _ _

theorem by_raw_offset_separated
    (apart : (rawSections pe).Pairwise fun one other => one.stop ≤ other.pointerToRawData ∨ other.stop ≤ one.pointerToRawData) :
    (byRawOffset pe.sections).Pairwise fun earlier later => earlier.stop ≤ later.pointerToRawData := by
  have sorted : (byRawOffset pe.sections).Pairwise fun earlier later => earlier.pointerToRawData ≤ later.pointerToRawData :=
    List.pairwise_insertionSort _ _
  have stillApart := ((by_raw_offset_perm pe).pairwise_iff (fun either => either.symm)).mpr apart
  have nonempty : ∀ entry ∈ byRawOffset pe.sections, 0 < entry.sizeOfRawData := by
    intro entry member
    have listed := (by_raw_offset_perm pe).mem_iff.mp member
    simpa [rawSections] using (List.mem_filter.mp listed).2
  refine (sorted.and stillApart).imp_of_mem fun {earlier later} _ laterMember both => ?_
  rcases both.2 with before | after
  · exact before
  · have positive := nonempty later laterMember
    unfold SectionTable.stop at after
    omega

variable {checksum certDir sizeOfHeaders : Nat}

theorem in_hole_headers {position : Nat} (checksumFirst : checksum + 4 ≤ certDir)
    (certDirInside : certDir + 8 ≤ sizeOfHeaders) (beyond : sizeOfHeaders ≤ position) : inHole checksum certDir position = false := by
  simp only [inHole, Bool.or_eq_false_iff, Bool.and_eq_false_iff, decide_eq_false_iff_not]
  omega

theorem headers_tile (checksumFirst : checksum + 4 ≤ certDir) (certDirInside : certDir + 8 ≤ sizeOfHeaders) :
    Tiles (fun position => !inHole checksum certDir position) 0 sizeOfHeaders
      [(0, checksum), (checksum + 4, certDir), (certDir + 8, sizeOfHeaders)] := by
  have part : ∀ low high, low ≤ high → (∀ position, low ≤ position → position < high → inHole checksum certDir position = false) →
      Tiles (fun position => !inHole checksum certDir position) low high [(low, high)] := fun low high bounds none =>
    tiles_range _ bounds fun position above below => by simp [none position above below]
  have hole : ∀ low high, (∀ position, low ≤ position → position < high → inHole checksum certDir position = true) →
      Tiles (fun position => !inHole checksum certDir position) low high [] := fun low high all =>
    tiles_hole _ low high fun position above below => by simp [all position above below]
  have first := part 0 checksum (by omega) fun position _ below => by simp [inHole]; omega
  have checksumHole := hole checksum (checksum + 4) fun position above below => by simp [inHole]; omega
  have second := part (checksum + 4) certDir (by omega) fun position above below => by simp [inHole]; omega
  have certDirHole := hole certDir (certDir + 8) fun position above below => by simp [inHole]; omega
  have third := part (certDir + 8) sizeOfHeaders (by omega) fun position above _ => by simp [inHole]; omega
  have last := tiles_append _ certDirHole third (by omega) (by omega)
  have middle := tiles_append _ second last (by omega) (by omega)
  have front := tiles_append _ checksumHole middle (by omega) (by omega)
  exact tiles_append _ first front (by omega) (by omega)

theorem section_ranges_tile (length : Nat) (wanted : Nat → Bool) (sections : List SectionTable) (ranges : List Range) (last : Nat)
    (tiles : Tiles wanted 0 last ranges) (all : ∀ position, last ≤ position → wanted position = true)
    (apart : sections.Pairwise fun earlier later => earlier.stop ≤ later.pointerToRawData)
    (after : ∀ entry ∈ sections, last ≤ entry.pointerToRawData) (ranges' : List Range) (last' : Nat)
    (walked : sectionRanges length sections ranges last = some (ranges', last')) :
    Tiles wanted 0 last' ranges' ∧ last' = sections.foldl (fun last entry => max last entry.stop) last ∧ last ≤ last' := by
  induction sections generalizing ranges last with
  | nil =>
      obtain ⟨rfl, rfl⟩ := Prod.mk.inj (Option.some.inj walked)
      exact ⟨tiles, rfl, le_rfl⟩
  | cons entry rest ih =>
      obtain ⟨starts, restAfter⟩ := List.forall_mem_cons.mp after
      obtain ⟨before, restApart⟩ := List.pairwise_cons.mp apart
      simp only [sectionRanges] at walked
      cases stopped : checkedAdd entry.pointerToRawData entry.sizeOfRawData with
      | none => simp [stopped] at walked
      | some stop =>
          obtain ⟨rfl, _⟩ := (Bytes.checked_add_some _ _ _).mp stopped
          simp only [stopped] at walked
          split at walked
          · cases walked
          · have gap : Tiles wanted last entry.pointerToRawData
                (if entry.pointerToRawData > last then [(last, entry.pointerToRawData)] else []) := by
              split
              · exact tiles_range wanted starts fun position above _ => all position above
              · exact tiles_hole wanted last _ fun position above below => by omega
            have own : Tiles wanted entry.pointerToRawData entry.stop [(entry.pointerToRawData, entry.stop)] :=
              tiles_range wanted (Nat.le_add_right _ _) fun position above _ => all position (le_trans starts above)
            have toStart := tiles_append wanted tiles gap (Nat.zero_le _) starts
            have toStop := tiles_append wanted toStart own (Nat.zero_le _) (Nat.le_add_right _ _)
            have advances : max last entry.stop = entry.stop := Nat.max_eq_right (le_trans starts (Nat.le_add_right _ _))
            have grows : last ≤ entry.stop := le_trans starts (Nat.le_add_right _ _)
            change sectionRanges length rest _ (max last entry.stop) = some (ranges', last') at walked
            rw [advances] at walked
            obtain ⟨result, ends, further⟩ := ih _ entry.stop toStop (fun position above => all position (le_trans grows above))
              restApart before walked
            exact ⟨result, by rw [ends, List.foldl_cons, advances], le_trans grows further⟩

theorem raw_end_sorted :
    (byRawOffset pe.sections).foldl (fun last entry => max last entry.stop) opt.sizeOfHeaders = rawEnd pe opt := by
  refine (by_raw_offset_perm pe).foldl_eq' (fun one _ other _ last => ?_) opt.sizeOfHeaders
  omega

theorem range_octets (start count : Nat) (inside : start + count ≤ bytes.length) :
    (List.range' start count).filterMap (bytes[·]?) = (bytes.drop start).take count := by
  induction count generalizing start with
  | zero => simp
  | succ count ih =>
      have here : start < bytes.length := by omega
      rw [List.range'_succ, List.filterMap_cons, List.getElem?_eq_getElem here, List.drop_eq_getElem_cons here, List.take_succ_cons,
        ih (start + 1) (by omega)]

theorem fed_positions (regions : Regions) (inside : ∀ range ∈ regions.ranges, range.1 ≤ range.2 ∧ range.2 ≤ bytes.length) :
    regions.fed bytes = some ((regions.ranges.flatMap positions).filterMap (bytes[·]?)) := by
  rcases regions with ⟨ranges, overlayPadding⟩
  unfold Regions.fed
  simp only at inside ⊢
  induction ranges with
  | nil => rfl
  | cons range ranges ih =>
      obtain ⟨bounds, rest⟩ := List.forall_mem_cons.mp inside
      have tail := ih rest
      obtain ⟨parts, mapped, joined⟩ := Option.map_eq_some_iff.mp tail
      have part : Bytes.get bytes range.1 range.2 = some ((positions range).filterMap (bytes[·]?)) := by
        rw [Bytes.get, if_pos bounds, positions, range_octets bytes range.1 (range.2 - range.1) (by omega)]
      simp [List.mapM_cons, part, mapped, joined, List.filterMap_append]

-- The hashed ranges hold every octet once, in order, but for the two holes and
-- the certificate table at the end.
structure CoversOnce (pe : Pe) (opt : OptionalHeader) (bytes : List UInt8) (checksum certDir : Nat) (regions : Regions) : Prop where
  ordered : regions.ranges.Pairwise fun earlier later => earlier.2 ≤ later.1
  covers : regions.ranges.flatMap positions = (positions (0, bytes.length)).filter fun position =>
    !inHole checksum certDir position && decide (position + certTableSize opt < bytes.length)
  fed : regions.fed bytes = some ((regions.ranges.flatMap positions).filterMap (bytes[·]?))
  padding : regions.overlayPadding =
    ((regions.ranges.flatMap positions).filter fun position => decide (rawEnd pe opt ≤ position)).length

theorem raw_end_bounds {length : Nat} (laid : Laid pe opt length) :
    opt.sizeOfHeaders ≤ rawEnd pe opt ∧ (rawEnd pe opt = opt.sizeOfHeaders ∨ rawEnd pe opt + certTableSize opt ≤ length) := by
  have step : ∀ (sections : List SectionTable) (last : Nat), (∀ entry ∈ sections, entry.stop + certTableSize opt ≤ length) →
      last ≤ sections.foldl (fun last entry => max last entry.stop) last ∧
        (sections.foldl (fun last entry => max last entry.stop) last = last ∨
          sections.foldl (fun last entry => max last entry.stop) last + certTableSize opt ≤ length) := by
    intro sections
    induction sections with
    | nil => exact fun last _ => ⟨le_rfl, .inl rfl⟩
    | cons entry rest ih =>
        intro last before
        obtain ⟨entryBefore, restBefore⟩ := List.forall_mem_cons.mp before
        obtain ⟨grows, ends⟩ := ih (max last entry.stop) restBefore
        rw [List.foldl_cons]
        refine ⟨le_trans (Nat.le_max_left _ _) grows, ?_⟩
        rcases ends with same | inside
        · rw [same]
          rcases Nat.le_total entry.stop last with small | large
          · exact .inl (Nat.max_eq_left small)
          · rw [Nat.max_eq_right large]
            exact .inr entryBefore
        · exact .inr inside
  exact step (rawSections pe) opt.sizeOfHeaders laid.beforeTable

theorem derive_regions_tile (regions : Regions)
    (headers : pe.optionalHeader = some opt) (addressable : bytes.length ≤ maxU64) (laid : Laid pe opt bytes.length)
    (derived : deriveRegions pe bytes = some regions) :
    ∃ checksum certDir, checksumOffset pe.pePointer opt.magic = some checksum ∧
      dataDirectoryOffset pe.pePointer opt.magic certificateDirectory = some certDir ∧ checksum + 4 ≤ certDir ∧
      certDir + 8 ≤ opt.sizeOfHeaders ∧ opt.sizeOfHeaders ≤ bytes.length ∧
      Tiles (fun position => !inHole checksum certDir position) 0 (max (rawEnd pe opt) (bytes.length - certTableSize opt)) regions.ranges ∧
      regions.overlayPadding = max (rawEnd pe opt) (bytes.length - certTableSize opt) - rawEnd pe opt := by
  simp only [deriveRegions, headers, Option.bind_eq_bind, Option.bind_some, Option.bind_eq_some_iff] at derived
  obtain ⟨checksum, checksumAt, certDir, certDirAt, rest⟩ := derived
  refine ⟨checksum, certDir, checksumAt, certDirAt, ?_⟩
  split at rest
  · cases rest
  · next inside =>
      split at rest
      · cases rest
      · next inOrder =>
          obtain ⟨⟨ranges, last⟩, walked, final⟩ := Option.bind_eq_some_iff.mp rest
          have afterHeaders : ∀ entry ∈ byRawOffset pe.sections, opt.sizeOfHeaders ≤ entry.pointerToRawData := fun entry member =>
            laid.afterHeaders entry ((by_raw_offset_perm pe).mem_iff.mp member)
          have noHole : ∀ position, opt.sizeOfHeaders ≤ position → (!inHole checksum certDir position) = true := fun position beyond => by
            rw [in_hole_headers (by omega) (by omega) beyond]
            rfl
          obtain ⟨tiles, ends, _⟩ := section_ranges_tile bytes.length _ _ _ _
            (headers_tile (by omega) (by omega)) noHole (by_raw_offset_separated pe laid.apart)
            afterHeaders ranges last walked
          rw [raw_end_sorted] at ends
          subst ends
          obtain ⟨grows, endsEarly⟩ := raw_end_bounds pe opt laid
          refine ⟨by omega, by omega, by omega, ?_⟩
          have sum : bytes.length > saturatingAdd (rawEnd pe opt) (certTableSize opt) ↔
              bytes.length > rawEnd pe opt + certTableSize opt := by
            unfold saturatingAdd
            omega
          simp only [overlay, sum] at final
          by_cases trailing : bytes.length > rawEnd pe opt + certTableSize opt
          · rw [if_pos trailing, if_pos (by omega)] at final
            obtain rfl := Option.some.inj final
            have reach : max (rawEnd pe opt) (bytes.length - certTableSize opt) = bytes.length - certTableSize opt := by omega
            rw [reach]
            refine ⟨tiles_append _ tiles (tiles_range _ (by omega) fun position above _ => noHole position ?_)
              (Nat.zero_le _) (by omega), rfl⟩
            exact le_trans grows above
          · rw [if_neg trailing] at final
            obtain rfl := Option.some.inj final
            have reach : max (rawEnd pe opt) (bytes.length - certTableSize opt) = rawEnd pe opt := by omega
            rw [reach]
            exact ⟨tiles, (Nat.sub_self _).symm⟩

def sampleHeader (certificateTable : Option Nat) : OptionalHeader := { magic := 0x10b, sizeOfHeaders := 512, certificateTable }

def twoSections : Pe :=
  { pePointer := 64, optionalHeader := some (sampleHeader (some 8)), sections := [⟨520, 4⟩, ⟨0, 0⟩, ⟨512, 6⟩] }

def tableInHeaders : Pe := { pePointer := 64, optionalHeader := some (sampleHeader (some 8)), sections := [] }

end Filefacts.ImageHash
