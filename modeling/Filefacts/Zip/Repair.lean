import Filefacts.Time
import Filefacts.Rar.Name
import Filefacts.Lib.Patch
import Mathlib.Data.List.Dedup

set_option autoImplicit false

namespace Filefacts.Zip

open Bytes
open Rar (Text fromUtf8Lossy)

def cdhFixedLen : Nat := 46

def lfhFixedLen : Nat := 30

def maxCommentLen : Nat := 65535

def eocdLen : Nat := 22

structure RawCdhEntry where
  name : Text
  crc32 : Nat
  uncompressedSize : Nat
  compressedSize : Nat
  parsedMtime : Option Int
  method : Nat
  flags : Nat
  host : Nat
  externalAttributes : Nat
  headerOffset : Nat
  centralHeaderOffset : Nat
  extra : Nat × Nat
  commentLen : Nat
deriving DecidableEq, Repr

structure RawDirectory where
  entries : List RawCdhEntry
  start : Nat
  archiveOffset : Nat
  eocd : Nat
deriving DecidableEq, Repr

def startsAt (bytes signature : List UInt8) (position : Nat) : Bool := signature.isPrefixOf (bytes.drop position)

-- The last signature in the window an end record can stand in.
def findEocd (bytes : List UInt8) : Option Nat :=
  if bytes.length < eocdLen then none
  else
    let scanStart := bytes.length - (maxCommentLen + eocdLen)
    (List.range' scanStart (bytes.length - scanStart)).reverse.find? (startsAt bytes [80, 75, 5, 6])

def readCdhEntry (header name : List UInt8) (position : Nat) : RawCdhEntry :=
  let u16At := fun offset => (u16le header offset).getD 0
  let u32At := fun offset => (u32le header offset).getD 0
  let nameEnd := position + cdhFixedLen + u16At 28
  { name := fromUtf8Lossy name
    crc32 := u32At 16
    uncompressedSize := u32At 24
    compressedSize := u32At 20
    parsedMtime := Time.dosDatetimeToUnix (u16At 14) (u16At 12)
    method := u16At 10
    flags := u16At 8
    host := (header[5]?.map UInt8.toNat).getD 0
    externalAttributes := u32At 38
    headerOffset := u32At 42
    centralHeaderOffset := position
    extra := (nameEnd, nameEnd + u16At 30)
    commentLen := u16At 32 }

-- Each record is longer than its fixed part, so there are no more records than bytes.
def scanRecords (bytes : List UInt8) : Nat → Nat → List RawCdhEntry
  | 0, _ => []
  | fuel + 1, position =>
      match get bytes position (position + cdhFixedLen) with
      | none => []
      | some header =>
          if !startsAt header [80, 75, 1, 2] 0 then []
          else
            let nameStart := position + cdhFixedLen
            match get bytes nameStart (nameStart + (u16le header 28).getD 0) with
            | none => []
            | some name =>
                let entry := readCdhEntry header name position
                entry :: scanRecords bytes fuel (entry.extra.2 + entry.commentLen)

def scanCentralDirectory (bytes : List UInt8) (cdStart : Nat) : List RawCdhEntry := scanRecords bytes bytes.length cdStart

def RawDirectory.localHeader (directory : RawDirectory) (entry : RawCdhEntry) : Option Nat :=
  checkedAdd entry.headerOffset directory.archiveOffset

def readRawDirectory (bytes : List UInt8) : Option RawDirectory := do
  let eocd ← findEocd bytes
  let cdSize ← u32le bytes (eocd + 12)
  let cdOffset ← u32le bytes (eocd + 16)
  if cdSize = 2 ^ 32 - 1 ∨ cdOffset = 2 ^ 32 - 1 then none
  let cdStart ← checkedSub eocd cdSize
  let (cdStart, archiveOffset) := match checkedSub cdStart cdOffset with
    | some archiveOffset => (cdStart, archiveOffset)
    | none => (cdOffset, 0)
  let entries := scanCentralDirectory bytes cdStart
  if entries = [] then none
  some ⟨entries, cdStart, archiveOffset, eocd⟩

open Bytes Patch

def localSignature : List UInt8 := [80, 75, 3, 4]

def localHeaderIntact (bytes : List UInt8) (directory : RawDirectory) (entry : RawCdhEntry) : Bool :=
  (directory.localHeader entry).any (startsAt bytes localSignature)

def fittingHeader (bytes : List UInt8) (directory : RawDirectory) (entry : RawCdhEntry) : Option Nat :=
  (directory.localHeader entry).filter fun position => (checkedAdd position lfhFixedLen).any (· ≤ bytes.length)

def repairEntries (bytes : List UInt8) (directory : RawDirectory) :
    List RawCdhEntry → Option (List UInt8) → Nat → Option (List UInt8) × Nat
  | [], repaired, count => (repaired, count)
  | entry :: rest, repaired, count =>
      if localHeaderIntact bytes directory entry then repairEntries bytes directory rest repaired count
      else
        match fittingHeader bytes directory entry with
        | none => repairEntries bytes directory rest repaired count
        | some position =>
            let copy := repaired.getD bytes
            if position + 4 ≤ copy.length then
              repairEntries bytes directory rest (some (overwrite localSignature copy position)) (count + 1)
            else repairEntries bytes directory rest (some copy) count

def repairLocalHeaders (bytes : List UInt8) (directory : RawDirectory) : Option (List UInt8 × Nat) :=
  let (repaired, count) := repairEntries bytes directory directory.entries none 0
  repaired.map fun copy => (copy, count)

def brokenHeaders (bytes : List UInt8) (directory : RawDirectory) : List Nat :=
  (directory.entries.filter fun entry => !localHeaderIntact bytes directory entry).filterMap (fittingHeader bytes directory)

def pointedHeaders (bytes : List UInt8) (directory : RawDirectory) : List Nat :=
  directory.entries.filterMap (fittingHeader bytes directory)

variable (bytes : List UInt8) (directory : RawDirectory)

theorem fitting_fits {entry : RawCdhEntry} {position : Nat}
    (fitting : fittingHeader bytes directory entry = some position) :
    directory.localHeader entry = some position ∧ position + 30 ≤ bytes.length := by
  obtain ⟨points, fits⟩ := Option.filter_eq_some_iff.mp fitting
  refine ⟨points, ?_⟩
  rw [Option.any_eq_true] at fits
  obtain ⟨stop, added, inside⟩ := fits
  have sum := (checked_add_some _ _ _).mp added
  rw [decide_eq_true_eq] at inside
  rw [← sum.1, lfhFixedLen] at inside
  exact inside

theorem broken_fits (position : Nat) (broken : position ∈ brokenHeaders bytes directory) : position + 30 ≤ bytes.length := by
  obtain ⟨entry, _, fitting⟩ := List.mem_filterMap.mp broken
  exact (fitting_fits bytes directory fitting).2

theorem starts_at_iff (position : Nat) (inside : position + 4 ≤ bytes.length) :
    startsAt bytes localSignature position = true ↔ Stands localSignature bytes position := by
  rw [startsAt, List.isPrefixOf_iff_prefix, List.prefix_iff_getElem?]
  constructor
  · intro same offset below
    rw [← List.getElem?_drop]
    rw [same offset below, List.getElem?_eq_getElem below]
  · intro same offset below
    rw [List.getElem?_drop, same offset below, List.getElem?_eq_getElem below]

theorem repair_entries_eq (entries : List RawCdhEntry) :
    ∀ (repaired : Option (List UInt8)) (count : Nat), (repaired.getD bytes).length = bytes.length →
      repairEntries bytes directory entries repaired count =
        let broken := (entries.filter fun entry => !localHeaderIntact bytes directory entry).filterMap (fittingHeader bytes directory)
        (if broken = [] then repaired else some (overwriteAll localSignature broken (repaired.getD bytes)), count + broken.length) := by
  induction entries with
  | nil => exact fun repaired count _ => rfl
  | cons entry rest hypothesis =>
      intro repaired count length
      rw [repairEntries, List.filter_cons]
      cases intact : localHeaderIntact bytes directory entry with
      | true =>
          rw [if_pos rfl, hypothesis repaired count length]
          rfl
      | false =>
          simp only [Bool.not_false, if_true, List.filterMap_cons, Bool.false_eq_true, if_false]
          cases fitting : fittingHeader bytes directory entry with
          | none => exact hypothesis repaired count length
          | some position =>
              have fits := (fitting_fits bytes directory fitting).2
              have longer := overwrite_length localSignature
                (by rw [Fits, length]; exact Nat.le_trans (Nat.add_le_add_left (by decide) _) fits)
              dsimp only
              rw [if_pos (by omega), hypothesis _ (count + 1) (by rw [Option.getD_some, longer, length])]
              dsimp only
              rw [if_neg (List.cons_ne_nil _ _), Option.getD_some, List.length_cons]
              have moved : count + 1 + ((rest.filter fun entry => !localHeaderIntact bytes directory entry).filterMap
                  (fittingHeader bytes directory)).length = count + (((rest.filter fun entry =>
                    !localHeaderIntact bytes directory entry).filterMap (fittingHeader bytes directory)).length + 1) := by omega
              rw [moved]
              split
              · next none_ =>
                  rw [none_]
                  rfl
              · rfl

theorem repair_local_headers_eq : repairLocalHeaders bytes directory =
      if brokenHeaders bytes directory = [] then none
      else some (overwriteAll localSignature (brokenHeaders bytes directory) bytes, (brokenHeaders bytes directory).length) := by
  rw [repairLocalHeaders, repair_entries_eq bytes directory directory.entries none 0 rfl]
  dsimp only
  rw [← brokenHeaders, Nat.zero_add]
  split
  · rfl
  · rfl

theorem signature_unbordered : Unbordered localSignature := by
  intro shift positive below
  have cases_ : shift = 1 ∨ shift = 2 ∨ shift = 3 := by
    change shift < 4 at below
    omega
  rcases cases_ with rfl | rfl | rfl
  · exact ⟨0, by decide, by decide⟩
  · exact ⟨0, by decide, by decide⟩
  · exact ⟨0, by decide, by decide⟩

def memberEnd (bytes : List UInt8) (entry : RawCdhEntry) (position : Nat) : Nat :=
  position + lfhFixedLen + (u16le bytes (position + 26)).getD 0 + (u16le bytes (position + 28)).getD 0 + entry.compressedSize

def endRecordEnd (bytes : List UInt8) (directory : RawDirectory) : Nat :=
  directory.eocd + eocdLen + (u16le bytes (directory.eocd + 20)).getD 0

inductive Protected (bytes : List UInt8) (directory : RawDirectory) (index : Nat) : Prop
  | central (after : directory.start ≤ index) (before : index < directory.eocd)
  | endRecord (after : directory.eocd ≤ index) (before : index < endRecordEnd bytes directory)
  | member (entry : RawCdhEntry) (position : Nat) (listed : entry ∈ directory.entries)
      (intact : localHeaderIntact bytes directory entry = true) (points : directory.localHeader entry = some position)
      (after : position ≤ index) (before : index < memberEnd bytes entry position)

structure Faithful (bytes : List UInt8) (directory : RawDirectory) (copy : List UInt8) (count : Nat) : Prop where
  length : copy.length = bytes.length
  changed : ∀ index, copy[index]? ≠ bytes[index]? → ∃ entry ∈ directory.entries, ∃ position,
    directory.localHeader entry = some position ∧ position ≤ index ∧ index < position + 4
  kept : ∀ index, Protected bytes directory index → copy[index]? = bytes[index]?
  restored : ∀ position ∈ pointedHeaders bytes directory, startsAt copy localSignature position = true
  counted : count = (brokenHeaders bytes directory).dedup.length

structure Sound (bytes : List UInt8) (directory : RawDirectory) : Prop where
  once : (brokenHeaders bytes directory).Nodup
  apart : ∀ position ∈ brokenHeaders bytes directory, ∀ other ∈ pointedHeaders bytes directory,
    position = other ∨ position + 4 ≤ other ∨ other + 4 ≤ position
  clear : ∀ position ∈ brokenHeaders bytes directory, ∀ offset < 4, Protected bytes directory (position + offset) →
    bytes[position + offset]? = localSignature[offset]?

section Copy

variable (bytes : List UInt8) (directory : RawDirectory)

theorem broken_all_fit : ∀ position ∈ brokenHeaders bytes directory, Fits localSignature bytes position := by
  intro position broken
  have fits := broken_fits bytes directory position broken
  show position + 4 ≤ bytes.length
  omega

theorem broken_pointed : brokenHeaders bytes directory ⊆ pointedHeaders bytes directory := by
  intro position broken
  obtain ⟨entry, member, fitting⟩ := List.mem_filterMap.mp broken
  exact List.mem_filterMap.mpr ⟨entry, (List.mem_filter.mp member).1, fitting⟩

theorem pointed_inside (position : Nat) (pointed : position ∈ pointedHeaders bytes directory) : position + 30 ≤ bytes.length := by
  obtain ⟨entry, _, fitting⟩ := List.mem_filterMap.mp pointed
  exact (fitting_fits bytes directory fitting).2

theorem pointed_stands (position : Nat) (pointed : position ∈ pointedHeaders bytes directory) :
    position ∈ brokenHeaders bytes directory ∨ Stands localSignature bytes position := by
  obtain ⟨entry, member, fitting⟩ := List.mem_filterMap.mp pointed
  have points := fitting_fits bytes directory fitting
  cases intact : localHeaderIntact bytes directory entry with
  | true =>
      right
      rw [localHeaderIntact, points.1, Option.any_some] at intact
      exact (starts_at_iff bytes position (by omega)).mp intact
  | false =>
      left
      exact List.mem_filterMap.mpr ⟨entry, List.mem_filter.mpr ⟨member, by rw [intact]; rfl⟩, fitting⟩

theorem copy_length : (overwriteAll localSignature (brokenHeaders bytes directory) bytes).length = bytes.length :=
  overwrite_all_length localSignature bytes _ (broken_all_fit bytes directory)

theorem restored_iff :
    (∀ position ∈ pointedHeaders bytes directory,
      startsAt (overwriteAll localSignature (brokenHeaders bytes directory) bytes) localSignature position = true) ↔
      ∀ position ∈ brokenHeaders bytes directory, ∀ other ∈ pointedHeaders bytes directory,
        position = other ∨ position + 4 ≤ other ∨ other + 4 ≤ position := by
  have marks := stands_iff_apart localSignature signature_unbordered (broken_all_fit bytes directory) (broken_pointed bytes directory)
    (pointed_stands bytes directory)
  refine Iff.trans ?_ marks
  have reads : ∀ position ∈ pointedHeaders bytes directory,
      (startsAt (overwriteAll localSignature (brokenHeaders bytes directory) bytes) localSignature position = true ↔
        Stands localSignature (overwriteAll localSignature (brokenHeaders bytes directory) bytes) position) := by
    intro position pointed
    have inside := pointed_inside bytes directory position pointed
    exact starts_at_iff _ position (by rw [copy_length]; omega)
  exact forall₂_congr reads

theorem changed_broken (index : Nat)
    (differs : (overwriteAll localSignature (brokenHeaders bytes directory) bytes)[index]? ≠ bytes[index]?) :
    ∃ position ∈ brokenHeaders bytes directory, position ≤ index ∧ index < position + 4 := by
  by_contra none_
  apply differs
  apply overwrite_all_outside localSignature bytes _ (broken_all_fit bytes directory)
  intro position broken
  by_contra near
  refine none_ ⟨position, broken, ?_⟩
  change ¬ (index < position ∨ position + 4 ≤ index) at near
  omega

theorem dedup_length_iff (list : List Nat) : list.length = list.dedup.length ↔ list.Nodup := by
  constructor
  · intro same
    have whole := (List.dedup_sublist list).eq_of_length same.symm
    exact List.dedup_eq_self.mp whole
  · intro nodup
    rw [nodup.dedup]

theorem copy_faithful_iff :
    Faithful bytes directory (overwriteAll localSignature (brokenHeaders bytes directory) bytes)
      (brokenHeaders bytes directory).length ↔ Sound bytes directory := by
  have written : ∀ position ∈ brokenHeaders bytes directory,
      (∀ other ∈ pointedHeaders bytes directory, position = other ∨ position + 4 ≤ other ∨ other + 4 ≤ position) →
      Stands localSignature (overwriteAll localSignature (brokenHeaders bytes directory) bytes) position := by
    intro position broken apart
    refine overwrite_all_stands localSignature bytes _ (broken_all_fit bytes directory) position broken fun other member => ?_
    rcases apart other (broken_pointed bytes directory member) with same | below | above
    · exact .inl same.symm
    · exact .inr (.inr below)
    · exact .inr (.inl above)
  constructor
  · intro faithful
    have apart := (restored_iff bytes directory).mp faithful.restored
    refine ⟨(dedup_length_iff _).mp faithful.counted, apart, fun position broken offset below guarded => ?_⟩
    rw [← faithful.kept _ guarded]
    exact written position broken (apart position broken) offset below
  · intro sound
    refine ⟨copy_length bytes directory, fun index differs => ?_, fun index guarded => ?_,
      (restored_iff bytes directory).mpr sound.apart, (dedup_length_iff _).mpr sound.once⟩
    · obtain ⟨position, broken, after, before⟩ := changed_broken bytes directory index differs
      obtain ⟨entry, member, fitting⟩ := List.mem_filterMap.mp broken
      exact ⟨entry, (List.mem_filter.mp member).1, position, (fitting_fits bytes directory fitting).1, after, before⟩
    · by_contra differs
      obtain ⟨position, broken, after, before⟩ := changed_broken bytes directory index differs
      have reached : position + (index - position) = index := by omega
      have stands := written position broken (sound.apart position broken) (index - position) (by show _ < 4; omega)
      have same := sound.clear position broken (index - position) (by omega) (by rw [reached]; exact guarded)
      rw [reached] at stands same
      exact differs (stands.trans same.symm)

end Copy

theorem repair_local_headers_faithful_iff (bytes : List UInt8) (directory : RawDirectory) :
    (∀ copy count, repairLocalHeaders bytes directory = some (copy, count) → Faithful bytes directory copy count) ↔
      Sound bytes directory := by
  rw [repair_local_headers_eq]
  by_cases none_ : brokenHeaders bytes directory = []
  · rw [if_pos none_]
    refine iff_of_true (fun copy count repaired => by cases repaired) ⟨?_, ?_, ?_⟩
    · rw [none_]
      exact List.nodup_nil
    · rw [none_]
      exact fun position broken => absurd broken List.not_mem_nil
    · rw [none_]
      exact fun position broken => absurd broken List.not_mem_nil
  · rw [if_neg none_, ← copy_faithful_iff]
    constructor
    · exact fun all => all _ _ rfl
    · intro faithful copy count repaired
      obtain ⟨rfl, rfl⟩ := Prod.mk.inj (Option.some.inj repaired)
      exact faithful

def storedMember : List UInt8 :=
  localSignature ++ [20, 0, 0, 0, 0, 0, 0, 0, 33, 0, 0, 0, 0, 0, 1, 0, 0, 0, 1, 0, 0, 0, 1, 0, 0, 0, 97, 120]

def centralRecord (offset name : UInt8) : List UInt8 :=
  [80, 75, 1, 2, 20, 0, 20, 0, 0, 0, 0, 0, 0, 0, 33, 0, 0, 0, 0, 0, 1, 0, 0, 0, 1, 0, 0, 0, 1, 0, 0, 0, 0, 0, 0, 0, 0, 0, 0, 0, 0, 0,
    offset, 0, 0, 0, name]

def endRecord (size offset : UInt8) : List UInt8 := [80, 75, 5, 6, 0, 0, 0, 0, 2, 0, 2, 0, size, 0, 0, 0, offset, 0, 0, 0, 0, 0]

def decoyed : List UInt8 := storedMember ++ centralRecord 0 97 ++ centralRecord 2 98 ++ endRecord 94 32

theorem decoy_damages_intact_member :
    ¬ ∀ (bytes : List UInt8) (directory : RawDirectory) (copy : List UInt8) (count : Nat),
      readRawDirectory bytes = some directory → repairLocalHeaders bytes directory = some (copy, count) →
        Faithful bytes directory copy count := by
  intro all
  let entry : RawCdhEntry := ⟨[97], 0, 1, 1, some 315532800, 0, 0, 0, 0, 0, 32, (79, 79), 0⟩
  let decoy : RawCdhEntry := ⟨[98], 0, 1, 1, some 315532800, 0, 0, 0, 0, 2, 79, (126, 126), 0⟩
  have faithful := all decoyed ⟨[entry, decoy], 32, 0, 126⟩ (overwrite localSignature decoyed 2) 1 (by decide +kernel)
    (by decide +kernel)
  have kept := faithful.kept 2 (.member entry 0 List.mem_cons_self (by decide +kernel) (by decide +kernel) (by decide)
    (by decide +kernel))
  revert kept
  decide +kernel

end Filefacts.Zip
