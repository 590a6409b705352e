import Mathlib.Data.List.Pairwise
import Filefacts.Iso.Merge
import Filefacts.Lib.Crossing

set_option autoImplicit false

namespace Filefacts.IsoTree

open Iso (sector Pvd claimOrder)
open Bytes (ascii saturatingAdd saturatingMul divCeil toAsciiLowercase)
open Crossing (Solid Apart Follows Crosses)

def maxSurfacedFiles : Nat := 512

def maxFileExtensions : Nat := 128

inductive Anomaly where
  | extentBeyondVolume
  | extentPastEof
  | nonContiguousExtent
  | symlinkEscapesImage
  | namespaceNameDivergence
  | overlappingExtents
deriving DecidableEq

-- `str::get(..n)` for an `n` up to the length: nothing where a character is cut.
def getTo (text : Text) (n : Nat) : Option Text :=
  if n = 0 ∨ n = text.length ∨ (text[n]?.any fun b => b < 0x80 || 0xC0 ≤ b) then some (text.take n) else none

def stem (name : Text) : Text := (toAsciiLowercase name).takeWhile (· ≠ 0x2E)

def diverges (first other : Text) : Bool :=
  let n := min (min first.length other.length) 6
  n == 0 || getTo first n != getTo other n

def divergentNames (names : List (Namespace × Text)) : Bool :=
  match names.map fun name => stem name.2 with
  | [] => false
  | first :: stems => stems.any (diverges first)

def extensionOf (path : Text) : Text :=
  let name := lastComponent path
  if 0x2E ∈ name then toAsciiLowercase (name.rtakeWhile (· ≠ 0x2E)) else []

def executableExtensions : List Text :=
  ["exe", "dll", "sys", "scr", "com", "pif", "cpl", "ocx", "efi", "msi", "msix", "appx", "msc", "so", "dylib", "bin", "elf", "out",
    "app"].map ascii

def scriptExtensions : List Text :=
  ["sh", "bash", "zsh", "ksh", "csh", "fish", "py", "pyc", "pyo", "pl", "pm", "rb", "js", "jse", "mjs", "cjs", "ps1", "psm1", "psd1",
    "bat", "cmd", "vbs", "vbe", "wsf", "wsh", "hta", "lua", "php"].map ascii

-- A target from the root, or with a component that goes up.
def escapes (target : Text) : Bool :=
  target.head? == some 0x2F || (target.splitOn 0x2F).any (· == [0x2E, 0x2E])

structure TreeFacts where
  fileCount : Nat
  directoryCount : Nat
  symlinkCount : Nat
  hiddenFileCount : Nat
  associatedFileCount : Nat
  setuidFileCount : Nat
  executableFileCount : Nat
  lnkFileCount : Nat
  totalFileBytes : Nat
  largestFileBytes : Nat
  maxDepth : Nat
  divergentNameCount : Nat
  extents : List (Nat × Nat)
  surfaced : List File
  extensions : List Text
  anomalies : List Anomaly

def noFacts : TreeFacts := ⟨0, 0, 0, 0, 0, 0, 0, 0, 0, 0, 0, 0, [], [], [], []⟩

def count (condition : Bool) : Nat := if condition then 1 else 0

def report (condition : Bool) (anomaly : Anomaly) : List Anomaly := if condition then [anomaly] else []

def endSector (file : File) : Nat := file.lba + divCeil file.size sector

def fileAnomalies (volumeSectors length : Nat) (file : File) : List Anomaly :=
  report (decide (0 < file.size ∧ volumeSectors < endSector file)) .extentBeyondVolume ++
    report (decide (0 < file.size ∧ length < saturatingAdd file.offset file.size)) .extentPastEof ++
    report (!file.contiguous) .nonContiguousExtent ++ report (file.symlink.any escapes) .symlinkEscapesImage

local instance lawfulText : LawfulBEq Text := inferInstance

def withExtension (extensions : List Text) (ext : Text) : List Text :=
  if ext ≠ [] ∧ ext ∉ extensions ∧ extensions.length < maxFileExtensions then extensions ++ [ext] else extensions

def treeStep (volumeSectors length : Nat) (facts : TreeFacts) (file : File) : TreeFacts :=
  if file.isDir then { facts with maxDepth := max facts.maxDepth file.depth, directoryCount := facts.directoryCount + 1 }
  else
    let ext := extensionOf file.path
    { fileCount := facts.fileCount + 1
      directoryCount := facts.directoryCount
      symlinkCount := facts.symlinkCount + count file.symlink.isSome
      hiddenFileCount := facts.hiddenFileCount + count file.hidden
      associatedFileCount := facts.associatedFileCount + count file.associated
      setuidFileCount := facts.setuidFileCount + count (file.mode.any fun mode => mode &&& 0o4000 != 0)
      executableFileCount := facts.executableFileCount + count (ext ∈ executableExtensions || ext ∈ scriptExtensions)
      lnkFileCount := facts.lnkFileCount + count (ext = ascii "lnk")
      totalFileBytes := saturatingAdd facts.totalFileBytes file.size
      largestFileBytes := max facts.largestFileBytes file.size
      maxDepth := max facts.maxDepth file.depth
      divergentNameCount := facts.divergentNameCount + count (divergentNames file.names)
      extents := if 0 < file.size then facts.extents ++ [(file.lba, endSector file)] else facts.extents
      surfaced := if facts.surfaced.length < maxSurfacedFiles then facts.surfaced ++ [file] else facts.surfaced
      extensions := withExtension facts.extensions ext
      anomalies := facts.anomalies ++ fileAnomalies volumeSectors length file }

def overlapping (extents : List (Nat × Nat)) : Bool :=
  let sorted := extents.insertionSort claimOrder
  (sorted.zip sorted.tail).any fun pair => decide (pair.2.1 < pair.1.2)

-- The facts, with the anomalies that are pushed, and the ratio of the largest file to
-- the declared octets as its two parts.
def emitTree (files : List File) (pvd : Pvd) (length : Nat) : TreeFacts × Option (Nat × Nat) :=
  let facts := files.foldl (treeStep pvd.volumeSpaceSectors length) noFacts
  let declared := saturatingMul pvd.volumeSpaceSectors sector
  ({ facts with
      extensions := facts.extensions.insertionSort fun one other => ¬ other < one
      anomalies := facts.anomalies ++ report (decide (0 < facts.divergentNameCount)) .namespaceNameDivergence ++
        report (overlapping facts.extents) .overlappingExtents },
    if 0 < declared then some (facts.largestFileBytes, declared) else none)

def listed (files : List File) : List File := files.filter fun file => !file.isDir && decide (0 < file.size)

def extentOf (file : File) : Nat × Nat := (file.lba, endSector file)

def place (file : File) : Nat × Nat := (file.lba, file.size)

def Sectors (file : File) (sector : Nat) : Prop := file.lba ≤ sector ∧ sector < endSector file

-- Two files at different places with a sector in common.
def Overlap (files : List File) : Prop :=
  ∃ one ∈ listed files, ∃ other ∈ listed files, place one ≠ place other ∧ ∃ sector, Sectors one sector ∧ Sectors other sector

theorem extent_solid (file : File) (filled : 0 < file.size) : Solid (extentOf file) := by
  have whole : 0 < divCeil file.size sector := by
    rw [divCeil, sector]
    omega
  exact Nat.lt_add_of_pos_right whole

theorem overlapping_iff (extents : List (Nat × Nat)) (solid : ∀ extent ∈ extents, Solid extent) :
    overlapping extents = true ↔ Crosses extents := by
  have total : Std.Total claimOrder := ⟨fun one other => by unfold claimOrder; omega⟩
  have trans : IsTrans (Nat × Nat) claimOrder := ⟨fun one two three first second => by unfold claimOrder at *; omega⟩
  have sorted : (extents.insertionSort claimOrder).Pairwise fun one other => one.1 ≤ other.1 :=
    (List.pairwise_insertionSort claimOrder extents).imp fun order => by
      rcases order with before | level
      · exact Nat.le_of_lt before
      · exact Nat.le_of_eq level.1
  have perm := List.perm_insertionSort claimOrder extents
  rw [← Crossing.crosses_perm _ _ perm, Crosses, Crossing.follows_of_apart _ sorted fun extent member =>
    solid extent (perm.mem_iff.mp member), ← Crossing.neighbours_follow _ sorted, overlapping, List.any_eq_true]
  simp only [Follows, not_forall, decide_eq_true_eq, Nat.not_le, exists_prop]

variable (volumeSectors length : Nat) (files : List File)

theorem tree_step_extents : ∀ facts : TreeFacts,
    (files.foldl (treeStep volumeSectors length) facts).extents = facts.extents ++ (listed files).map extentOf := by
  induction files with
  | nil => exact fun facts => (List.append_nil _).symm
  | cons file files ih =>
      intro facts
      rw [List.foldl_cons, ih, treeStep, listed, listed, List.filter_cons]
      cases kind : file.isDir with
      | true => rfl
      | false =>
          by_cases filled : 0 < file.size
          · simp only [Bool.false_eq_true, if_false, filled, decide_true, Bool.not_false, Bool.and_self, if_true, List.map_cons,
              extentOf, List.append_assoc, List.singleton_append]
          · simp only [Bool.false_eq_true, if_false, filled, decide_false, Bool.and_false]

theorem tree_step_anomalies : ∀ facts : TreeFacts, Anomaly.overlappingExtents ∉ facts.anomalies →
      Anomaly.overlappingExtents ∉ (files.foldl (treeStep volumeSectors length) facts).anomalies := by
  have others : ∀ file, Anomaly.overlappingExtents ∉ fileAnomalies volumeSectors length file := by
    intro file
    simp only [fileAnomalies, report, List.mem_append, not_or]
    refine ⟨⟨⟨?_, ?_⟩, ?_⟩, ?_⟩ <;> split <;> simp
  induction files with
  | nil => exact fun facts absent => absent
  | cons file files ih =>
      intro facts absent
      rw [List.foldl_cons]
      apply ih
      rw [treeStep]
      cases kind : file.isDir with
      | true => exact absent
      | false =>
          intro member
          rcases List.mem_append.mp member with earlier | here
          · exact absent earlier
          · exact others file here

theorem emit_tree_overlap (pvd : Pvd) (length : Nat) :
    Anomaly.overlappingExtents ∈ (emitTree files pvd length).1.anomalies ↔ overlapping ((listed files).map extentOf) = true := by
  have before := tree_step_anomalies pvd.volumeSpaceSectors length files noFacts List.not_mem_nil
  have extents := tree_step_extents pvd.volumeSpaceSectors length files noFacts
  rw [noFacts, List.nil_append, ← noFacts] at extents
  dsimp only [emitTree]
  rw [List.mem_append, List.mem_append, extents]
  have diverging : ∀ condition, Anomaly.overlappingExtents ∉ report condition .namespaceNameDivergence := by
    intro condition
    cases condition <;> simp [report]
  constructor
  · rintro ((earlier | names) | here)
    · exact absurd earlier before
    · exact absurd names (diverging _)
    · by_contra none_
      rw [report, if_neg none_] at here
      exact absurd here List.not_mem_nil
  · intro overlap
    rw [report, report, if_pos overlap]
    exact .inr List.mem_cons_self

theorem listed_solid (file : File) (member : file ∈ listed files) : Solid (extentOf file) := by
  have kept := (List.mem_filter.mp member).2
  rw [Bool.and_eq_true] at kept
  exact extent_solid file (of_decide_eq_true kept.2)

theorem sectors_iff {one other : File} (first : Solid (extentOf one)) (second : Solid (extentOf other)) :
    Apart (extentOf one) (extentOf other) ↔ ¬ ∃ sector, Sectors one sector ∧ Sectors other sector :=
  Crossing.apart_iff _ _ first second

theorem crosses_iff : Crosses ((listed files).map extentOf) ↔ ¬ ((listed files).map place).Nodup ∨ Overlap files := by
  rw [Crosses, not_iff_comm, not_or, not_not, List.pairwise_map, List.Nodup, List.pairwise_map]
  constructor
  · intro ⟨differ, never⟩
    refine differ.imp_of_mem fun {one other} member found apart => ?_
    rw [sectors_iff (listed_solid files one member) (listed_solid files other found)]
    exact fun common => never ⟨one, member, other, found, apart, common⟩
  · intro apart
    constructor
    · refine apart.imp_of_mem fun {one other} member found ends same => ?_
      rw [place, place, Prod.mk.injEq] at same
      have filled := listed_solid files one member
      rw [Solid, extentOf] at filled
      rw [Apart, extentOf, extentOf, endSector, endSector, ← same.1, ← same.2, or_self] at ends
      exact absurd filled (Nat.not_lt.mpr ends)
    · rintro ⟨one, member, other, found, differ, common⟩
      have symmetric : Std.Symm fun one other => Apart (extentOf one) (extentOf other) := ⟨fun _ _ => Crossing.apart_symmetric _ _⟩
      have ends := apart.forall member found fun same => differ (congrArg place same)
      rw [sectors_iff (listed_solid files one member) (listed_solid files other found)] at ends
      exact ends common

theorem emit_tree_overlap_iff (files : List File) (pvd : Pvd) (length : Nat) :
    (Anomaly.overlappingExtents ∈ (emitTree files pvd length).1.anomalies ↔ Overlap files) ↔
      (((listed files).map place).Nodup ∨ Overlap files) := by
  have solid : ∀ extent ∈ (listed files).map extentOf, Solid extent := List.forall_mem_map.mpr (listed_solid files)
  rw [emit_tree_overlap, overlapping_iff _ solid, crosses_iff]
  tauto

def linked (name : UInt8) : Entry := { blankEntry with path := [47, name], lba := 100, size := 2048 }

def hardLinks : List File := [fresh (linked 97), fresh (linked 98)]

theorem hard_links_reported : (mergeNamespaces [linked 97, linked 98]).1 = hardLinks ∧
    ¬ (Anomaly.overlappingExtents ∈ (emitTree hardLinks ⟨1000⟩ 2097152).1.anomalies ↔ Overlap hardLinks) := by
  constructor
  · decide +kernel
  · rw [emit_tree_overlap]
    have reported : overlapping ((listed hardLinks).map extentOf) = true := by decide +kernel
    intro same
    obtain ⟨one, member, other, found, differ, -⟩ := same.mp reported
    have places : ∀ file ∈ listed hardLinks, place file = (100, 2048) := by decide +kernel
    exact differ ((places one member).trans (places other found).symm)

end Filefacts.IsoTree
