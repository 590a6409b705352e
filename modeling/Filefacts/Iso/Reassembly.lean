import Filefacts.Iso.SuspNames

set_option autoImplicit false

namespace Filefacts.Iso

open Rar (Text fromUtf8Lossy utf8Len)
open Lossy (utf8 points Whole)

def freshEntry (path : Text) : Entry := ⟨path, none, none, none, none, none⟩

variable {name : Option (List Char)} {target : Option Target}

def Recording.area (recording : Recording name target) : List UInt8 := chainBytes recording.first recording.continued

def Recording.uses (recording : Recording name target) : List Use := usesOf recording.first recording.continued

def Reassembled (image : List UInt8) (walk : Walk) (entry : Entry) (path : Text) (recording : Recording name target) : Prop :=
  (parseSusp image recording.area walk entry path).2.altName = name.map points ∧
    (parseSusp image recording.area walk entry path).2.symlink = target.map Target.text

def Recording.NameUncut (recording : Recording name target) : Prop := ∀ part ∈ recording.uses.filterMap Use.part, Whole part

def TargetUncut (target : Option Target) : Prop := ∀ path, target = some path → path.Uncut

def NearCap (name : Option (List Char)) : Prop := ∃ text, name = some text ∧ maxAltNameLen ≤ utf8Len (points text) + 3

variable (recording : Recording name target)

theorem recorded_name (short : ∀ text, name = some text → utf8Len (points text) < maxAltNameLen) :
    (recording.NameUncut → namedBy (recording.uses.filterMap Use.part) = name.map points) ∧
      (namedBy (recording.uses.filterMap Use.part) = name.map points → recording.NameUncut ∨ NearCap name) := by
  cases name with
  | none =>
      have none := recording.noName rfl
      change recording.uses.filterMap Use.part = [] at none
      rw [none]
      refine ⟨fun _ => rfl, fun _ => .inl fun part member => ?_⟩
      rw [none] at member
      cases member
  | some text =>
      obtain ⟨parts, same⟩ := recording.parts text rfl
      refine ⟨named_whole text _ parts same (short text rfl), fun read => ?_⟩
      by_cases roomy : utf8Len (points text) + 3 < maxAltNameLen
      · exact .inl (named_cut text _ same roomy read)
      · exact .inr ⟨text, rfl, Nat.le_of_not_lt roomy⟩

theorem recorded_target (short : ∀ path, target = some path → utf8Len path.text < maxSymlinkLen) :
    linkedBy (recording.uses.filterMap Use.records) = target.map Target.text ↔ TargetUncut target := by
  cases target with
  | none =>
      have none := recording.noLink rfl
      change recording.uses.filterMap Use.records = [] at none
      rw [none]
      exact iff_of_true rfl fun path same => nomatch same
  | some path =>
      refine (linked_iff path _ (recording.records path rfl) (short path rfl)).trans ⟨fun uncut other same => ?_, fun uncut => uncut path rfl⟩
      exact Option.some.inj same ▸ uncut

-- The name and the target come back when no entry cuts a character of the name
-- and no component of the target is cut, and only then, but for a name that the
-- cap is about to cut.
theorem parse_susp_reassembles_iff (image : List UInt8) (walk : Walk) (path : Text) (recording : Recording name target)
    (placed : Placed image recording.continued) (affords : chainLength recording.continued ≤ walk.suspBudget)
    (nameShort : ∀ text, name = some text → utf8Len (points text) < maxAltNameLen)
    (targetShort : ∀ link, target = some link → utf8Len link.text < maxSymlinkLen) :
    (recording.NameUncut ∧ TargetUncut target → Reassembled image walk (freshEntry path) path recording) ∧
      (Reassembled image walk (freshEntry path) path recording →
        (recording.NameUncut ∨ NearCap name) ∧ TargetUncut target) := by
  obtain ⟨named, linked⟩ := parse_susp_names image recording.continued placed recording.first walk (freshEntry path) path
    recording.few affords
  obtain ⟨nameRead, nameOnly⟩ := recorded_name recording nameShort
  have targetRead := recorded_target recording targetShort
  change _ = (recording.uses.filterMap Use.part).foldl appendName none at named
  change _ = (recording.uses.filterMap Use.records).foldl appendLink none at linked
  rw [append_names] at named
  rw [append_links] at linked
  unfold Reassembled Recording.area
  rw [named, linked, targetRead]
  exact ⟨fun ⟨uncut, targetUncut⟩ => ⟨nameRead uncut, targetUncut⟩, fun ⟨read, targetUncut⟩ => ⟨nameOnly read, targetUncut⟩⟩

def firstWalk : Walk := ⟨false, false, false, 0, 64 * 1024 * 1024⟩

section Samples

def secondArea : Area := ⟨[.name false [0x62]], [], [], by decide, by decide, .inl (by decide)⟩

def pieceOf (pieces : List (List UInt8)) (text : List Char) (recorded : pieces.flatten = utf8 text) (nonempty : text ≠ [])
    (plain : '/' ∉ text) : Target :=
  ⟨true, [.name ⟨text, pieces, recorded, nonempty, plain⟩], .inl rfl⟩

def shortTarget : Target := pieceOf [[0x78]] ['x'] (by decide) (by decide) (by decide)

def shortRecording : Recording (some ['a', 'b']) (some shortTarget) where
  first := ⟨[.name true [0x61], .link false shortTarget.records], [.other (Bytes.ascii "TF") 1 [0x0E]], [], by decide, by decide,
    .inl (by decide)⟩
  continued := [(⟨0, 0, by decide, by decide⟩, secondArea)]
  few := by decide
  nameFlags := .inr ⟨1, by decide⟩
  linkFlags := .inr ⟨0, by decide⟩
  noName := nofun
  parts := fun text same => by
    obtain rfl := Option.some.inj same
    decide
  noLink := nofun
  records := fun path same => by
    obtain rfl := Option.some.inj same
    decide

theorem parse_susp_reassembles_iff_short :
    Reassembled (secondArea.bytes none) firstWalk (freshEntry []) [] shortRecording :=
  (parse_susp_reassembles_iff (secondArea.bytes none) firstWalk [] shortRecording ⟨by decide, by decide, trivial⟩ (by decide)
    (fun text same => by obtain rfl := Option.some.inj same; decide)
    (fun link same => by obtain rfl := Option.some.inj same; decide)).1 ⟨
      fun part member => by
        have either : part = [0x61] ∨ part = [0x62] := by
          have parts : shortRecording.uses.filterMap Use.part = [[0x61], [0x62]] := by decide
          rw [parts] at member
          simpa using member
        rcases either with rfl | rfl
        · exact ⟨['a'], by decide⟩
        · exact ⟨['b'], by decide⟩,
      fun path same => by
        obtain rfl := Option.some.inj same
        refine ⟨fun component member => ?_, fun record last _ => ?_⟩
        · obtain rfl := List.mem_singleton.mp member
          exact not_not.mpr (by decide)
        · have record_ : shortTarget.records.getLast? = some ⟨0x00, [0x78]⟩ := by decide
          rw [record_] at last
          obtain rfl := Option.some.inj last
          decide⟩

def cutTarget : Target := pieceOf [[0x61], [0x62]] ['a', 'b'] (by decide) (by decide) (by decide)

def cutRecording : Recording (some ['é']) (some cutTarget) where
  first := ⟨[.name true [0xC3], .name false [0xA9], .link false cutTarget.records], [], [], by decide, by decide, .inl (by decide)⟩
  continued := []
  few := by decide
  nameFlags := .inr ⟨1, by decide⟩
  linkFlags := .inr ⟨0, by decide⟩
  noName := nofun
  parts := fun text same => by
    obtain rfl := Option.some.inj same
    decide
  noLink := nofun
  records := fun path same => by
    obtain rfl := Option.some.inj same
    decide

theorem cut_character_and_component :
    (parseSusp [] cutRecording.area firstWalk (freshEntry []) []).2.altName = some [0xFFFD, 0xFFFD] ∧
      (parseSusp [] cutRecording.area firstWalk (freshEntry []) []).2.symlink = some (Rar.textOf "/a/b") ∧
        cutTarget.text = Rar.textOf "/ab" ∧ ¬ Reassembled [] firstWalk (freshEntry []) [] cutRecording := by
  have read : (parseSusp [] cutRecording.area firstWalk (freshEntry []) []).2.altName = some [0xFFFD, 0xFFFD] ∧
      (parseSusp [] cutRecording.area firstWalk (freshEntry []) []).2.symlink = some (Rar.textOf "/a/b") := by decide +kernel
  refine ⟨read.1, read.2, by decide +kernel, fun both => ?_⟩
  have name := both.1
  rw [read.1] at name
  revert name
  decide

end Samples

end Filefacts.Iso
