import Filefacts.Rar.Walk5
import Filefacts.Rar.Stepped

set_option autoImplicit false

namespace Filefacts.Rar5

open Filefacts.Rar (Text Stepped Noted Keeps Lands Walks Marks Within maxArchiveMembers readLe remaining utf8Name textOf keeps_same
  lands_nothing lands_plain lands_file walks_on walks_over marks_none marks_last marks_more)

-- The data of an end marker is only gone past when all of it is there, and that
-- of the crypt block not at all.
def reachOf (bytes : List UInt8) (head : Head) (restEnd : Nat) : Nat :=
  let size := head.dataSize.getD 0
  if head.htype = head5Crypt then restEnd
  else if head.htype = head5End then if restEnd + size ≤ bytes.length then restEnd + size else restEnd
  else restEnd + min size (remaining bytes restEnd)

def steppedHead (bytes : List UInt8) (head : Head) (restEnd : Nat) : Stepped :=
  ⟨decide (head.htype = head5File ∨ head.htype = head5Service), min (restEnd + head.dataSize.getD 0) bytes.length,
    reachOf bytes head restEnd⟩

def stepped (bytes : List UInt8) (start : Nat) : Option Stepped :=
  match frame bytes start with
  | .error _ => none
  | .ok frame => (head bytes frame.typeAt).map fun head => steppedHead bytes head frame.restEnd

def dataEnd (bytes : List UInt8) (member : Member) : Option Nat :=
  member.dataOff.map fun off => min (off + member.packed.getD 0) bytes.length

def noted (bytes : List UInt8) (ar : Archive) : Noted := ⟨ar.endOffset, ar.members.filterMap (dataEnd bytes)⟩

variable (bytes : List UInt8) (stop : Nat) (ar : Archive) (member : Member) (pos : Nat)

theorem noted_same (before after : Archive) (mark : after.endOffset = before.endOffset)
    (members : after.members = before.members) : noted bytes after = noted bytes before := by
  rw [noted, noted, mark, members]

def Takes (bytes : List UInt8) (stop : Nat) (before after : Archive) : Prop := Keeps stop (noted bytes before) (noted bytes after)

theorem takes_none (before after : Archive) (mark : after.endOffset = before.endOffset)
    (members : after.members = before.members) : Takes bytes stop before after :=
  keeps_same stop (noted_same bytes before after mark members)

theorem takes_after (before middle after : Archive) (mark : middle.endOffset = before.endOffset)
    (members : middle.members = before.members) (takes : Takes bytes stop middle after) : Takes bytes stop before after := by
  unfold Takes at takes ⊢
  rwa [noted_same bytes before middle mark members] at takes

def EndsAt (bytes : List UInt8) (member : Member) (stop : Nat) : Prop := ∀ other, dataEnd bytes member = some other → other = stop

theorem push_member_takes (ends : EndsAt bytes member stop) : Takes bytes stop ar (pushMember ar member) := by
  unfold pushMember
  split
  · split
    · exact takes_none bytes _ ar _ rfl rfl
    · exact takes_none bytes _ ar _ rfl rfl
  · refine ⟨rfl, fun other there => ?_⟩
    obtain ⟨one, inside, isEnd⟩ := List.mem_filterMap.mp there
    rcases List.mem_append.mp inside with old | new
    · exact .inl (List.mem_filterMap.mpr ⟨one, old, isEnd⟩)
    · rw [List.mem_singleton.mp new] at isEnd
      exact .inr (ends other isEnd)

theorem push_stream_takes (data : Option (List UInt8))
    (ends : EndsAt bytes member stop) : Takes bytes stop ar (pushStream ar member data) := by
  simp only [pushStream]
  split
  · split
    · exact takes_none bytes _ ar _ rfl rfl
    · exact takes_none bytes _ ar _ rfl rfl
  · refine takes_after bytes _ ar _ _ ?_ ?_ (push_member_takes bytes stop _ _ ends)
    · rfl
    · rfl

theorem finish_file_takes (extra : Extra) (service : Bool)
    (ends : EndsAt bytes member stop) : Takes bytes stop ar (finishFile ar member extra service) := by
  have extended : EndsAt bytes (member.extended extra) stop := ends
  unfold finishFile
  cases service with
  | false =>
      simp only [Bool.false_eq_true, if_false]
      refine takes_after bytes _ ar _ _ ?_ ?_ (push_member_takes bytes stop _ _ extended)
      · split <;> rfl
      · split <;> rfl
  | true =>
      simp only [if_true]
      split
      · exact takes_none bytes _ ar _ rfl rfl
      · split
        · exact takes_none bytes _ ar _ rfl rfl
        · split
          · exact takes_none bytes _ ar _ rfl rfl
          · split
            · exact takes_none bytes _ ar _ rfl rfl
            · split
              · refine takes_after bytes _ ar _ _ ?_ ?_ (push_stream_takes bytes stop _ _ _ extended)
                · rfl
                · rfl
              · exact takes_none bytes _ ar _ rfl rfl

theorem file_member_ends (start restEnd : Nat) (head : Head) (file : FileHead) (name : Text) (attrs : Nat)
    (unix : Bool) :
    EndsAt bytes (applyAttrs (fileMember start restEnd head file name) attrs unix)
      (min (restEnd + head.dataSize.getD 0) bytes.length) := by
  intro other isEnd
  have there : (head.dataSize.map fun _ => restEnd).map (fun off => min (off + head.dataSize.getD 0) bytes.length) = some other := by
    rw [← isEnd]
    cases unix <;> rfl
  cases size : head.dataSize with
  | none =>
      rw [size] at there
      cases there
  | some size' =>
      rw [size] at there
      exact (Option.some.inj there).symm

theorem skip_data_end (size : Nat) (ar : Archive) : (skipData bytes pos ar size).2.endOffset = ar.endOffset := by
  simp only [skipData]
  split <;> rfl

theorem skip_data_members (size : Nat) (ar : Archive) : (skipData bytes pos ar size).2.members = ar.members := by
  simp only [skipData]
  split <;> rfl

theorem main_record_same (typ : Nat) (data : List UInt8) :
    (ar.main typ data).endOffset = ar.endOffset ∧ (ar.main typ data).members = ar.members := by
  unfold Archive.main
  split
  · exact ⟨rfl, rfl⟩
  · split
    · exact ⟨rfl, rfl⟩
    · exact ⟨rfl, rfl⟩

theorem main_extra_same (fuel pos : Nat) (ar : Archive) :
    (parseMainExtraFrom bytes fuel pos ar).endOffset = ar.endOffset ∧ (parseMainExtraFrom bytes fuel pos ar).members = ar.members := by
  induction fuel generalizing pos ar with
  | zero => exact ⟨rfl, rfl⟩
  | succ fuel hypothesis =>
      rw [parseMainExtraFrom]
      simp only
      split
      · exact ⟨rfl, rfl⟩
      · split
        · exact ⟨rfl, rfl⟩
        · split
          · exact ⟨rfl, rfl⟩
          · split
            · exact ⟨rfl, rfl⟩
            · obtain ⟨mark, members⟩ := hypothesis _ _
              obtain ⟨sameMark, sameMembers⟩ := main_record_same _ _ _
              exact ⟨mark.trans sameMark, members.trans sameMembers⟩

theorem main_extra_members (record : Option (List UInt8)) (wanted : Prop) [Decidable wanted] (ar : Archive) :
    (if wanted then record.elim ar fun extra => parseMainExtra extra ar else ar).members = ar.members := by
  split
  · cases record with
    | none => rfl
    | some extra => exact (main_extra_same extra _ 0 ar).2
  · rfl

def Walked.archive : Walked → Archive
  | .next _ ar => ar
  | .done ar => ar

def Walked.later : Walked → Option Nat
  | .next pos _ => some pos
  | .done _ => none

def Steps (bytes : List UInt8) (pos : Nat) (block : Option Stepped) (ar : Archive) (walked : Walked) : Prop :=
  Walks pos block (noted bytes ar) (noted bytes walked.archive) walked.later

theorem steps_nothing (before after : Archive) (mark : after.endOffset = before.endOffset)
    (members : after.members = before.members) : Steps bytes pos none before (.done after) :=
  walks_over pos (lands_nothing pos (noted_same bytes before after mark members))

theorem steps_checked (block : Option Stepped) (checked ar : Archive) (walked : Walked)
    (mark : checked.endOffset = ar.endOffset) (members : checked.members = ar.members)
    (steps : Steps bytes pos block checked walked) : Steps bytes pos block ar walked := by
  unfold Steps at steps ⊢
  rwa [noted_same bytes ar checked mark members] at steps

section Block

variable (bytes : List UInt8) (pos : Nat) (head : Head) (restEnd : Nat) (ar : Archive)

theorem skipped_reach (other : head.htype ≠ head5Crypt) (notEnd : head.htype ≠ head5End) :
    reachOf bytes head restEnd = restEnd + min (head.dataSize.getD 0) (remaining bytes restEnd) := by
  rw [reachOf, if_neg other, if_neg notEnd]

variable (stop reach : Nat) (after : Archive)

theorem steps_plain (onward : pos < reach) (mark : after.endOffset = reach)
    (members : after.members = ar.members) : Steps bytes pos (some ⟨false, stop, reach⟩) ar (.next reach after) :=
  walks_on pos (lands_plain pos stop onward mark (congrArg (List.filterMap (dataEnd bytes)) members))

theorem steps_last (onward : pos < reach) (mark : after.endOffset = reach)
    (members : after.members = ar.members) : Steps bytes pos (some ⟨false, stop, reach⟩) ar (.done after) :=
  walks_over pos (lands_plain pos stop onward mark (congrArg (List.filterMap (dataEnd bytes)) members))

theorem steps_file (onward : pos < reach) (takes : Takes bytes stop ar after) :
    Steps bytes pos (some ⟨true, stop, reach⟩) ar (.next reach after) :=
  walks_on pos (lands_file pos onward takes)

variable (further : pos < restEnd)

include further

theorem step_over_steps (stop : Nat) (checked : Archive) (members : checked.members = ar.members) :
    Steps bytes pos (some ⟨false, stop, restEnd + min (head.dataSize.getD 0) (remaining bytes restEnd)⟩) ar
      (stepOver bytes head restEnd checked) := by
  unfold stepOver
  cases head.dataSize with
  | none =>
      rw [Option.getD_none, Nat.zero_min]
      exact steps_plain bytes pos ar stop restEnd _ further rfl members
  | some size =>
      refine steps_plain bytes pos ar stop _ _ (by omega) rfl ?_
      exact (skip_data_members bytes restEnd size checked).trans members

theorem file_block_steps (within : restEnd ≤ bytes.length) (service : Bool) :
    Steps bytes pos (some ⟨true, min (restEnd + head.dataSize.getD 0) bytes.length,
      restEnd + min (head.dataSize.getD 0) (remaining bytes restEnd)⟩) ar (fileBlock bytes pos head restEnd service ar) := by
  have ends := fun file name attrs unix => file_member_ends bytes pos restEnd head file name attrs unix
  unfold fileBlock
  simp only
  cases size : head.dataSize with
  | none =>
      rw [size] at ends
      simp only [Option.elim_none, Option.getD_none, Nat.zero_min, Nat.add_zero]
      split
      · exact steps_file bytes pos ar _ restEnd _ further (takes_none bytes _ ar _ rfl rfl)
      · refine steps_file bytes pos ar _ restEnd _ further ?_
        refine takes_after bytes _ ar _ _ ?_ ?_ (finish_file_takes bytes _ _ _ _ service (ends _ _ _ _))
        · simp only [noteUnpackVersion]
          split <;> rfl
        · simp only [noteUnpackVersion]
          split <;> rfl
  | some size' =>
      rw [size] at ends
      have onward : pos < restEnd + min size' (remaining bytes restEnd) := by omega
      simp only [Option.elim_some, Option.getD_some]
      split
      · refine steps_file bytes pos ar _ _ _ onward (takes_none bytes _ ar _ ?_ ?_)
        · exact skip_data_end bytes restEnd size' _
        · exact skip_data_members bytes restEnd size' _
      · split
        · next body found =>
            have fits : restEnd + size' ≤ bytes.length := by
              split at found
              · rw [Bytes.get] at found
                split at found
                · next inside => exact inside.2
                · cases found
              · cases found
            have whole : min size' (remaining bytes restEnd) = size' := Nat.min_eq_left (by unfold remaining; omega)
            rw [whole] at onward ⊢
            refine steps_file bytes pos ar _ _ _ onward ?_
            refine takes_after bytes _ ar _ _ ?_ ?_ (finish_file_takes bytes _ _ _ _ service (ends _ _ _ _))
            · simp only [noteUnpackVersion]
              split <;> rfl
            · simp only [noteUnpackVersion]
              split <;> rfl
        · refine steps_file bytes pos ar _ _ _ onward ?_
          refine takes_after bytes _ ar _ _ ?_ ?_ (finish_file_takes bytes _ _ _ _ service (ends _ _ _ _))
          · refine (skip_data_end bytes restEnd size' _).trans ?_
            simp only [noteUnpackVersion]
            split <;> rfl
          · refine (skip_data_members bytes restEnd size' _).trans ?_
            simp only [noteUnpackVersion]
            split <;> rfl

theorem main_block_steps (stop : Nat) :
    Steps bytes pos (some ⟨false, stop, restEnd + min (head.dataSize.getD 0) (remaining bytes restEnd)⟩) ar
      (mainBlock bytes head restEnd ar) := by
  unfold mainBlock
  simp only
  refine step_over_steps bytes pos head restEnd ar further stop _ ?_
  exact main_extra_members _ _ _

theorem end_block_steps (stop : Nat) :
    Steps bytes pos (some ⟨false, stop,
      if restEnd + head.dataSize.getD 0 ≤ bytes.length then restEnd + head.dataSize.getD 0 else restEnd⟩) ar
      (endBlock bytes head restEnd ar) := by
  refine steps_last bytes pos ar stop _ _ ?_ ?_ rfl
  · split <;> omega
  · simp only
    cases head.dataSize with
    | none =>
        simp only [Option.getD_none, Option.bind_none, Nat.add_zero, ite_self]
    | some size =>
        simp only [Option.getD_some, Option.bind_some, Bytes.get]
        by_cases fits : restEnd + size ≤ bytes.length
        · rw [if_pos fits, if_pos ⟨Nat.le_add_right _ _, fits⟩]
          rfl
        · rw [if_neg fits, if_neg fun both => fits both.2]
          rfl

theorem other_block_steps (stop : Nat) :
    Steps bytes pos (some ⟨false, stop, restEnd + min (head.dataSize.getD 0) (remaining bytes restEnd)⟩) ar
      (otherBlock bytes head restEnd ar) := by
  unfold otherBlock
  simp only
  split
  · next stops =>
      rw [stops.2.2, Option.getD_none, Nat.zero_min]
      exact steps_last bytes pos ar stop restEnd _ further rfl rfl
  · exact step_over_steps bytes pos head restEnd ar further stop _ rfl

theorem typed_block_steps (within : restEnd ≤ bytes.length) :
    Steps bytes pos (some (steppedHead bytes head restEnd)) ar (typedBlock bytes pos head restEnd ar) := by
  unfold typedBlock steppedHead
  by_cases crypt : head.htype = head5Crypt
  · have plain : ¬ (head.htype = head5File ∨ head.htype = head5Service) := by
      rw [crypt]
      decide
    rw [if_pos crypt, decide_eq_false plain, reachOf, if_pos crypt]
    exact steps_last bytes pos ar _ restEnd _ further rfl rfl
  · rw [if_neg crypt]
    by_cases main : head.htype = head5Main
    · have plain : ¬ (head.htype = head5File ∨ head.htype = head5Service) := by
        rw [main]
        decide
      have notEnd : head.htype ≠ head5End := by
        rw [main]
        decide
      rw [if_pos main, decide_eq_false plain, skipped_reach bytes head restEnd crypt notEnd]
      exact main_block_steps bytes pos head restEnd ar further _
    · rw [if_neg main]
      by_cases file : head.htype = head5File ∨ head.htype = head5Service
      · have notEnd : head.htype ≠ head5End := by
          rcases file with same | same
          · rw [same]
            decide
          · rw [same]
            decide
        rw [if_pos file, decide_eq_true file, skipped_reach bytes head restEnd crypt notEnd]
        exact file_block_steps bytes pos head restEnd ar further within _
      · rw [if_neg file, decide_eq_false file]
        by_cases ends : head.htype = head5End
        · rw [if_pos ends, reachOf, if_neg crypt, if_pos ends]
          exact end_block_steps bytes pos head restEnd ar further _
        · rw [if_neg ends, skipped_reach bytes head restEnd crypt ends]
          exact other_block_steps bytes pos head restEnd ar further _

end Block

theorem read_le_onward (width pos : Nat) : pos ≤ (readLe bytes width pos).2 := by
  unfold readLe
  split
  · exact Nat.le_refl pos
  · exact Nat.le_add_right pos width

theorem vint_from_onward (turns n shift pos : Nat) : pos ≤ (readVintFrom bytes turns n shift pos).2 := by
  induction turns generalizing n shift pos with
  | zero => exact Nat.le_refl pos
  | succ turns hypothesis =>
      rw [readVintFrom]
      cases bytes[pos]? with
      | none => exact Nat.le_refl pos
      | some b =>
          simp only
          split
          · exact Nat.le_succ pos
          · exact Nat.le_of_succ_le (hypothesis _ _ _)

theorem vint_onward : pos ≤ (readVint bytes pos).2 := vint_from_onward bytes 10 0 0 pos

theorem frame_inside {start : Nat} {found : Frame} (ok : frame bytes start = .ok found) :
    start < found.restEnd ∧ found.restEnd ≤ bytes.length := by
  unfold frame at ok
  simp only at ok
  split at ok
  · cases ok
  · next crc read =>
      split at ok
      · cases ok
      · split at ok
        · cases ok
        · split at ok
          · cases ok
          · split at ok
            · cases ok
            · next size inside =>
                cases ok
                have onward := vint_onward bytes (readLe bytes 4 start).2
                have past := read_le_onward bytes 4 start
                simp only
                omega

variable (crc32 : List UInt8 → Nat)

theorem walk_block_steps (bytes : List UInt8) (pos : Nat) (ar : Archive) :
    Steps bytes pos (stepped bytes pos) ar (walkBlock crc32 bytes pos ar) := by
  unfold walkBlock stepped
  cases framed : frame bytes pos with
  | error reason => exact steps_nothing bytes pos ar _ rfl rfl
  | ok frame =>
      obtain ⟨further, within⟩ := frame_inside bytes framed
      simp only
      cases head bytes frame.typeAt with
      | none =>
          refine steps_nothing bytes pos ar _ ?_ ?_
          · split <;> rfl
          · split <;> rfl
      | some head =>
          rw [Option.map_some]
          refine steps_checked bytes pos _ _ ar _ ?_ ?_ (typed_block_steps bytes pos head frame.restEnd _ further within)
          · split
            · split <;> rfl
            · split <;> rfl
          · split
            · split <;> rfl
            · split <;> rfl

theorem stepped_within (block : Stepped) (found : stepped bytes pos = some block) : Within block := by
  unfold stepped at found
  split at found
  · cases found
  · next frame framed =>
      obtain ⟨_, within⟩ := frame_inside bytes framed
      obtain ⟨head, _, rfl⟩ := Option.map_eq_some_iff.mp found
      have skipped : frame.restEnd + min (head.dataSize.getD 0) (remaining bytes frame.restEnd) =
          min (frame.restEnd + head.dataSize.getD 0) bytes.length := by
        unfold remaining
        omega
      refine ⟨?_, fun isMember => ?_⟩
      · unfold steppedHead reachOf
        simp only
        split
        · omega
        · split
          · split <;> omega
          · exact Nat.le_of_eq skipped
      · have file : head.htype = head5File ∨ head.htype = head5Service := of_decide_eq_true isMember
        have other : head.htype ≠ head5Crypt ∧ head.htype ≠ head5End := by
          rcases file with same | same
          · rw [same]
            decide
          · rw [same]
            decide
        exact skipped.symm.trans (skipped_reach bytes head frame.restEnd other.1 other.2).symm

theorem walk_from_marks (bytes : List UInt8) (count pos : Nat) (ar : Archive) :
    Marks pos ((walkFrom crc32 bytes count pos ar).1.filterMap (stepped bytes)) (noted bytes ar)
      (noted bytes (walkFrom crc32 bytes count pos ar).2) := by
  induction count generalizing pos ar with
  | zero => exact marks_none pos _
  | succ count hypothesis =>
      rw [walkFrom]
      by_cases empty : remaining bytes pos = 0
      · rw [if_pos empty]
        exact marks_none pos _
      · rw [if_neg empty]
        have steps := walk_block_steps crc32 bytes pos ar
        cases walked : walkBlock crc32 bytes pos ar with
        | done after =>
            rw [walked] at steps
            exact marks_last pos (stepped bytes) _ _ steps.lands
        | next later after =>
            rw [walked] at steps
            exact marks_more pos steps (hypothesis later after)

end Filefacts.Rar5

-- The offset behind which the bytes of an archive are trailing.
namespace Filefacts.Rar

def maxSfx : Nat := 1024 * 1024

def sig4 : List UInt8 := [0x52, 0x61, 0x72, 0x21, 0x1a, 0x07, 0x00]

def sig5 : List UInt8 := [0x52, 0x61, 0x72, 0x21, 0x1a, 0x07, 0x01, 0x00]

def findSignature (bytes : List UInt8) : Option (Nat × Nat) :=
  let hay := bytes.take (min bytes.length (maxSfx + sig5.length))
  (List.range (hay.length - (sig4.length - 1))).findSome? fun i =>
    if sig5.isPrefixOf (hay.drop i) then some (i, 5) else if sig4.isPrefixOf (hay.drop i) then some (i, 4) else none

-- The offsets of `extract`, with the blocks its walk stepped over and where the
-- data of each member ends.
structure Extracted where
  leading : Nat
  endOffset : Nat
  blocks : List Stepped
  memberEnds : List Nat
  deriving DecidableEq, Repr

variable (crc32 : List UInt8 → Nat)

def extract4 (bytes : List UInt8) (sigAt : Nat) : Extracted :=
  let afterSig := sigAt + sig4.length
  let ar := walkRar4 crc32 bytes afterSig (.empty sigAt)
  ⟨sigAt, max ar.endOffset afterSig, (headerStarts crc32 bytes afterSig (.empty sigAt)).filterMap (stepped bytes),
    ar.members.map (dataEnd bytes)⟩

def extract5 (bytes : List UInt8) (sigAt : Nat) : Extracted :=
  let afterSig := sigAt + sig5.length
  let ar := Rar5.walkRar5 crc32 bytes afterSig (.empty sigAt)
  ⟨sigAt, max ar.endOffset afterSig, (Rar5.headerStarts crc32 bytes afterSig (.empty sigAt)).filterMap (Rar5.stepped bytes),
    ar.members.filterMap (Rar5.dataEnd bytes)⟩

def extract (bytes : List UInt8) : Option Extracted :=
  (findSignature bytes).map fun found => if found.2 = 5 then extract5 crc32 bytes found.1 else extract4 crc32 bytes found.1

def Extracted.trailingFrom (out : Extracted) : Nat := max out.endOffset out.leading

def trailingBytes (bytes : List UInt8) (out : Extracted) : Nat := bytes.length - out.trailingFrom

def Covers (out : Extracted) : Prop := ∀ block ∈ out.blocks, block.stop ≤ out.trailingFrom

theorem marks_covers_iff {sigAt afterSig : Nat} {blocks : List Stepped} {after : Noted} (above : sigAt ≤ afterSig)
    (marks : Marks afterSig blocks ⟨sigAt, []⟩ after) (within : ∀ block ∈ blocks, Within block) :
    (∀ stop ∈ after.ends, ∃ block ∈ blocks, block.member = true ∧ stop = block.stop) ∧
      (Covers ⟨sigAt, max after.mark afterSig, blocks, after.ends⟩ ↔ Settled blocks) := by
  have covers := marks_cover_iff afterSig blocks _ after marks above within
  have trails : Extracted.trailingFrom ⟨sigAt, max after.mark afterSig, blocks, after.ends⟩ = max after.mark afterSig :=
    Nat.max_eq_left (Nat.le_trans above (Nat.le_max_right _ _))
  refine ⟨fun stop there => ?_, ?_⟩
  · rcases marks.ends stop there with old | found
    · cases old
    · exact found
  · rw [Covers, trails]
    exact covers

theorem extract4_covers_iff (bytes : List UInt8) (sigAt : Nat) :
    (∀ stop ∈ (extract4 crc32 bytes sigAt).memberEnds, ∃ block ∈ (extract4 crc32 bytes sigAt).blocks,
      block.member = true ∧ stop = block.stop) ∧
      (Covers (extract4 crc32 bytes sigAt) ↔ Settled (extract4 crc32 bytes sigAt).blocks) := by
  refine marks_covers_iff (Nat.le_add_right _ _)
    (walk_from_marks crc32 bytes maxBlocks (sigAt + sig4.length) (.empty sigAt)) ?_
  intro block there
  obtain ⟨start, _, found⟩ := List.mem_filterMap.mp there
  exact stepped_within bytes start block found

theorem extract5_covers_iff (bytes : List UInt8) (sigAt : Nat) :
    (∀ stop ∈ (extract5 crc32 bytes sigAt).memberEnds, ∃ block ∈ (extract5 crc32 bytes sigAt).blocks,
      block.member = true ∧ stop = block.stop) ∧
      (Covers (extract5 crc32 bytes sigAt) ↔ Settled (extract5 crc32 bytes sigAt).blocks) := by
  refine marks_covers_iff (Nat.le_add_right _ _)
    (Rar5.walk_from_marks crc32 bytes maxBlocks (sigAt + sig5.length) (.empty sigAt)) ?_
  intro block there
  obtain ⟨start, _, found⟩ := List.mem_filterMap.mp there
  exact Rar5.stepped_within bytes start block found

-- The end offset covers every block stepped over exactly if the last one is no
-- file; each listed member is such a block, so its data is then not trailing.
theorem end_offset_covers_iff (bytes : List UInt8) (out : Extracted) (extracted : extract crc32 bytes = some out) :
    (Covers out ↔ Settled out.blocks) ∧
      (∀ stop ∈ out.memberEnds, ∃ block ∈ out.blocks, block.member = true ∧ stop = block.stop) ∧
      (Covers out → ∀ stop ∈ out.memberEnds, trailingBytes bytes out ≤ bytes.length - stop) := by
  have both : (∀ stop ∈ out.memberEnds, ∃ block ∈ out.blocks, block.member = true ∧ stop = block.stop) ∧
      (Covers out ↔ Settled out.blocks) := by
    obtain ⟨found, _, made⟩ := Option.map_eq_some_iff.mp extracted
    rw [← made]
    split
    · exact extract5_covers_iff crc32 bytes found.1
    · exact extract4_covers_iff crc32 bytes found.1
  refine ⟨both.2, both.1, fun covers stop there => ?_⟩
  obtain ⟨block, inside, _, rfl⟩ := both.1 stop there
  exact Nat.sub_le_sub_left (covers block inside) bytes.length

def rar5Main : List UInt8 := [197, 26, 51, 50, 3, 1, 0, 0]

def rar5File : List UInt8 := [29, 189, 170, 142, 10, 2, 2, 2, 0, 2, 0, 0, 1, 1, 97, 104, 105]

def rar5End : List UInt8 := [25, 178, 58, 53, 3, 5, 0, 0]

theorem end_offset_covers_iff_ended :
    ∃ out, extract (fun _ => 0) (sig5 ++ rar5Main ++ rar5File ++ rar5End) = some out ∧ out.memberEnds = [33] ∧ Covers out := by
  have extracted : extract (fun _ => 0) (sig5 ++ rar5Main ++ rar5File ++ rar5End) =
      some ⟨0, 41, [⟨false, 16, 16⟩, ⟨true, 33, 33⟩, ⟨false, 41, 41⟩], [33]⟩ := by decide +kernel
  refine ⟨_, extracted, rfl, (end_offset_covers_iff (fun _ => 0) _ _ extracted).1.mpr fun last ends => ?_⟩
  rw [← Option.some.inj ends]
  exact ⟨rfl, by decide⟩

theorem unended_archive_trails : ∃ out, extract (fun _ => 0) (sig5 ++ rar5Main ++ rar5File) = some out ∧ ¬ Covers out ∧
    out.memberEnds = [33] ∧ trailingBytes (sig5 ++ rar5Main ++ rar5File) out = 17 := by
  have extracted : extract (fun _ => 0) (sig5 ++ rar5Main ++ rar5File) =
      some ⟨0, 16, [⟨false, 16, 16⟩, ⟨true, 33, 33⟩], [33]⟩ := by decide +kernel
  refine ⟨_, extracted, fun covers => ?_, rfl, rfl⟩
  have short := covers ⟨true, 33, 33⟩ (by decide)
  revert short
  decide

end Filefacts.Rar
