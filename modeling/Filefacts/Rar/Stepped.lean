import Filefacts.Lib.Watermark
import Mathlib.Data.List.Basic
import Filefacts.Rar.Members

set_option autoImplicit false

-- The blocks a walk over an archive steps over, and how far it notes to have come.
namespace Filefacts.Rar

open Filefacts.Watermark (Step markOf Rising)

structure Stepped where
  member : Bool
  stop : Nat
  reach : Nat
  deriving DecidableEq, Repr

def Stepped.step (block : Stepped) : Step := ⟨block.reach, !block.member⟩

structure Noted where
  mark : Nat
  ends : List Nat

structure Keeps (stop : Nat) (before after : Noted) : Prop where
  mark : after.mark = before.mark
  ends : ∀ stop' ∈ after.ends, stop' ∈ before.ends ∨ stop' = stop

variable {before after : Noted}

theorem keeps_same (stop : Nat) (same : after = before) : Keeps stop before after := by
  subst same
  exact ⟨rfl, fun _ member => .inl member⟩

structure Lands (pos : Nat) (block : Option Stepped) (before after : Noted) : Prop where
  mark : after.mark = block.elim before.mark fun block => if block.member then before.mark else block.reach
  ends : ∀ stop ∈ after.ends, stop ∈ before.ends ∨ ∃ found, block = some found ∧ found.member = true ∧ stop = found.stop
  onward : ∀ found, block = some found → pos < found.reach

variable (pos : Nat) (bytes : List UInt8)

theorem lands_nothing (same : after = before) : Lands pos none before after := by
  subst same
  exact ⟨rfl, fun _ member => .inl member, nofun⟩

variable {reach : Nat} {middle : Noted}

theorem lands_plain (stop : Nat) (onward : pos < reach) (mark : after.mark = reach)
    (ends : after.ends = before.ends) : Lands pos (some ⟨false, stop, reach⟩) before after :=
  ⟨mark, fun _ member => .inl (ends ▸ member), fun _ found => by rw [← Option.some.inj found]; exact onward⟩

theorem lands_file {stop : Nat} (onward : pos < reach) (keeps : Keeps stop before after) :
    Lands pos (some ⟨true, stop, reach⟩) before after :=
  ⟨keeps.mark, fun stop' member => (keeps.ends stop' member).imp_right fun same => ⟨_, rfl, rfl, same⟩,
    fun _ found => by rw [← Option.some.inj found]; exact onward⟩

-- The walk goes on where the block is stepped over, and ends at no file.
structure Walks (pos : Nat) (block : Option Stepped) (before after : Noted) (next : Option Nat) : Prop where
  lands : Lands pos block before after
  next : ∀ later, next = some later → ∃ found, block = some found ∧ found.reach = later

theorem walks_on {found : Stepped} (lands : Lands pos (some found) before after) :
    Walks pos (some found) before after (some found.reach) :=
  ⟨lands, fun _ same => ⟨found, rfl, Option.some.inj same⟩⟩

theorem walks_over {block : Option Stepped} (lands : Lands pos block before after) : Walks pos block before after none := ⟨lands, nofun⟩

structure Marks (pos : Nat) (blocks : List Stepped) (before after : Noted) : Prop where
  rising : Rising pos (blocks.map Stepped.step)
  mark : after.mark = markOf before.mark (blocks.map Stepped.step)
  ends : ∀ stop ∈ after.ends, stop ∈ before.ends ∨ ∃ block ∈ blocks, block.member = true ∧ stop = block.stop

theorem marks_none (noted : Noted) : Marks pos [] noted noted := ⟨trivial, rfl, fun _ member => .inl member⟩

theorem step_moves (block : Stepped) (mark : Nat) :
    (if block.step.moves then block.step.stop else mark) = if block.member then mark else block.reach := by
  unfold Stepped.step
  cases block.member <;> rfl

theorem marks_next {block : Stepped} {blocks : List Stepped}
    (lands : Lands pos (some block) before middle) (rest : Marks block.reach blocks middle after) :
    Marks pos (block :: blocks) before after := by
  refine ⟨⟨lands.onward block rfl, rest.rising⟩, ?_, ?_⟩
  · rw [List.map_cons, markOf, step_moves, rest.mark, lands.mark, Option.elim_some]
  · intro stop there
    rcases rest.ends stop there with old | ⟨found, inside, isMember, ends⟩
    · rcases lands.ends stop old with older | ⟨found, same, isMember, ends⟩
      · exact .inl older
      · rw [Option.some.inj same]
        exact .inr ⟨found, List.mem_cons_self, isMember, ends⟩
    · exact .inr ⟨found, List.mem_cons_of_mem block inside, isMember, ends⟩

theorem marks_last (stepped : Nat → Option Stepped) (before after : Noted)
    (lands : Lands pos (stepped pos) before after) : Marks pos ([pos].filterMap stepped) before after := by
  rw [List.filterMap_cons, List.filterMap_nil]
  cases block : stepped pos with
  | none =>
      rw [block] at lands
      refine ⟨trivial, lands.mark, fun stop there => ?_⟩
      rcases lands.ends stop there with old | ⟨found, same, _⟩
      · exact .inl old
      · cases same
  | some block' =>
      rw [block] at lands
      exact marks_next pos lands (marks_none block'.reach after)

theorem marks_more {later : Nat} {starts : List Nat} {stepped : Nat → Option Stepped}
    (walks : Walks pos (stepped pos) before middle (some later)) (rest : Marks later (starts.filterMap stepped) middle after) :
    Marks pos ((pos :: starts).filterMap stepped) before after := by
  obtain ⟨found, block, reach⟩ := walks.next later rfl
  have lands := walks.lands
  subst reach
  rw [block] at lands
  rw [List.filterMap_cons, block]
  exact marks_next pos lands rest

-- The last block is no file, and the data behind the others ends where the walk
-- ended.
def Settled (blocks : List Stepped) : Prop :=
  ∀ last, blocks.getLast? = some last → last.member = false ∧ ∀ block ∈ blocks, block.member = false → block.stop ≤ last.reach

-- What a walk goes past is no more than the block, and all of a file.
def Within (block : Stepped) : Prop := block.reach ≤ block.stop ∧ (block.member = true → block.stop = block.reach)

theorem marks_cover_iff (blocks : List Stepped) (before after : Noted) (marks : Marks pos blocks before after)
    (below : before.mark ≤ pos) (within : ∀ block ∈ blocks, Within block) :
    (∀ block ∈ blocks, block.stop ≤ max after.mark pos) ↔ Settled blocks := by
  have mark : max after.mark pos = markOf pos (blocks.map Stepped.step) := by
    rw [marks.mark, Watermark.mark_floor _ before.mark pos below marks.rising]
  have lastStep : ∀ last, blocks.getLast? = some last → (blocks.map Stepped.step).getLast? = some last.step := by
    intro last ends
    rw [List.getLast?_map, ends, Option.map_some]
  have covers := Watermark.covers_iff (blocks.map Stepped.step) pos pos (Nat.le_refl pos) marks.rising
  rw [mark]
  constructor
  · intro stops last ends
    have reached : ∀ step ∈ blocks.map Stepped.step, step.stop ≤ markOf pos (blocks.map Stepped.step) := by
      intro step member
      obtain ⟨block, there, rfl⟩ := List.mem_map.mp member
      exact Nat.le_trans (within block there).1 (stops block there)
    have moves := covers.mp reached last.step (lastStep last ends)
    have plain : last.member = false := by
      unfold Stepped.step at moves
      simpa using moves
    refine ⟨plain, fun block there _ => ?_⟩
    have settled : markOf pos (blocks.map Stepped.step) = last.reach := Watermark.mark_moved _ pos (lastStep last ends) moves
    exact settled ▸ stops block there
  · intro settled block there
    cases ends : blocks.getLast? with
    | none =>
        rw [List.getLast?_eq_none_iff.mp ends] at there
        cases there
    | some last =>
        obtain ⟨plain, data⟩ := settled last ends
        have moves : last.step.moves = true := by
          unfold Stepped.step
          rw [plain]
          rfl
        have settled : markOf pos (blocks.map Stepped.step) = last.reach :=
          Watermark.mark_moved _ pos (lastStep last ends) moves
        cases isMember : block.member with
        | false =>
            rw [settled]
            exact data block there isMember
        | true =>
            rw [(within block there).2 isMember, settled]
            exact Watermark.rising_last _ pos marks.rising block.step last.step (List.mem_map_of_mem there) (lastStep last ends)

-- The blocks a RAR4 walk steps over.
-- ADD_SIZE, the data of a long block the walk does not know.
def addSize (bytes : List UInt8) (htype hflags start : Nat) : Nat :=
  if isOther htype && has hflags r4LongBlock then (readLe bytes 4 (start + 7)).1.getD 0 else 0

def stepped (bytes : List UInt8) (start : Nat) : Option Stepped :=
  let htype := (readLe bytes 1 (start + 2)).1.getD 0
  let hflags := (readLe bytes 2 (start + 3)).1.getD 0
  let headSize := (readLe bytes 2 (start + 5)).1.getD 0
  let headerEnd := start + headSize
  if headSize < 7 ∨ bytes.length < headerEnd then none
  else if htype = r4File ∨ htype = r4Newsub then
    (fileHead bytes hflags (start + 7)).map fun head =>
      ⟨true, min (headerEnd + head.packed) bytes.length, headerEnd + min head.packed (remaining bytes headerEnd)⟩
  else some ⟨false, min (headerEnd + addSize bytes htype hflags start) bytes.length, headerEnd⟩

def dataEnd (bytes : List UInt8) (member : Member) : Nat := min (member.dataOff + member.packed) bytes.length

def noted (bytes : List UInt8) (ar : Archive) : Noted := ⟨ar.endOffset, ar.members.map (dataEnd bytes)⟩

theorem noted_same (before after : Archive) (mark : after.endOffset = before.endOffset)
    (members : after.members = before.members) : noted bytes after = noted bytes before := by
  rw [noted, noted, mark, members]

def Takes (bytes : List UInt8) (stop : Nat) (before after : Archive) : Prop := Keeps stop (noted bytes before) (noted bytes after)

theorem takes_none (stop : Nat) (before after : Archive) (mark : after.endOffset = before.endOffset)
    (members : after.members = before.members) : Takes bytes stop before after :=
  keeps_same stop (noted_same bytes before after mark members)

theorem takes_after (stop : Nat) (before middle after : Archive) (mark : middle.endOffset = before.endOffset)
    (members : middle.members = before.members) (takes : Takes bytes stop middle after) : Takes bytes stop before after := by
  unfold Takes at takes ⊢
  rwa [noted_same bytes before middle mark members] at takes

theorem push_member_takes (stop : Nat) (ar : Archive) (member : Member) (ends : dataEnd bytes member = stop) :
    Takes bytes stop ar (pushMember ar member) := by
  unfold pushMember
  split
  · split
    · exact takes_none bytes _ ar _ rfl rfl
    · exact takes_none bytes _ ar _ rfl rfl
  · refine ⟨rfl, fun other there => ?_⟩
    obtain ⟨one, inside, rfl⟩ := List.mem_map.mp there
    rcases List.mem_append.mp inside with old | new
    · exact .inl (List.mem_map_of_mem old)
    · rw [List.mem_singleton.mp new]
      exact .inr ends

theorem push_stream_takes (stop : Nat) (ar : Archive) (member : Member) (ends : dataEnd bytes member = stop) :
    Takes bytes stop ar (pushStream ar member) := by
  simp only [pushStream]
  split
  · split
    · exact takes_none bytes _ ar _ rfl rfl
    · exact takes_none bytes _ ar _ rfl rfl
  · refine takes_after bytes _ ar _ _ ?_ ?_ (push_member_takes bytes stop _ _ ends)
    · rfl
    · rfl

theorem finish_file_takes (stop : Nat) (ar : Archive) (member : Member) (service : Bool)
    (ends : dataEnd bytes member = stop) : Takes bytes stop ar (finishFile ar member service) := by
  unfold finishFile
  cases service with
  | false =>
      simp only [Bool.false_eq_true, if_false]
      refine takes_after bytes _ ar _ _ ?_ ?_ (push_member_takes bytes stop _ member ends)
      · split <;> rfl
      · split <;> rfl
  | true =>
      simp only [if_true]
      split
      · exact takes_none bytes _ ar _ rfl rfl
      · split
        · exact takes_none bytes _ ar _ rfl rfl
        · split
          · exact takes_none bytes _ ar _ rfl rfl
          · split
            · exact takes_none bytes _ ar _ rfl rfl
            · split
              · refine takes_after bytes _ ar _ _ ?_ ?_ (push_stream_takes bytes stop _ member ends)
                · rfl
                · rfl
              · exact takes_none bytes _ ar _ rfl rfl

theorem skip_data_end (pos size : Nat) (ar : Archive) : (skipData bytes pos ar size).2.endOffset = ar.endOffset := by
  simp only [skipData]
  split <;> rfl

def Walked.later : Walked → Option Nat
  | .next pos _ => some pos
  | .done _ => none

def Steps (bytes : List UInt8) (pos : Nat) (block : Option Stepped) (ar : Archive) (walked : Walked) : Prop :=
  Walks pos block (noted bytes ar) (noted bytes walked.archive) walked.later

theorem steps_nothing (pos : Nat) (before after : Archive) (mark : after.endOffset = before.endOffset)
    (members : after.members = before.members) : Steps bytes pos none before (.done after) :=
  walks_over pos (lands_nothing pos (noted_same bytes before after mark members))

theorem lands_header (pos headerEnd stop : Nat) (before after : Archive) (further : pos < headerEnd)
    (mark : after.endOffset = headerEnd) (members : after.members = before.members) :
    Lands pos (some ⟨false, stop, headerEnd⟩) (noted bytes before) (noted bytes after) :=
  lands_plain pos stop further mark (congrArg (List.map (dataEnd bytes)) members)

theorem steps_file (pos stop reach : Nat) (before after : Archive) (onward : pos < reach)
    (takes : Takes bytes stop before after) : Steps bytes pos (some ⟨true, stop, reach⟩) before (.next reach after) :=
  walks_on pos (lands_file pos onward takes)

theorem file_block_steps (pos flags headerEnd : Nat) (service : Bool) (ar : Archive)
    (further : pos < headerEnd) (within : headerEnd ≤ bytes.length) :
    Steps bytes pos
      ((fileHead bytes flags (pos + 7)).map fun head =>
        ⟨true, min (headerEnd + head.packed) bytes.length, headerEnd + min head.packed (remaining bytes headerEnd)⟩)
      ar (fileBlock bytes pos flags headerEnd service ar) := by
  unfold fileBlock
  cases read : fileHead bytes flags (pos + 7) with
  | none => exact steps_nothing bytes pos ar ar rfl rfl
  | some head =>
      have onward : pos < headerEnd + min head.packed (remaining bytes headerEnd) := by omega
      simp only [Option.map_some]
      split
      · refine steps_file bytes pos _ _ ar _ onward (takes_none bytes _ ar _ ?_ ?_)
        · exact skip_data_end bytes headerEnd _ _
        · exact skip_data_members bytes headerEnd _ _
      · split
        · have taken : headerEnd + min head.packed (remaining bytes headerEnd) ≤ bytes.length := by
            unfold remaining
            omega
          rw [Bytes.get, if_pos ⟨by omega, taken⟩]
          refine steps_file bytes pos _ _ ar _ onward ?_
          refine takes_after bytes _ ar _ _ ?_ ?_ (finish_file_takes bytes _ _ _ service rfl)
          · rfl
          · rfl
        · refine steps_file bytes pos _ _ ar _ onward ?_
          refine takes_after bytes _ ar _ _ ?_ ?_ (finish_file_takes bytes _ _ _ service rfl)
          · exact skip_data_end bytes headerEnd _ _
          · exact skip_data_members bytes headerEnd _ _

theorem typed_block_steps (pos htype flags headerEnd stop : Nat) (ar : Archive)
    (further : pos < headerEnd) (within : headerEnd ≤ bytes.length) :
    Steps bytes pos
      (if htype = r4File ∨ htype = r4Newsub then
        (fileHead bytes flags (pos + 7)).map fun head =>
          ⟨true, min (headerEnd + head.packed) bytes.length, headerEnd + min head.packed (remaining bytes headerEnd)⟩
      else some ⟨false, stop, headerEnd⟩)
      ar (typedBlock bytes pos htype flags headerEnd ar) := by
  have over_ := fun after mark members => walks_over pos (lands_header bytes pos headerEnd stop ar after further mark members)
  have on_ := fun after mark members => walks_on pos (lands_header bytes pos headerEnd stop ar after further mark members)
  unfold typedBlock
  by_cases main : htype = r4Main
  · subst main
    rw [if_pos rfl, if_neg (by decide)]
    simp only [mainBlock]
    split
    · exact over_ _ rfl rfl
    · exact on_ _ rfl rfl
  · rw [if_neg main]
    by_cases file : htype = r4File ∨ htype = r4Newsub
    · rw [if_pos file, if_pos file]
      exact file_block_steps bytes pos flags headerEnd (htype = r4Newsub) ar further within
    · rw [if_neg file, if_neg file]
      split
      · exact over_ _ rfl rfl
      · simp only [otherBlock]
        split
        · exact over_ _ rfl rfl
        · exact on_ _ rfl rfl

theorem steps_checked (pos : Nat) (block : Option Stepped) (checked ar : Archive) (walked : Walked)
    (mark : checked.endOffset = ar.endOffset) (members : checked.members = ar.members)
    (steps : Steps bytes pos block checked walked) : Steps bytes pos block ar walked := by
  unfold Steps at steps ⊢
  rwa [noted_same bytes ar checked mark members] at steps

theorem read_le_inside (width pos : Nat) (inside : pos + width ≤ bytes.length) :
    readLe bytes width pos = (some ((readLe bytes width pos).1.getD 0), pos + width) := by
  rw [readLe, Bytes.arrayAt, if_pos inside]
  rfl

variable (crc32 : List UInt8 → Nat)

theorem walk_block_steps (bytes : List UInt8) (pos : Nat) (ar : Archive) (enough : ¬ remaining bytes pos < 7) :
    Steps bytes pos (stepped bytes pos) ar (walkBlock crc32 bytes pos ar) := by
  have room : pos + 7 ≤ bytes.length := by
    unfold remaining at enough
    omega
  unfold walkBlock stepped
  rw [read_le_inside bytes 2 pos (by omega)]
  simp only
  rw [read_le_inside bytes 1 (pos + 2) (by omega)]
  simp only
  rw [show pos + 2 + 1 = pos + 3 from rfl, read_le_inside bytes 2 (pos + 3) (by omega)]
  simp only
  rw [show pos + 3 + 2 = pos + 5 from rfl, read_le_inside bytes 2 (pos + 5) (by omega)]
  simp only [Option.getD_some]
  generalize (readLe bytes 2 (pos + 5)).1.getD 0 = headSize
  by_cases small : headSize < 7
  · rw [if_pos small, if_pos (.inl small)]
    exact steps_nothing bytes pos ar _ rfl rfl
  · rw [if_neg small]
    by_cases past : bytes.length < pos + headSize
    · rw [if_pos (.inr past), Bytes.get, if_neg fun both => absurd both.2 (Nat.not_le_of_lt past)]
      exact steps_nothing bytes pos ar _ rfl rfl
    · have whole : Bytes.get bytes (pos + 2) (pos + headSize) = some ((bytes.drop (pos + 2)).take (pos + headSize - (pos + 2))) :=
        if_pos ⟨by omega, by omega⟩
      rw [if_neg fun either => either.elim small past, whole]
      simp only
      refine steps_checked bytes pos _ _ ar _ ?_ ?_ (typed_block_steps bytes pos _ _ (pos + headSize) _ _ (by omega) (by omega))
      · split <;> rfl
      · split <;> rfl

theorem stepped_within (pos : Nat) (block : Stepped) (found : stepped bytes pos = some block) : Within block := by
  unfold stepped at found
  simp only at found
  split at found
  · cases found
  · next whole =>
      split at found
      · obtain ⟨head, _, rfl⟩ := Option.map_eq_some_iff.mp found
        have same : min (pos + (readLe bytes 2 (pos + 5)).1.getD 0 + head.packed) bytes.length =
            pos + (readLe bytes 2 (pos + 5)).1.getD 0 + min head.packed (remaining bytes (pos + (readLe bytes 2 (pos + 5)).1.getD 0)) := by
          unfold remaining
          omega
        exact ⟨Nat.le_of_eq same.symm, fun _ => same⟩
      · rw [← Option.some.inj found]
        refine ⟨?_, nofun⟩
        simp only
        omega

theorem walk_from_marks (bytes : List UInt8) (count pos : Nat) (ar : Archive) :
    Marks pos ((walkFrom crc32 bytes count pos ar).1.filterMap (stepped bytes)) (noted bytes ar)
      (noted bytes (walkFrom crc32 bytes count pos ar).2) := by
  induction count generalizing pos ar with
  | zero => exact marks_none pos _
  | succ count hypothesis =>
      rw [walkFrom]
      by_cases few : remaining bytes pos < 7
      · rw [if_pos few]
        exact marks_none pos _
      · rw [if_neg few]
        have steps := walk_block_steps crc32 bytes pos ar few
        cases walked : walkBlock crc32 bytes pos ar with
        | done after =>
            rw [walked] at steps
            exact marks_last pos (stepped bytes) _ _ steps.lands
        | next later after =>
            rw [walked] at steps
            exact marks_more pos steps (hypothesis later after)

end Filefacts.Rar
