import Filefacts.Output.Values
import Mathlib.Data.List.Infix
import Mathlib.Data.List.TakeWhile

set_option autoImplicit false

namespace Filefacts.PythonComments

open Output (Text)

def pythonCommentRunMin : Nat := 32

structure RunState where
  lineStart : Nat
  prevEndedWithBackslash : Bool
  runStart : Nat
  runLastNl : Nat
  runCount : Nat
  normalized : Option Text
deriving DecidableEq, Repr

def newlinesFrom (base : Nat) : Text → List Nat
  | [] => []
  | c :: rest => if c = '\n' then base :: newlinesFrom (base + 1) rest else newlinesFrom (base + 1) rest

def blankFeeds (start stop : Nat) (buf : Text) : Text :=
  buf.mapIdx fun i c => if start ≤ i ∧ i < stop ∧ c = '\n' then ' ' else c

def flushRun (source : Text) (runStart runLastNl runCount : Nat) (out : Option Text) : Option Text :=
  if pythonCommentRunMin ≤ runCount then
    let buf := out.getD source
    if runStart ≤ runLastNl ∧ runLastNl ≤ buf.length then some (blankFeeds runStart runLastNl buf) else some buf
  else out

def withoutReturn (line : Text) : Text := if line.getLast? = some '\r' then line.dropLast else line

def isIndent (c : Char) : Bool := c = ' ' ∨ c = '\t'

def trimIndent (line : Text) : Text := line.dropWhile isIndent

def endsWithBackslash (line : Text) : Bool := (withoutReturn line).getLast? = some '\\'

def coalescible (prevEndedWithBackslash : Bool) (line : Text) : Bool :=
  let trimmedStart := trimIndent (withoutReturn line)
  !prevEndedWithBackslash && !endsWithBackslash line && trimmedStart.head? = some '#' &&
    !decide (['"', '"', '"'] <:+: trimmedStart) && !decide (['\'', '\'', '\''] <:+: trimmedStart)

def visitLine (source : Text) (state : RunState) (nl : Nat) : RunState :=
  let line := (source.drop state.lineStart).take (nl - state.lineStart)
  if coalescible state.prevEndedWithBackslash line then
    { state with
      lineStart := nl + 1
      prevEndedWithBackslash := endsWithBackslash line
      runStart := if state.runCount = 0 then state.lineStart else state.runStart
      runLastNl := nl
      runCount := state.runCount + 1 }
  else
    { state with
      lineStart := nl + 1
      prevEndedWithBackslash := endsWithBackslash line
      runCount := 0
      normalized := flushRun source state.runStart state.runLastNl state.runCount state.normalized }

def start : RunState :=
  { lineStart := 0, prevEndedWithBackslash := false, runStart := 0, runLastNl := 0, runCount := 0, normalized := none }

-- Blanking line feeds keeps text well formed.
def normalizePythonCommentRuns (source : Text) : Option Text :=
  let final := (newlinesFrom 0 source).foldl (visitLine source) start
  flushRun source final.runStart final.runLastNl final.runCount final.normalized

def parserSource (source : Text) : Text := (normalizePythonCommentRuns source).getD source

-- A line that is a comment from its first character that is no indentation.
def FullComment (line : Text) : Prop := ∃ indent body, line = indent ++ '#' :: body ∧ ∀ c ∈ indent, isIndent c = true

def terminated (lines : List Text) : Text := lines.flatMap fun line => line ++ ['\n']

def joined (lines : List Text) : Text := [' '].intercalate lines ++ ['\n']

structure CommentRun (lines : List Text) : Prop where
  long : pythonCommentRunMin ≤ lines.length
  whole : ∀ line ∈ lines, '\n' ∉ line
  comments : ∀ line ∈ lines, FullComment line

-- A text and the same with the lines of some runs in one.
inductive Coalesced : Text → Text → Prop where
  | tail (text : Text) (whole : '\n' ∉ text) : Coalesced text text
  | line (line rest rest' : Text) (whole : '\n' ∉ line) (after : Coalesced rest rest') :
      Coalesced (line ++ '\n' :: rest) (line ++ '\n' :: rest')
  | run (lines : List Text) (rest rest' : Text) (comments : CommentRun lines) (after : Coalesced rest rest') :
      Coalesced (terminated lines ++ rest) (joined lines ++ rest')

variable (base : Nat) (text : Text)

theorem newlines_line (line rest : Text) (whole : '\n' ∉ line) :
    newlinesFrom base (line ++ '\n' :: rest) = (base + line.length) :: newlinesFrom (base + line.length + 1) rest := by
  induction line generalizing base with
  | nil => exact if_pos rfl
  | cons c line ih =>
      have apart : c ≠ '\n' := fun same => whole (same ▸ List.mem_cons_self)
      rw [List.cons_append, newlinesFrom, if_neg apart, ih (base + 1) (fun member => whole (List.mem_cons_of_mem c member)),
        List.length_cons, Nat.add_right_comm, Nat.add_assoc base]

theorem newlines_tail (whole : '\n' ∉ text) : newlinesFrom base text = [] := by
  induction text generalizing base with
  | nil => rfl
  | cons c text ih =>
      have apart : c ≠ '\n' := fun same => whole (same ▸ List.mem_cons_self)
      rw [newlinesFrom, if_neg apart, ih (base + 1) (fun member => whole (List.mem_cons_of_mem c member))]

theorem first_line : '\n' ∉ text ∨ ∃ line rest, '\n' ∉ line ∧ text = line ++ '\n' :: rest := by
  by_cases whole : '\n' ∈ text
  · obtain ⟨line, rest, split, first⟩ := List.eq_append_cons_of_mem whole
    exact Or.inr ⟨line, rest, first, split⟩
  · exact Or.inl whole

theorem line_induction {motive : Text → Prop} (tail : ∀ text, '\n' ∉ text → motive text)
    (line : ∀ line rest, '\n' ∉ line → motive rest → motive (line ++ '\n' :: rest)) (text : Text) : motive text := by
  generalize size : text.length = n
  induction n using Nat.strong_induction_on generalizing text with
  | _ n ih =>
      rcases first_line text with whole | ⟨first, rest, whole, split⟩
      · exact tail text whole
      · have shorter : rest.length < n := by
          rw [← size, split, List.length_append, List.length_cons]
          omega
        rw [split]
        exact line first rest whole (ih rest.length shorter rest rfl)

variable (line : Text) (lines : List Text) (source settled : Text)

theorem without_return_append : ∃ back, line = withoutReturn line ++ back := by
  unfold withoutReturn
  by_cases carriage : line.getLast? = some '\r'
  · rw [if_pos carriage]
    obtain ⟨front, split⟩ := List.getLast?_eq_some_iff.mp carriage
    exact ⟨['\r'], by rw [split, List.dropLast_concat]⟩
  · rw [if_neg carriage]
    exact ⟨[], (List.append_nil line).symm⟩

theorem coalescible_comment (prevEndedWithBackslash : Bool) (line : Text) (comment : coalescible prevEndedWithBackslash line = true) :
    FullComment line := by
  simp only [coalescible, Bool.and_eq_true, decide_eq_true_eq] at comment
  obtain ⟨back, split⟩ := without_return_append line
  obtain ⟨body, starts⟩ := List.head?_eq_some_iff.mp comment.1.1.2
  refine ⟨(withoutReturn line).takeWhile isIndent, body ++ back, ?_, fun c member => List.mem_takeWhile_imp member⟩
  calc line = withoutReturn line ++ back := split
    _ = ((withoutReturn line).takeWhile isIndent ++ trimIndent (withoutReturn line)) ++ back := by
        rw [trimIndent, List.takeWhile_append_dropWhile]
    _ = (withoutReturn line).takeWhile isIndent ++ '#' :: (body ++ back) := by rw [starts, List.append_assoc, List.cons_append]

theorem terminated_append (front back : List Text) : terminated (front ++ back) = terminated front ++ terminated back :=
  List.flatMap_append

theorem terminated_cons : terminated (line :: lines) = line ++ '\n' :: terminated lines := by
  rw [terminated, List.flatMap_cons, List.append_assoc]
  rfl

theorem terminated_singleton : terminated [line] = line ++ ['\n'] := List.append_nil _

theorem coalesced_lines (rest rest' : Text) (whole : ∀ line ∈ lines, '\n' ∉ line) (after : Coalesced rest rest') :
    Coalesced (terminated lines ++ rest) (terminated lines ++ rest') := by
  induction lines with
  | nil => exact after
  | cons line lines ih =>
      have behind := ih fun other member => whole other (List.mem_cons_of_mem line member)
      rw [terminated_cons, List.append_assoc, List.append_assoc]
      exact Coalesced.line line _ _ (whole line List.mem_cons_self) behind

theorem terminated_intercalate (some : lines ≠ []) : terminated lines = ['\n'].intercalate lines ++ ['\n'] := by
  induction lines with
  | nil => exact absurd rfl some
  | cons line lines ih =>
      cases lines with
      | nil => rw [terminated_singleton, List.intercalate_singleton]
      | cons next lines =>
          rw [terminated_cons, ih (List.cons_ne_nil _ _), List.intercalate_cons_cons]
          simp only [List.append_assoc, List.cons_append, List.nil_append]

def blank (c : Char) : Char := if c = '\n' then ' ' else c

theorem blank_whole (whole : '\n' ∉ line) : line.map blank = line := by
  have kept : ∀ c ∈ line, blank c = c := by
    intro c member
    have apart : c ≠ '\n' := fun same => whole (same ▸ member)
    exact if_neg apart
  rw [List.map_congr_left kept, List.map_id']

theorem blank_intercalate (whole : ∀ line ∈ lines, '\n' ∉ line) :
    (['\n'].intercalate lines).map blank = [' '].intercalate lines := by
  induction lines with
  | nil => rfl
  | cons line lines ih =>
      have here := blank_whole line (whole line List.mem_cons_self)
      cases lines with
      | nil => rw [List.intercalate_singleton, List.intercalate_singleton, here]
      | cons next lines =>
          rw [List.intercalate_cons_cons, List.intercalate_cons_cons, List.map_append, List.map_append, here,
            ih fun other member => whole other (List.mem_cons_of_mem line member)]
          rfl

theorem map_idx_within (change : Nat → Char → Char) (same : Char → Char)
    (within : ∀ i c, i < text.length → change i c = same c) : text.mapIdx change = text.map same := by
  refine List.mapIdx_eq_iff.mpr fun i => ?_
  rw [List.getElem?_map]
  cases held : text[i]? with
  | none => rfl
  | some c =>
      obtain ⟨inside, -⟩ := List.getElem?_eq_some_iff.mp held
      rw [Option.map_some, Option.map_some, within i c inside]

theorem blank_feeds_between (front between back : Text) :
    blankFeeds front.length (front.length + between.length) (front ++ (between ++ back)) = front ++ (between.map blank ++ back) := by
  rw [blankFeeds, List.mapIdx_append, List.mapIdx_append]
  congr 1
  · refine (map_idx_within front _ id fun i c inside => ?_).trans (List.map_id _)
    exact if_neg fun all => by omega
  · congr 1
    · refine map_idx_within between _ blank fun i c inside => ?_
      by_cases feed : c = '\n'
      · rw [blank, if_pos feed, if_pos ⟨by omega, by omega, feed⟩]
      · rw [blank, if_neg feed, if_neg fun all => feed all.2.2]
    · refine (map_idx_within back _ id fun i c inside => ?_).trans (List.map_id _)
      exact if_neg fun all => by omega

variable {rest : Text} {state : RunState}

theorem flush_run_long {front : Text} {lines : List Text} {out : Option Text} (comments : CommentRun lines)
    (buf : out.getD source = front ++ (terminated lines ++ rest)) :
    flushRun source front.length (front.length + (['\n'].intercalate lines).length) lines.length out =
      some (front ++ (joined lines ++ rest)) := by
  have some_ : lines ≠ [] := fun nothing => by
    have long := comments.long
    rw [nothing] at long
    cases long
  have inside : front.length ≤ front.length + (['\n'].intercalate lines).length ∧
      front.length + (['\n'].intercalate lines).length ≤ (out.getD source).length := by
    rw [buf, terminated_intercalate lines some_, List.length_append, List.length_append, List.length_append]
    omega
  rw [flushRun, if_pos comments.long]
  rw [if_pos inside, buf, terminated_intercalate lines some_, List.append_assoc, blank_feeds_between,
    blank_intercalate lines comments.whole, joined, List.append_assoc]

-- The loop between two lines: text that is settled, an open run and the rest.
structure Open (source settled : Text) (lines : List Text) (rest : Text) (state : RunState) : Prop where
  stands : ∃ front, front.length = settled.length ∧ source = front ++ (terminated lines ++ rest)
  buf : state.normalized.getD source = settled ++ (terminated lines ++ rest)
  lineStart : state.lineStart = settled.length + (terminated lines).length
  count : state.runCount = lines.length
  run : lines ≠ [] → state.runStart = settled.length ∧ state.runLastNl = settled.length + (['\n'].intercalate lines).length
  whole : ∀ line ∈ lines, '\n' ∉ line
  comments : ∀ line ∈ lines, FullComment line

theorem joined_length (comments : CommentRun lines) : (joined lines).length = (terminated lines).length := by
  have some_ : lines ≠ [] := fun nothing => by
    have long := comments.long
    rw [nothing] at long
    cases long
  rw [joined, ← blank_intercalate lines comments.whole, terminated_intercalate lines some_, List.length_append, List.length_append,
    List.length_map]

theorem flush_open {lines : List Text} (opened : Open source settled lines rest state) :
    ∃ run, (flushRun source state.runStart state.runLastNl state.runCount state.normalized).getD source = settled ++ (run ++ rest) ∧
      run.length = (terminated lines).length ∧
      ∀ rest', Coalesced rest rest' → Coalesced (terminated lines ++ rest) (run ++ rest') := by
  rw [opened.count]
  by_cases long : pythonCommentRunMin ≤ lines.length
  · have some_ : lines ≠ [] := fun nothing => by
      rw [nothing] at long
      cases long
    have comments : CommentRun lines := ⟨long, opened.whole, opened.comments⟩
    obtain ⟨runStart, runLastNl⟩ := opened.run some_
    refine ⟨joined lines, ?_, joined_length lines comments, fun rest' after => Coalesced.run lines rest rest' comments after⟩
    rw [runStart, runLastNl, flush_run_long source comments opened.buf, Option.getD_some]
  · refine ⟨terminated lines, ?_, rfl, fun rest' after => coalesced_lines lines rest rest' opened.whole after⟩
    rw [flushRun, if_neg long, opened.buf]

theorem open_line {lines : List Text} {line : Text} (opened : Open source settled lines (line ++ '\n' :: rest) state) :
    (source.drop state.lineStart).take (state.lineStart + line.length - state.lineStart) = line := by
  obtain ⟨front, length, split⟩ := opened.stands
  rw [split, opened.lineStart, ← length, ← List.drop_drop, List.drop_left, List.drop_left, Nat.add_sub_cancel_left, List.take_left]

theorem terminated_line (line rest : Text) :
    terminated lines ++ (line ++ '\n' :: rest) = terminated (lines ++ [line]) ++ rest := by
  rw [terminated_append, terminated_singleton, List.append_assoc, List.append_assoc]
  rfl

theorem visit_comment {lines : List Text} {line : Text} (whole : '\n' ∉ line)
    (opened : Open source settled lines (line ++ '\n' :: rest) state)
    (comment : coalescible state.prevEndedWithBackslash line = true) :
    Open source settled (lines ++ [line]) rest (visitLine source state (state.lineStart + line.length)) := by
  have lineStart := opened.lineStart
  have longer : (terminated (lines ++ [line])).length = (terminated lines).length + (line.length + 1) := by
    rw [terminated_append, terminated_singleton, List.length_append, List.length_append, List.length_singleton]
  rw [visitLine]
  simp only [open_line source settled opened]
  rw [if_pos comment]
  constructor
  · obtain ⟨front, length, split⟩ := opened.stands
    exact ⟨front, length, by rw [split, terminated_line]⟩
  · exact opened.buf.trans (by rw [terminated_line])
  · dsimp only
    omega
  · dsimp only
    rw [opened.count, List.length_append, List.length_singleton]
  · intro some_
    have ended := congrArg List.length (terminated_intercalate (lines ++ [line]) some_)
    rw [List.length_append, List.length_singleton] at ended
    refine ⟨?_, by dsimp only; omega⟩
    dsimp only
    rw [opened.count]
    cases lines with
    | nil => exact (if_pos rfl).trans lineStart
    | cons first others => exact (if_neg (Nat.succ_ne_zero _)).trans (opened.run (List.cons_ne_nil _ _)).1
  · exact List.forall_mem_append.mpr ⟨opened.whole, List.forall_mem_singleton.mpr whole⟩
  · exact List.forall_mem_append.mpr ⟨opened.comments, List.forall_mem_singleton.mpr (coalescible_comment _ line comment)⟩

theorem visit_other {lines : List Text} {line : Text} (opened : Open source settled lines (line ++ '\n' :: rest) state)
    (other : coalescible state.prevEndedWithBackslash line ≠ true) :
    ∃ run, Open source (settled ++ (run ++ (line ++ ['\n']))) [] rest (visitLine source state (state.lineStart + line.length)) ∧
      ∀ rest', Coalesced (line ++ '\n' :: rest) rest' → Coalesced (terminated lines ++ (line ++ '\n' :: rest)) (run ++ rest') := by
  obtain ⟨run, flushed, length, coalesces⟩ := flush_open source settled opened
  have lineStart := opened.lineStart
  refine ⟨run, ?_, coalesces⟩
  rw [visitLine]
  simp only [open_line source settled opened]
  rw [if_neg other]
  constructor
  · obtain ⟨front, same, split⟩ := opened.stands
    refine ⟨front ++ (terminated lines ++ (line ++ ['\n'])), ?_, ?_⟩
    · simp only [List.length_append, same, length]
    · rw [split]
      simp only [List.append_assoc, List.cons_append, List.nil_append, terminated, List.flatMap_nil]
  · dsimp only
    rw [flushed]
    simp only [List.append_assoc, List.cons_append, List.nil_append, terminated, List.flatMap_nil]
  · have nothing : (terminated []).length = 0 := rfl
    simp only [List.length_append, length, List.length_singleton, nothing]
    omega
  · rfl
  · exact fun some_ => absurd rfl some_
  · exact List.forall_mem_nil _
  · exact List.forall_mem_nil _

theorem loop_coalesces (lines : List Text) (rest : Text) (state : RunState)
    (opened : Open source settled lines rest state) :
    ∃ after, (flushRun source ((newlinesFrom state.lineStart rest).foldl (visitLine source) state).runStart
        ((newlinesFrom state.lineStart rest).foldl (visitLine source) state).runLastNl
        ((newlinesFrom state.lineStart rest).foldl (visitLine source) state).runCount
        ((newlinesFrom state.lineStart rest).foldl (visitLine source) state).normalized).getD source = settled ++ after ∧
      Coalesced (terminated lines ++ rest) after := by
  induction rest using line_induction generalizing settled lines state with
  | tail rest whole =>
      rw [newlines_tail _ rest whole]
      obtain ⟨run, flushed, -, coalesces⟩ := flush_open source settled opened
      exact ⟨run ++ rest, flushed, coalesces rest (Coalesced.tail rest whole)⟩
  | line line rest whole ih =>
      have next : (visitLine source state (state.lineStart + line.length)).lineStart = state.lineStart + line.length + 1 := by
        rw [visitLine]
        split
        · rfl
        · rfl
      rw [newlines_line _ line rest whole, List.foldl_cons, ← next]
      by_cases comment : coalescible state.prevEndedWithBackslash line = true
      · obtain ⟨after, flushed, coalesces⟩ := ih settled (lines ++ [line]) _
          (visit_comment source settled whole opened comment)
        exact ⟨after, flushed, by rwa [terminated_line]⟩
      · obtain ⟨run, opened', coalesces⟩ := visit_other source settled opened comment
        obtain ⟨after, flushed, behind⟩ := ih _ [] _ opened'
        refine ⟨run ++ (line ++ '\n' :: after), ?_, coalesces _ (Coalesced.line line rest after whole behind)⟩
        rw [flushed]
        simp only [List.append_assoc, List.cons_append, List.nil_append]

theorem parser_source_coalesced : Coalesced source (parserSource source) := by
  have opened : Open source [] [] source start :=
    { stands := ⟨[], rfl, rfl⟩
      buf := rfl
      lineStart := rfl
      count := rfl
      run := fun some_ => absurd rfl some_
      whole := List.forall_mem_nil _
      comments := List.forall_mem_nil _ }
  obtain ⟨after, flushed, coalesces⟩ := loop_coalesces source [] [] source start opened
  rw [parserSource, normalizePythonCommentRuns]
  exact flushed ▸ coalesces

end Filefacts.PythonComments
