import Filefacts.Lib.Trimmed
import Filefacts.Constraint.Header

set_option autoImplicit false

namespace Filefacts.Systemd

open Trimmed (Blank trimStart trimEnd trim)
open Constraint (isWhitespace textLines)

abbrev Text := List Char

def physicalLines (text : Text) : List Text := (textLines text).map fun line => line.rdropWhile (· == '\r')

def isComment (line : Text) : Bool :=
  (trimStart isWhitespace line).head? == some '#' || (trimStart isWhitespace line).head? == some ';'

def continues (segment : Text) : Bool := (segment.rtakeWhile (· == '\\')).length % 2 == 1

structure Reading where
  lines : List Text
  current : Text
  continuing : Bool

def pushLogical (lines : List Text) (logical : Text) : List Text := if logical = [] then lines else lines ++ [logical]

def addLine (state : Reading) (line : Text) : Reading :=
  let trimmedStart := trimStart isWhitespace line
  if trimmedStart = [] ∨ isComment line = true then state
  else
    let segment := trimEnd isWhitespace (if state.continuing then trimmedStart else line)
    if continues segment then
      let piece := trimEnd isWhitespace segment.dropLast
      { state with current := state.current ++ piece ++ [' '], continuing := true }
    else
      ⟨pushLogical state.lines (trim isWhitespace (state.current ++ segment)), [], false⟩

def collectLines (lines : List Text) : List Text :=
  let state := lines.foldl addLine ⟨[], [], false⟩
  pushLogical state.lines (trim isWhitespace state.current)

def collectSystemdLogicalLines (text : Text) : List Text := collectLines (physicalLines text)

-- The service manager's reader: a comment is skipped wherever it stands, a line that ends in an
-- unescaped backslash waits for the next one, and any other line, a blank one too, ends the logical line.
def unitLines (pending : List Text) : List Text → List (List Text)
  | [] => [pending]
  | line :: rest =>
      if isComment line then unitLines pending rest
      else if continues line then unitLines (pending ++ [line.dropLast]) rest
      else (pending ++ [line]) :: unitLines [] rest

def narrowed (pieces : List Text) : Text := trim isWhitespace (pieces.flatMap fun piece => trim isWhitespace piece ++ [' '])

def rendered (groups : List (List Text)) : List Text := (groups.map narrowed).filter (· ≠ [])

def systemdLogicalLines (text : Text) : List Text := rendered (unitLines [] (physicalLines text))

-- The source's grouping of the physical lines, before it renders them.
def gathered (pending : List Text) : List Text → List (List Text)
  | [] => [pending]
  | line :: rest =>
      if trimStart isWhitespace line = [] ∨ isComment line = true then gathered pending rest
      else if continues (trimEnd isWhitespace line) then gathered (pending ++ [(trimEnd isWhitespace line).dropLast]) rest
      else (pending ++ [line]) :: gathered [] rest

theorem rendered_nil : rendered [] = [] := rfl

theorem rendered_cons (group : List Text) (rest : List (List Text)) :
    rendered (group :: rest) = pushLogical [] (narrowed group) ++ rendered rest := by
  rw [rendered, List.map_cons, pushLogical]
  by_cases empty : narrowed group = []
  · rw [if_pos empty, List.filter_cons_of_neg (by simp [empty])]
    rfl
  · rw [if_neg empty, List.filter_cons_of_pos (by simp [empty])]
    rfl

variable (lines pending : List Text) (state : Reading) (line : Text) (rest : List Text)

theorem push_logical_append (logical : Text) : pushLogical lines logical = lines ++ pushLogical [] logical := by
  rw [pushLogical, pushLogical]
  split_ifs
  · rw [List.append_nil]
  · rfl

def spaced (pieces : List Text) : Text := pieces.flatMap fun piece => trim isWhitespace piece ++ [' ']

theorem spaced_append (front back : List Text) : spaced (front ++ back) = spaced front ++ spaced back := List.flatMap_append

theorem spaced_single (piece : Text) : spaced [piece] = trim isWhitespace piece ++ [' '] :=
  List.flatMap_singleton _ piece

theorem space_blank : Blank isWhitespace [' '] := List.forall_mem_singleton.mpr rfl

theorem narrowed_concat (piece : Text) :
    narrowed (pending ++ [piece]) = trim isWhitespace (spaced pending ++ trim isWhitespace piece) := by
  change trim isWhitespace (spaced (pending ++ [piece])) = _
  rw [spaced_append, spaced_single, ← List.append_assoc, Trimmed.trim_append_white _ [' '] space_blank]

-- What the source keeps of the pieces of a pending line: some white space in front, and a space behind each.
structure Keeps (state : Reading) (pending : List Text) : Prop where
  current : ∃ lead, Blank isWhitespace lead ∧ state.current = lead ++ spaced pending
  started : state.continuing = false → pending = []

theorem drop_last_trim (lead body : Text) (leading : Blank isWhitespace lead) :
    trim isWhitespace (lead ++ body).dropLast = trim isWhitespace body.dropLast := by
  rcases List.eq_nil_or_concat body with rfl | ⟨front, last, rfl⟩
  · rw [List.append_nil, List.dropLast_nil]
    exact Trimmed.trim_blank _ fun c member => leading c (List.dropLast_subset lead member)
  · rw [List.concat_eq_append, ← List.append_assoc, List.dropLast_concat, List.dropLast_concat,
      Trimmed.trim_white_append lead front leading]

theorem blank_not_backslash (c : Char) (white : isWhitespace c = true) : (c == '\\') = false := by
  by_cases same : c = '\\'
  · subst same
    exact absurd white (by decide)
  · exact beq_false_of_ne same

theorem continues_lead {lead : Text} (body : Text) (leading : Blank isWhitespace lead) : continues (lead ++ body) = continues body := by
  have stops : lead.reverse.takeWhile (· == '\\') = [] := by
    cases found : lead.reverse with
    | nil => rfl
    | cons c rest =>
        have white := leading c (List.mem_reverse.mp (found ▸ List.mem_cons_self))
        exact List.takeWhile_cons_of_neg (ne_true_of_eq_false (blank_not_backslash c white))
  have run : (lead ++ body).rtakeWhile (· == '\\') = body.rtakeWhile (· == '\\') := by
    rw [List.rtakeWhile, List.rtakeWhile, List.reverse_append, List.takeWhile_append, stops, List.append_nil]
    split_ifs with whole
    · rw [(List.takeWhile_prefix _).eq_of_length whole]
    · rfl
  rw [continues, continues, run]

theorem segment_lead (pending : List Text) (keeps : Keeps state pending) (line : Text) :
    ∃ lead, Blank isWhitespace lead ∧ (pending = [] ∨ lead = []) ∧
      trimEnd isWhitespace (if state.continuing then trimStart isWhitespace line else line) = lead ++ trim isWhitespace line := by
  by_cases continuing : state.continuing = true
  · rw [if_pos continuing]
    exact ⟨[], List.forall_mem_nil _, Or.inr rfl, rfl⟩
  · rw [if_neg continuing]
    obtain ⟨lead, leading, split⟩ := @Trimmed.trim_end_lead _ isWhitespace line
    exact ⟨lead, leading, Or.inl (keeps.started (Bool.not_eq_true _ ▸ continuing)), split⟩

theorem lead_absorbed {pending : List Text} (keeps : Keeps state pending) {lead : Text} (rest : Text)
    (leading : Blank isWhitespace lead) (apart : pending = [] ∨ lead = []) :
    ∃ front, Blank isWhitespace front ∧ state.current ++ (lead ++ rest) = front ++ (spaced pending ++ rest) := by
  obtain ⟨first, blank, current⟩ := keeps.current
  rcases apart with rfl | rfl
  · refine ⟨first ++ lead, (Trimmed.blank_append first lead).mpr ⟨blank, leading⟩, ?_⟩
    rw [current, spaced, List.flatMap_nil, List.append_nil, List.nil_append, List.append_assoc]
  · exact ⟨first, blank, by rw [current, List.nil_append, List.append_assoc]⟩

def Counted (line : Text) : Prop := ¬(trimStart isWhitespace line = [] ∨ isComment line = true)

theorem trim_solid (solid : trimStart isWhitespace line ≠ []) :
    ∃ c rest, trim isWhitespace line = c :: rest ∧ isWhitespace c = false := by
  rcases @Trimmed.trim_start_head _ isWhitespace line with empty | ⟨c, rest, split, plain⟩
  · exact absurd empty solid
  · rw [trim, split]
    rcases List.prefix_cons_iff.mp (List.rdropWhile_prefix isWhitespace (c :: rest)) with empty | ⟨more, front, -⟩
    · exact absurd (List.rdropWhile_eq_nil_iff.mp empty c List.mem_cons_self) (ne_true_of_eq_false plain)
    · exact ⟨c, more, front, plain⟩

theorem no_lead (c : Char) (rest lead text : Text) (solid : isWhitespace c = false) (leading : Blank isWhitespace lead)
    (inside : lead ++ text <+: c :: rest) : lead = [] := by
  cases lead with
  | nil => rfl
  | cons first more =>
      obtain ⟨same, -⟩ := List.cons_prefix_cons.mp inside
      exact absurd (leading first List.mem_cons_self) (ne_true_of_eq_false (same ▸ solid))

theorem add_line_more (pending : List Text) (line : Text) (keeps : Keeps state pending) (counted : Counted line)
    (more : continues (trimEnd isWhitespace line) = true) :
    (addLine state line).lines = state.lines ∧ Keeps (addLine state line) (pending ++ [(trimEnd isWhitespace line).dropLast]) := by
  obtain ⟨lead, leading, apart, segment⟩ := segment_lead state pending keeps line
  obtain ⟨front, fronting, ended⟩ := @Trimmed.trim_end_lead _ isWhitespace line
  have runs : continues (lead ++ trim isWhitespace line) = true := by
    rw [continues_lead _ leading, ← continues_lead _ fronting, ← ended]
    exact more
  obtain ⟨before, blank, piece⟩ := @Trimmed.trim_end_lead _ isWhitespace (lead ++ trim isWhitespace line).dropLast
  have same : trim isWhitespace (lead ++ trim isWhitespace line).dropLast =
      trim isWhitespace (trimEnd isWhitespace line).dropLast := by
    rw [ended, drop_last_trim lead _ leading, drop_last_trim front _ fronting]
  have away : pending = [] ∨ before = [] := by
    refine apart.imp_right fun gone => ?_
    obtain ⟨c, rest, solid, plain⟩ := trim_solid line fun empty => counted (Or.inl empty)
    have inside : trimEnd isWhitespace (c :: rest).dropLast <+: c :: rest :=
      (List.rdropWhile_prefix _ _).trans (List.dropLast_prefix _)
    rw [gone, List.nil_append, solid] at piece
    rw [piece] at inside
    exact no_lead c rest before _ plain blank inside
  rw [addLine]
  simp only [if_neg counted, segment, if_pos runs]
  refine ⟨trivial, ?_, fun off => nomatch off⟩
  obtain ⟨first, firsts, current⟩ := lead_absorbed state keeps _ blank away
  refine ⟨first, firsts, ?_⟩
  rw [piece, same, current, spaced_append, spaced_single]
  simp only [List.append_assoc]

theorem add_line_last (pending : List Text) (line : Text) (keeps : Keeps state pending) (counted : Counted line)
    (last : continues (trimEnd isWhitespace line) = false) :
    addLine state line = ⟨pushLogical state.lines (narrowed (pending ++ [line])), [], false⟩ := by
  obtain ⟨lead, leading, apart, segment⟩ := segment_lead state pending keeps line
  obtain ⟨front, fronting, ended⟩ := @Trimmed.trim_end_lead _ isWhitespace line
  have stops : continues (lead ++ trim isWhitespace line) = false := by
    rw [continues_lead _ leading, ← continues_lead _ fronting, ← ended]
    exact last
  obtain ⟨first, firsts, current⟩ := lead_absorbed state keeps (trim isWhitespace line) leading apart
  rw [addLine]
  simp only [if_neg counted, segment, stops, Bool.false_eq_true, if_false, current]
  rw [Trimmed.trim_white_append first _ firsts, narrowed_concat]

theorem add_line_skipped (skipped : ¬Counted line) : addLine state line = state := by
  rw [addLine]
  exact if_pos (not_not.mp skipped)

theorem gathered_skipped (skipped : ¬Counted line) : gathered pending (line :: rest) = gathered pending rest := by
  rw [gathered, if_pos (not_not.mp skipped)]

theorem gathered_more (counted : Counted line) (more : continues (trimEnd isWhitespace line) = true) :
    gathered pending (line :: rest) = gathered (pending ++ [(trimEnd isWhitespace line).dropLast]) rest := by
  rw [gathered, if_neg counted, if_pos more]

theorem gathered_last (counted : Counted line) (last : continues (trimEnd isWhitespace line) = false) :
    gathered pending (line :: rest) = (pending ++ [line]) :: gathered [] rest := by
  rw [gathered, if_neg counted, if_neg (ne_true_of_eq_false last)]

theorem collect_from (pending : List Text) (keeps : Keeps state pending) :
    pushLogical (lines.foldl addLine state).lines (trim isWhitespace (lines.foldl addLine state).current) =
      state.lines ++ rendered (gathered pending lines) := by
  induction lines generalizing state pending with
  | nil =>
      obtain ⟨lead, leading, current⟩ := keeps.current
      rw [List.foldl_nil, gathered, rendered_cons, rendered_nil, List.append_nil, push_logical_append, current,
        Trimmed.trim_white_append lead _ leading]
      rfl
  | cons line rest ih =>
      rw [List.foldl_cons]
      by_cases counted : Counted line
      · cases more : continues (trimEnd isWhitespace line) with
        | true =>
            obtain ⟨lines, kept⟩ := add_line_more state pending line keeps counted more
            rw [ih _ _ kept, lines, gathered_more pending line rest counted more]
        | false =>
            have fresh : Keeps ⟨pushLogical state.lines (narrowed (pending ++ [line])), [], false⟩ [] :=
              ⟨⟨[], List.forall_mem_nil _, rfl⟩, fun _ => rfl⟩
            rw [add_line_last state pending line keeps counted more, ih _ [] fresh, gathered_last pending line rest counted more,
              rendered_cons, push_logical_append, List.append_assoc]
      · rw [add_line_skipped state line counted, gathered_skipped pending line rest counted]
        exact ih state pending keeps

theorem collect_gathered : collectLines lines = rendered (gathered [] lines) :=
  collect_from lines ⟨[], [], false⟩ [] ⟨⟨[], List.forall_mem_nil _, rfl⟩, fun _ => rfl⟩

end Filefacts.Systemd
