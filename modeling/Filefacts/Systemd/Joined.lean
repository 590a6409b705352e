import Filefacts.Systemd.Severed
import Mathlib.Algebra.GroupWithZero.Nat

set_option autoImplicit false

namespace Filefacts.Systemd

open Trimmed (Blank trimStart trimEnd trim)
open Constraint (isWhitespace)

-- The proof that no white space may stand behind a joining backslash counts backslashes:
-- each line that waits for another loses one, and no other line does.
def pieceSlashes (pieces : List Text) : Nat := (pieces.map fun piece => piece.count '\\').sum

def slashes (groups : List (List Text)) : Nat := (groups.map pieceSlashes).sum

theorem slash_solid : isWhitespace '\\' = false := by decide

variable (piece : Text)

theorem piece_slashes_cons (rest : List Text) : pieceSlashes (piece :: rest) = piece.count '\\' + pieceSlashes rest := by
  rw [pieceSlashes, List.map_cons, List.sum_cons]
  rfl

variable (pending pieces : List Text) (line : Text) (lines : List Text)

theorem piece_slashes_concat : pieceSlashes (pending ++ [piece]) = pieceSlashes pending + piece.count '\\' := by
  rw [pieceSlashes, List.map_append, List.sum_append]
  rfl

theorem slashes_cons (rest : List (List Text)) : slashes (pieces :: rest) = pieceSlashes pieces + slashes rest := by
  rw [slashes, List.map_cons, List.sum_cons]
  rfl

theorem spaced_slashes : (spaced pieces).count '\\' = pieceSlashes pieces := by
  induction pieces with
  | nil => rfl
  | cons piece rest ih =>
      rw [← List.singleton_append, spaced_append, spaced_single, List.count_append, List.count_append,
        Trimmed.count_trim '\\' slash_solid, Trimmed.count_blank '\\' slash_solid [' '] space_blank, ih, List.singleton_append,
        piece_slashes_cons, Nat.add_zero]

theorem shown_slashes : (pushLogical [] (narrowed pieces)).flatten.count '\\' = pieceSlashes pieces := by
  rw [← spaced_slashes, ← Trimmed.count_trim '\\' slash_solid (spaced pieces)]
  change _ = (narrowed pieces).count '\\'
  rw [pushLogical]
  split_ifs with empty
  · rw [empty]
    rfl
  · rw [List.nil_append, List.flatten_cons, List.flatten_nil, List.append_nil]

theorem rendered_slashes (groups : List (List Text)) : (rendered groups).flatten.count '\\' = slashes groups := by
  induction groups with
  | nil => rfl
  | cons pieces rest ih =>
      rw [rendered_cons, List.flatten_append, List.count_append, shown_slashes, ih, slashes_cons]

theorem drop_last_slashes (segment : Text) (more : continues segment = true) :
    segment.dropLast.count '\\' + 1 = segment.count '\\' := by
  obtain ⟨front, rfl⟩ := continues_split segment more
  rw [List.dropLast_concat, List.count_append]
  rfl

theorem trimmed_slashes : (trimEnd isWhitespace line).count '\\' = line.count '\\' :=
  Trimmed.count_trim_end '\\' slash_solid line

def lineSlashes : List Text → Nat
  | [] => 0
  | line :: rest => (if isComment line then 0 else line.count '\\') + lineSlashes rest

def joins (waits : Text → Bool) : List Text → Nat
  | [] => 0
  | line :: rest => (if isComment line = false ∧ waits line = true then 1 else 0) + joins waits rest

def trimmedWaits (line : Text) : Bool := continues (trimEnd isWhitespace line)

theorem line_slashes_comment (rest : List Text) (comment : isComment line = true) :
    lineSlashes (line :: rest) = lineSlashes rest := by
  rw [lineSlashes, if_pos comment, Nat.zero_add]

theorem line_slashes_text (rest : List Text) (comment : isComment line = false) :
    lineSlashes (line :: rest) = line.count '\\' + lineSlashes rest := by
  rw [lineSlashes, if_neg (ne_true_of_eq_false comment)]

variable (waits : Text → Bool)

theorem joins_skipped {line : Text} (rest : List Text)
    (skipped : ¬(isComment line = false ∧ waits line = true)) : joins waits (line :: rest) = joins waits rest := by
  rw [joins, if_neg skipped, Nat.zero_add]

theorem joins_counted {line : Text} (rest : List Text) (comment : isComment line = false)
    (more : waits line = true) : joins waits (line :: rest) = 1 + joins waits rest := by
  rw [joins, if_pos ⟨comment, more⟩]

theorem blank_slashes (blank : Blank isWhitespace line) : line.count '\\' = 0 :=
  Trimmed.count_blank '\\' slash_solid line blank

theorem gathered_slashes :
    slashes (gathered pending lines) + joins trimmedWaits lines = pieceSlashes pending + lineSlashes lines := by
  induction lines generalizing pending with
  | nil => rfl
  | cons line rest ih =>
      have same := trimmed_slashes line
      rcases kind_of line with comment | ⟨comment, blank⟩ | ⟨comment, counted, -⟩ | ⟨comment, counted, -, -⟩
      · have skipped : ¬(isComment line = false ∧ trimmedWaits line = true) := fun both => absurd (comment.symm.trans both.1) (by decide)
        rw [gathered_skipped pending line rest (comment_skipped line comment), line_slashes_comment line rest comment,
          joins_skipped trimmedWaits rest skipped]
        exact ih pending
      · have empty : trimEnd isWhitespace line = [] := Trimmed.trim_end_blank line blank
        have skipped : ¬(isComment line = false ∧ trimmedWaits line = true) := by
          rw [trimmedWaits, empty]
          exact fun both => absurd both.2 (by decide)
        rw [gathered_skipped pending line rest (blank_skipped line blank), line_slashes_text line rest comment,
          joins_skipped trimmedWaits rest skipped, blank_slashes line blank, Nat.zero_add]
        exact ih pending
      all_goals
        rw [line_slashes_text line rest comment]
        cases more : trimmedWaits line with
        | true =>
            have lost := drop_last_slashes _ more
            have later := ih (pending ++ [(trimEnd isWhitespace line).dropLast])
            rw [piece_slashes_concat] at later
            rw [gathered_more pending line rest counted more, joins_counted trimmedWaits rest comment more]
            omega
        | false =>
            have later := ih []
            rw [pieceSlashes, List.map_nil, List.sum_nil] at later
            rw [gathered_last pending line rest counted more, slashes_cons, piece_slashes_concat,
              joins_skipped trimmedWaits rest fun both => absurd (more.symm.trans both.2) (by decide)]
            omega

theorem unit_slashes :
    slashes (unitLines pending lines) + joins continues lines = pieceSlashes pending + lineSlashes lines := by
  induction lines generalizing pending with
  | nil => rfl
  | cons line rest ih =>
      cases comment : isComment line with
      | true =>
          rw [unit_comment pending line rest comment, line_slashes_comment line rest comment,
            joins_skipped continues rest fun both => absurd (comment.symm.trans both.1) (by decide)]
          exact ih pending
      | false =>
          rw [line_slashes_text line rest comment]
          cases more : continues line with
          | true =>
              have lost := drop_last_slashes line more
              have later := ih (pending ++ [line.dropLast])
              rw [piece_slashes_concat] at later
              rw [unit_more pending line rest comment more, joins_counted continues rest comment more]
              omega
          | false =>
              have later := ih []
              rw [pieceSlashes, List.map_nil, List.sum_nil] at later
              rw [unit_last pending rest comment more, slashes_cons, piece_slashes_concat,
                joins_skipped continues rest fun both => absurd (more.symm.trans both.2) (by decide)]
              omega

theorem waits_trimmed (more : continues line = true) : trimmedWaits line = true := by
  rw [trimmedWaits, continues_trimmed line more]
  exact more

theorem joins_settled :
    joins continues lines ≤ joins trimmedWaits lines ∧ (joins trimmedWaits lines ≤ joins continues lines → Settled lines) := by
  induction lines with
  | nil => exact ⟨Nat.le_refl _, fun _ line member => nomatch member⟩
  | cons line rest ih =>
      obtain ⟨atMost, settles⟩ := ih
      by_cases waits : isComment line = false ∧ continues line = true
      · rw [joins_counted continues rest waits.1 waits.2,
          joins_counted trimmedWaits rest waits.1 (waits_trimmed line waits.2)]
        refine ⟨Nat.add_le_add_left atMost 1, fun equal => ?_⟩
        refine List.forall_mem_cons.mpr ⟨fun _ _ => continues_trimmed line waits.2, ?_⟩
        exact settles (Nat.le_of_add_le_add_left equal)
      · rw [joins_skipped continues rest waits]
        by_cases slack : isComment line = false ∧ trimmedWaits line = true
        · rw [joins_counted trimmedWaits rest slack.1 slack.2]
          refine ⟨atMost.trans (Nat.le_add_left _ _), fun equal => ?_⟩
          exact absurd (equal.trans atMost) (Nat.not_le.mpr (Nat.lt_add_of_pos_left Nat.zero_lt_one))
        · rw [joins_skipped trimmedWaits rest slack]
          refine ⟨atMost, fun equal => List.forall_mem_cons.mpr ⟨fun comment more => ?_, settles equal⟩⟩
          exact absurd ⟨comment, more⟩ slack

theorem rendered_settled (same : rendered (gathered [] lines) = rendered (unitLines [] lines)) : Settled lines := by
  have counted : slashes (gathered [] lines) = slashes (unitLines [] lines) := by
    rw [← rendered_slashes, ← rendered_slashes, same]
  have ours := gathered_slashes [] lines
  have theirs := unit_slashes [] lines
  exact (joins_settled lines).2 (by omega)

theorem logical_lines_iff (text : Text) :
    collectSystemdLogicalLines text = systemdLogicalLines text ↔ Settled (physicalLines text) ∧ ¬Severed (physicalLines text) := by
  rw [collectSystemdLogicalLines, collect_gathered, systemdLogicalLines]
  constructor
  · intro same
    have settled := rendered_settled (physicalLines text) same
    exact ⟨settled, (settled_rendered_iff (physicalLines text) settled).mp same⟩
  · rintro ⟨settled, whole⟩
    exact (settled_rendered_iff (physicalLines text) settled).mpr whole

def glued : Text := ['a', '=', 'b', '\\', '\n', '\n', 'c', '=', 'd']

theorem blank_line_glues : ¬∀ text, collectSystemdLogicalLines text = systemdLogicalLines text := by
  intro always
  exact absurd (always glued) (by decide +kernel)

end Filefacts.Systemd
