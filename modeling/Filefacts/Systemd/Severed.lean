import Filefacts.Systemd.Lines

set_option autoImplicit false

namespace Filefacts.Systemd

open Trimmed (Blank trimStart trimEnd trim)
open Constraint (isWhitespace)

def hasText (piece : Text) : Bool := !piece.all isWhitespace

-- Whether a logical line that waits for more has text so far.
def pendingText (pending : Bool) (line : Text) : Bool :=
  if isComment line then pending else if continues line then pending || hasText line.dropLast else false

-- Whether text follows before the logical line ends, were blank lines skipped.
def textFollows : List Text → Bool
  | [] => false
  | line :: rest =>
      if isComment line then textFollows rest
      else if continues line then hasText line.dropLast || textFollows rest
      else hasText line || textFollows rest

-- A blank line stands inside a continuation, with text of the joined line both before and behind it.
def SeveredFrom (pending : Bool) (lines : List Text) : Prop :=
  ∃ front blank back, lines = front ++ blank :: back ∧ Blank isWhitespace blank ∧
    front.foldl pendingText pending = true ∧ textFollows back = true

def Severed (lines : List Text) : Prop := SeveredFrom false lines

-- No white space stands behind an odd run of backslashes at a line's end.
def Settled (lines : List Text) : Prop :=
  ∀ line ∈ lines, isComment line = false → continues (trimEnd isWhitespace line) = true → trimEnd isWhitespace line = line

theorem has_text_iff (piece : Text) : hasText piece = false ↔ Blank isWhitespace piece := by
  rw [hasText, Bool.not_eq_false', List.all_eq_true]
  rfl

variable (line : Text) (pending lines : List Text)

theorem blank_start : trimStart isWhitespace line = [] ↔ Blank isWhitespace line := List.dropWhile_eq_nil_iff

theorem blank_uncommented (blank : Blank isWhitespace line) : isComment line = false := by
  rw [isComment, (blank_start line).mpr blank]
  rfl

theorem blank_stops (blank : Blank isWhitespace line) : continues line = false := by
  have lead := continues_lead [] blank
  rw [List.append_nil] at lead
  exact lead

theorem continues_split (more : continues line = true) : ∃ front, line = front ++ ['\\'] := by
  rcases List.eq_nil_or_concat line with rfl | ⟨front, last, rfl⟩
  · cases more
  · refine ⟨front, ?_⟩
    by_cases slash : last = '\\'
    · rw [slash, List.concat_eq_append]
    · rw [continues, List.concat_eq_append, List.rtakeWhile_concat_neg _ _ _ (by simpa using slash)] at more
      cases more

theorem continues_trimmed (more : continues line = true) : trimEnd isWhitespace line = line := by
  obtain ⟨front, rfl⟩ := continues_split line more
  exact List.rdropWhile_concat_neg _ _ _ (by decide)

theorem narrowed_blank : narrowed pending = [] ↔ ∀ piece ∈ pending, Blank isWhitespace piece := by
  rw [narrowed, Trimmed.trim_nil_iff]
  refine ⟨fun all piece member => ?_, fun all c member => ?_⟩
  · refine (Trimmed.blank_trim piece).mp fun c inside => all c ?_
    exact List.mem_flatMap.mpr ⟨piece, member, List.mem_append_left _ inside⟩
  · obtain ⟨piece, listed, inside⟩ := List.mem_flatMap.mp member
    exact (Trimmed.blank_append _ [' ']).mpr ⟨(Trimmed.blank_trim piece).mpr (all piece listed), space_blank⟩ c inside

theorem spaced_blank (pieces : List Text) (all : ∀ piece ∈ pieces, Blank isWhitespace piece) : Blank isWhitespace (spaced pieces) :=
  (Trimmed.trim_nil_iff _).mp ((narrowed_blank pieces).mpr all)

theorem narrowed_front (front pieces : List Text) (all : ∀ piece ∈ front, Blank isWhitespace piece) :
    narrowed (front ++ pieces) = narrowed pieces := by
  change trim isWhitespace (spaced (front ++ pieces)) = trim isWhitespace (spaced pieces)
  rw [spaced_append, Trimmed.trim_white_append _ _ (spaced_blank front all)]

theorem narrowed_back (pieces back : List Text) (all : ∀ piece ∈ back, Blank isWhitespace piece) :
    narrowed (pieces ++ back) = narrowed pieces := by
  change trim isWhitespace (spaced (pieces ++ back)) = trim isWhitespace (spaced pieces)
  rw [spaced_append, Trimmed.trim_append_white _ _ (spaced_blank back all)]

def voiced (pending : List Text) : Bool := pending.any hasText

theorem voiced_iff : voiced pending = false ↔ ∀ piece ∈ pending, Blank isWhitespace piece := by
  rw [voiced, List.any_eq_false]
  exact forall₂_congr fun piece _ => by rw [Bool.not_eq_true, has_text_iff]

theorem push_narrowed : (pushLogical [] (narrowed pending)).length = (voiced pending).toNat := by
  cases found : voiced pending with
  | false =>
      rw [(narrowed_blank pending).mpr ((voiced_iff pending).mp found), pushLogical, if_pos rfl]
      rfl
  | true =>
      have shown : narrowed pending ≠ [] := fun empty =>
        Bool.false_ne_true (((voiced_iff pending).mpr ((narrowed_blank pending).mp empty)).symm.trans found)
      rw [pushLogical, if_neg shown]
      rfl

theorem voiced_concat (piece : Text) : voiced (pending ++ [piece]) = (voiced pending || hasText piece) := by
  rw [voiced, List.any_append, List.any_cons, List.any_nil, Bool.or_false]
  rfl

-- The two readers' steps, on a comment, a blank line, a continued line and any other line.
inductive Kind (line : Text) : Prop where
  | comment (comment : isComment line = true)
  | blank (comment : isComment line = false) (blank : Blank isWhitespace line)
  | more (comment : isComment line = false) (counted : Counted line) (more : continues line = true)
  | last (comment : isComment line = false) (counted : Counted line) (more : continues line = false) (text : hasText line = true)

theorem kind_of : Kind line := by
  cases comment : isComment line with
  | true => exact .comment comment
  | false =>
      by_cases blank : Blank isWhitespace line
      · exact .blank comment blank
      · have counted : Counted line := by
          rintro (empty | commented)
          · exact blank ((blank_start line).mp empty)
          · exact Bool.false_ne_true (comment.symm.trans commented)
        cases more : continues line with
        | true => exact .more comment counted more
        | false => exact .last comment counted more (Bool.not_eq_false _ ▸ fun quiet => blank ((has_text_iff line).mp quiet))

theorem comment_skipped (comment : isComment line = true) : ¬Counted line := fun counted => counted (Or.inr comment)

theorem blank_skipped (blank : Blank isWhitespace line) : ¬Counted line :=
  fun counted => counted (Or.inl ((blank_start line).mpr blank))

theorem settled_tail {rest : List Text} (settled : Settled (line :: rest)) : Settled rest :=
  fun other member => settled other (List.mem_cons_of_mem _ member)

theorem settled_last (rest : List Text) (settled : Settled (line :: rest)) (comment : isComment line = false)
    (last : continues line = false) : continues (trimEnd isWhitespace line) = false := by
  cases more : continues (trimEnd isWhitespace line) with
  | false => rfl
  | true =>
      have same := settled line List.mem_cons_self comment more
      rw [same] at more
      exact more.symm.trans last

theorem gathered_continued {line : Text} (rest : List Text) (counted : Counted line)
    (more : continues line = true) : gathered pending (line :: rest) = gathered (pending ++ [line.dropLast]) rest := by
  have trimmed := continues_trimmed line more
  rw [gathered_more pending line rest counted (trimmed.symm ▸ more), trimmed]

theorem gathered_front (front pending lines : List Text) (all : ∀ piece ∈ front, Blank isWhitespace piece) :
    rendered (gathered (front ++ pending) lines) = rendered (gathered pending lines) := by
  induction lines generalizing pending with
  | nil => rw [gathered, gathered, rendered_cons, rendered_cons, narrowed_front front pending all]
  | cons line rest ih =>
      by_cases counted : Counted line
      · cases more : continues (trimEnd isWhitespace line) with
        | true =>
            rw [gathered_more _ line rest counted more, gathered_more _ line rest counted more, List.append_assoc]
            exact ih _
        | false =>
            rw [gathered_last _ line rest counted more, gathered_last _ line rest counted more, rendered_cons, rendered_cons,
              List.append_assoc, narrowed_front front _ all]
      · rw [gathered_skipped _ line rest counted, gathered_skipped _ line rest counted]
        exact ih pending

theorem gathered_quiet (all : ∀ piece ∈ pending, Blank isWhitespace piece) :
    rendered (gathered pending lines) = rendered (gathered [] lines) := by
  have front := gathered_front pending [] lines all
  rw [List.append_nil] at front
  exact front

theorem gathered_ended (settled : Settled lines) (quiet : textFollows lines = false) :
    rendered (gathered pending lines) = pushLogical [] (narrowed pending) ++ rendered (gathered [] lines) := by
  induction lines generalizing pending with
  | nil =>
      rw [gathered, gathered, rendered_cons, rendered_cons, rendered_nil]
      rfl
  | cons line rest ih =>
      have later := settled_tail line settled
      rw [textFollows] at quiet
      rcases kind_of line with comment | ⟨comment, blank⟩ | ⟨comment, counted, more⟩ | ⟨comment, counted, last, text⟩
      · rw [if_pos comment] at quiet
        rw [gathered_skipped _ line rest (comment_skipped line comment), gathered_skipped _ line rest (comment_skipped line comment)]
        exact ih pending later quiet
      · rw [if_neg (ne_true_of_eq_false comment), if_neg (ne_true_of_eq_false (blank_stops line blank)), Bool.or_eq_false_iff] at quiet
        rw [gathered_skipped _ line rest (blank_skipped line blank), gathered_skipped _ line rest (blank_skipped line blank)]
        exact ih pending later quiet.2
      · rw [if_neg (ne_true_of_eq_false comment), if_pos more, Bool.or_eq_false_iff] at quiet
        have silent : ∀ piece ∈ [line.dropLast], Blank isWhitespace piece :=
          List.forall_mem_singleton.mpr ((has_text_iff _).mp quiet.1)
        rw [gathered_continued _ rest counted more, gathered_continued _ rest counted more, ih _ later quiet.2,
          narrowed_back pending _ silent, List.nil_append, gathered_quiet _ rest silent]
      · rw [if_neg (ne_true_of_eq_false comment), if_neg (ne_true_of_eq_false last), text, Bool.true_or] at quiet
        cases quiet

theorem shown_length (rest : List (List Text)) :
    (rendered (pending :: rest)).length = (voiced pending).toNat + (rendered rest).length := by
  rw [rendered_cons, List.length_append, push_narrowed]

theorem ended_length (settled : Settled lines) (quiet : textFollows lines = false) :
    (rendered (gathered pending lines)).length = (voiced pending).toNat + (rendered (gathered [] lines)).length := by
  rw [gathered_ended pending lines settled quiet, List.length_append, push_narrowed]

theorem gathered_followed (first second lines : List Text) (settled : Settled lines) (text : textFollows lines = true) :
    (rendered (gathered first lines)).length = (rendered (gathered second lines)).length := by
  induction lines generalizing first second with
  | nil => cases text
  | cons line rest ih =>
      have later := settled_tail line settled
      rw [textFollows] at text
      rcases kind_of line with comment | ⟨comment, blank⟩ | ⟨comment, counted, more⟩ | ⟨comment, counted, last, shown⟩
      · rw [if_pos comment] at text
        rw [gathered_skipped _ line rest (comment_skipped line comment), gathered_skipped _ line rest (comment_skipped line comment)]
        exact ih first second later text
      · rw [if_neg (ne_true_of_eq_false comment), if_neg (ne_true_of_eq_false (blank_stops line blank)),
          (has_text_iff line).mpr blank, Bool.false_or] at text
        rw [gathered_skipped _ line rest (blank_skipped line blank), gathered_skipped _ line rest (blank_skipped line blank)]
        exact ih first second later text
      · rw [if_neg (ne_true_of_eq_false comment), if_pos more] at text
        rw [gathered_continued _ rest counted more, gathered_continued _ rest counted more]
        cases follows : textFollows rest with
        | true => exact ih _ _ later follows
        | false =>
            rw [follows, Bool.or_false] at text
            rw [ended_length (first ++ [line.dropLast]) rest later follows,
              ended_length (second ++ [line.dropLast]) rest later follows, voiced_concat, voiced_concat, text,
              Bool.or_true, Bool.or_true]
      · have stops := settled_last line rest settled comment last
        rw [gathered_last _ line rest counted stops, gathered_last _ line rest counted stops, shown_length, shown_length,
          voiced_concat, voiced_concat, shown, Bool.or_true, Bool.or_true]

theorem severed_cons (pending : Bool) (line : Text) (rest : List Text) :
    SeveredFrom pending (line :: rest) ↔
      (Blank isWhitespace line ∧ pending = true ∧ textFollows rest = true) ∨ SeveredFrom (pendingText pending line) rest := by
  constructor
  · rintro ⟨front, blank, back, split, white, waits, follows⟩
    cases front with
    | nil =>
        obtain ⟨rfl, rfl⟩ := List.cons.inj split
        exact Or.inl ⟨white, waits, follows⟩
    | cons head front =>
        obtain ⟨rfl, rfl⟩ := List.cons.inj split
        exact Or.inr ⟨front, blank, back, rfl, white, waits, follows⟩
  · rintro (⟨white, waits, follows⟩ | ⟨front, blank, back, rfl, white, waits, follows⟩)
    · exact ⟨[], line, rest, rfl, white, waits, follows⟩
    · exact ⟨line :: front, blank, back, rfl, white, waits, follows⟩

theorem severed_blank (pending : Bool) (line : Text) (rest : List Text) (blank : Blank isWhitespace line) :
    SeveredFrom pending (line :: rest) ↔ (pending = true ∧ textFollows rest = true) ∨ SeveredFrom false rest := by
  have next : pendingText pending line = false := by
    rw [pendingText, if_neg (ne_true_of_eq_false (blank_uncommented line blank)), if_neg (ne_true_of_eq_false (blank_stops line blank))]
  rw [severed_cons, next]
  exact or_congr_left (and_iff_right blank)

theorem severed_text (pending : Bool) {line : Text} (rest : List Text) (solid : ¬Blank isWhitespace line) :
    SeveredFrom pending (line :: rest) ↔ SeveredFrom (pendingText pending line) rest := by
  rw [severed_cons]
  exact or_iff_right fun split => solid split.1

theorem counted_solid (counted : Counted line) : ¬Blank isWhitespace line :=
  fun blank => counted (Or.inl ((blank_start line).mpr blank))

theorem comment_solid (comment : isComment line = true) : ¬Blank isWhitespace line :=
  fun blank => Bool.false_ne_true ((blank_uncommented line blank).symm.trans comment)

theorem unit_comment (line : Text) (rest : List Text) (comment : isComment line = true) :
    unitLines pending (line :: rest) = unitLines pending rest := by
  rw [unitLines, if_pos comment]

theorem unit_more (line : Text) (rest : List Text) (comment : isComment line = false)
    (more : continues line = true) : unitLines pending (line :: rest) = unitLines (pending ++ [line.dropLast]) rest := by
  rw [unitLines, if_neg (ne_true_of_eq_false comment), if_pos more]

theorem unit_last {line : Text} (rest : List Text) (comment : isComment line = false)
    (last : continues line = false) : unitLines pending (line :: rest) = (pending ++ [line]) :: unitLines [] rest := by
  rw [unitLines, if_neg (ne_true_of_eq_false comment), if_neg (ne_true_of_eq_false last)]

theorem pending_comment (pending : Bool) (line : Text) (comment : isComment line = true) : pendingText pending line = pending := by
  rw [pendingText, if_pos comment]

theorem pending_more (pending : Bool) (line : Text) (comment : isComment line = false) (more : continues line = true) :
    pendingText pending line = (pending || hasText line.dropLast) := by
  rw [pendingText, if_neg (ne_true_of_eq_false comment), if_pos more]

theorem pending_last (pending : Bool) (line : Text) (comment : isComment line = false) (last : continues line = false) :
    pendingText pending line = false := by
  rw [pendingText, if_neg (ne_true_of_eq_false comment), if_neg (ne_true_of_eq_false last)]

theorem whole_rendered (settled : Settled lines) (whole : ¬SeveredFrom (voiced pending) lines) :
    rendered (gathered pending lines) = rendered (unitLines pending lines) := by
  induction lines generalizing pending with
  | nil => rfl
  | cons line rest ih =>
      have later := settled_tail line settled
      rcases kind_of line with comment | ⟨comment, blank⟩ | ⟨comment, counted, more⟩ | ⟨comment, counted, last, shown⟩
      · rw [severed_text _ rest (comment_solid line comment), pending_comment _ line comment] at whole
        rw [gathered_skipped _ line rest (comment_skipped line comment), unit_comment pending line rest comment]
        exact ih pending later whole
      · rw [severed_blank _ line rest blank, not_or] at whole
        have quiet : ∀ piece ∈ [line], Blank isWhitespace piece := List.forall_mem_singleton.mpr blank
        rw [gathered_skipped _ line rest (blank_skipped line blank), unit_last pending rest comment (blank_stops line blank),
          rendered_cons, narrowed_back pending _ quiet, ← ih [] later whole.2]
        cases waits : voiced pending with
        | true =>
            have ended : textFollows rest = false := Bool.eq_false_iff.mpr fun follows => whole.1 ⟨waits, follows⟩
            exact gathered_ended pending rest later ended
        | false =>
            have silent := (voiced_iff pending).mp waits
            rw [gathered_quiet pending rest silent, (narrowed_blank pending).mpr silent]
            rfl
      · rw [severed_text _ rest (counted_solid line counted), pending_more _ line comment more, ← voiced_concat] at whole
        rw [gathered_continued pending rest counted more, unit_more pending line rest comment more]
        exact ih _ later whole
      · rw [severed_text _ rest (counted_solid line counted), pending_last _ line comment last] at whole
        rw [gathered_last pending line rest counted (settled_last line rest settled comment last),
          unit_last pending rest comment last, rendered_cons, rendered_cons, ih [] later whole]

theorem severed_rendered (settled : Settled lines) :
    (rendered (gathered pending lines)).length ≤ (rendered (unitLines pending lines)).length ∧
      (SeveredFrom (voiced pending) lines →
        (rendered (gathered pending lines)).length < (rendered (unitLines pending lines)).length) := by
  induction lines generalizing pending with
  | nil =>
      refine ⟨Nat.le_refl _, fun ⟨front, blank, back, split, _⟩ => ?_⟩
      cases front <;> cases split
  | cons line rest ih =>
      have later := settled_tail line settled
      rcases kind_of line with comment | ⟨comment, blank⟩ | ⟨comment, counted, more⟩ | ⟨comment, counted, last, shown⟩
      · rw [severed_text _ rest (comment_solid line comment), pending_comment _ line comment,
          gathered_skipped _ line rest (comment_skipped line comment), unit_comment pending line rest comment]
        exact ih pending later
      · have quiet : hasText line = false := (has_text_iff line).mpr blank
        rw [severed_blank _ line rest blank, gathered_skipped _ line rest (blank_skipped line blank),
          unit_last pending rest comment (blank_stops line blank), shown_length, voiced_concat, quiet, Bool.or_false]
        obtain ⟨atMost, below⟩ := ih [] later
        cases follows : textFollows rest with
        | false =>
            rw [ended_length pending rest later follows]
            refine ⟨Nat.add_le_add_left atMost _, fun severed => Nat.add_lt_add_left (below (severed.resolve_left ?_)) _⟩
            exact fun both => Bool.false_ne_true both.2
        | true =>
            rw [gathered_followed pending [] rest later follows]
            refine ⟨atMost.trans (Nat.le_add_left _ _), fun severed => ?_⟩
            rcases severed with ⟨waits, -⟩ | severed
            · rw [waits]
              exact Nat.lt_of_le_of_lt atMost (Nat.lt_add_of_pos_left Nat.zero_lt_one)
            · exact (below severed).trans_le (Nat.le_add_left _ _)
      · rw [severed_text _ rest (counted_solid line counted), pending_more _ line comment more, ← voiced_concat,
          gathered_continued pending rest counted more, unit_more pending line rest comment more]
        exact ih _ later
      · rw [severed_text _ rest (counted_solid line counted), pending_last _ line comment last,
          gathered_last pending line rest counted (settled_last line rest settled comment last),
          unit_last pending rest comment last, shown_length, shown_length]
        obtain ⟨atMost, below⟩ := ih [] later
        exact ⟨Nat.add_le_add_left atMost _, fun severed => Nat.add_lt_add_left (below severed) _⟩

theorem settled_rendered_iff (settled : Settled lines) :
    rendered (gathered [] lines) = rendered (unitLines [] lines) ↔ ¬Severed lines :=
  ⟨fun same severed => absurd (congrArg List.length same) (Nat.ne_of_lt ((severed_rendered [] lines settled).2 severed)),
    whole_rendered [] lines settled⟩

end Filefacts.Systemd
