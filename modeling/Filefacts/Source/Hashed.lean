import Filefacts.Source.Spelled

set_option autoImplicit false

namespace Filefacts.Source

open Filefacts.Output (Text)

-- The pieces of a raw literal's body. An escape is the introducer (a backslash and the hashes) with the character behind
-- it; `opened` is an introducer at the end.
inductive Piece where
  | plain (c : Char)
  | bare
  | escape (esc : Char)
  | opened
  deriving DecidableEq, Repr

def pieces (hashes : Nat) : Text → List Piece
  | [] => []
  | c :: rest =>
      if c ≠ '\\' then .plain c :: pieces hashes rest
      else if (List.replicate hashes '#').isPrefixOf rest then
        match (rest.drop hashes).head? with
        | none => [.opened]
        | some esc => .escape esc :: pieces hashes (rest.drop (hashes + 1))
      else .bare :: pieces hashes rest
  termination_by body => body.length
  decreasing_by
    · exact Nat.lt_succ_self _
    · rw [List.length_drop, List.length_cons]
      omega
    · exact Nat.lt_succ_self _

def Piece.ordinary (hashes : Nat) : Piece → Text
  | .plain c => [c]
  | .bare => ['\\', '\\']
  | .escape esc => ['\\', esc]
  | .opened => '\\' :: '\\' :: List.replicate hashes '#'

-- The ordinary literal that a raw one stands for.
def ordinary (hashes : Nat) (body : Text) : Text := (pieces hashes body).flatMap (Piece.ordinary hashes)

variable (hashes : Nat) (c : Char) (rest : Text) (esc : Char)

theorem rewritten_plain (plain : c ≠ '\\') : rewritten hashes (c :: rest) = c :: rewritten hashes rest := by
  have taken : (c :: rest).takeWhile (· != '\\') = c :: rest.takeWhile (· != '\\') := by simp [plain]
  have dropped : (c :: rest).dropWhile (· != '\\') = rest.dropWhile (· != '\\') := by simp [plain]
  rw [rewritten, rewritten, taken, dropped]
  by_cases found : '\\' ∉ rest
  · rw [if_pos found, if_pos (by simp [found, Ne.symm plain])]
  · rw [if_neg found, if_neg (by simpa [Ne.symm plain] using found)]
    rfl

theorem rewritten_nil : rewritten hashes [] = [] := by
  rw [rewritten, if_pos (List.not_mem_nil)]

theorem rewritten_marker :
    rewritten hashes ('\\' :: (List.replicate hashes '#' ++ rest)) = '\\' :: rewritten hashes rest := by
  have marked : ('\\' :: List.replicate hashes '#').isPrefixOf ('\\' :: (List.replicate hashes '#' ++ rest)) :=
    List.isPrefixOf_iff_prefix.mpr ⟨rest, rfl⟩
  rw [rewritten, if_neg (not_not_intro List.mem_cons_self), List.dropWhile_cons_of_neg (by simp), List.takeWhile_cons_of_neg (by simp)]
  simp only [marked, if_true, List.nil_append, List.drop_succ_cons]
  rw [List.drop_left' List.length_replicate]

theorem rewritten_bare (unmarked : ¬ List.replicate hashes '#' <+: rest) :
    rewritten hashes ('\\' :: rest) = '\\' :: '\\' :: rewritten hashes rest := by
  have marked : ¬ ('\\' :: List.replicate hashes '#').isPrefixOf ('\\' :: rest) := by
    rw [List.isPrefixOf_iff_prefix, List.cons_prefix_cons]
    exact fun both => unmarked both.2
  rw [rewritten, if_neg (not_not_intro List.mem_cons_self), List.dropWhile_cons_of_neg (by simp), List.takeWhile_cons_of_neg (by simp)]
  simp only [marked, if_false, List.nil_append, List.drop_succ_cons, List.drop_zero, Bool.false_eq_true]

inductive Shape (hashes : Nat) : Text → Prop
  | nil : Shape hashes []
  | plain (c : Char) (rest : Text) (plain : c ≠ '\\') : Shape hashes (c :: rest)
  | bare (rest : Text) (unmarked : ¬ List.replicate hashes '#' <+: rest) : Shape hashes ('\\' :: rest)
  | escape (esc : Char) (rest : Text) (other : esc ≠ '\\') :
      Shape hashes ('\\' :: (List.replicate hashes '#' ++ esc :: rest))
  | swallowed (rest : Text) :
      Shape hashes ('\\' :: (List.replicate hashes '#' ++ '\\' :: (List.replicate hashes '#' ++ rest)))
  | paired (rest : Text) (unmarked : ¬ List.replicate hashes '#' <+: rest) :
      Shape hashes ('\\' :: (List.replicate hashes '#' ++ '\\' :: rest))
  | opened : Shape hashes ('\\' :: List.replicate hashes '#')

theorem shape (body : Text) : Shape hashes body := by
  cases body with
  | nil => exact .nil
  | cons c rest =>
      by_cases plain : c ≠ '\\'
      · exact .plain c rest plain
      · obtain rfl := Decidable.not_not.mp plain
        by_cases marked : List.replicate hashes '#' <+: rest
        · obtain ⟨behind, rfl⟩ := marked
          cases behind with
          | nil =>
              rw [List.append_nil]
              exact .opened
          | cons esc more =>
              by_cases other : esc ≠ '\\'
              · exact .escape esc more other
              · obtain rfl := Decidable.not_not.mp other
                by_cases again : List.replicate hashes '#' <+: more
                · obtain ⟨after, rfl⟩ := again
                  exact .swallowed after
                · exact .paired more again
        · exact .bare rest marked

theorem pieces_nil : pieces hashes [] = [] := by
  rw [pieces]

theorem pieces_plain (plain : c ≠ '\\') : pieces hashes (c :: rest) = .plain c :: pieces hashes rest := by
  rw [pieces, if_pos plain]

theorem pieces_bare (unmarked : ¬ List.replicate hashes '#' <+: rest) :
    pieces hashes ('\\' :: rest) = .bare :: pieces hashes rest := by
  rw [pieces, if_neg (not_not_intro rfl), if_neg (by rwa [List.isPrefixOf_iff_prefix])]

theorem pieces_escape (rest : Text) :
    pieces hashes ('\\' :: (List.replicate hashes '#' ++ esc :: rest)) = .escape esc :: pieces hashes rest := by
  have marked : (List.replicate hashes '#').isPrefixOf (List.replicate hashes '#' ++ esc :: rest) :=
    List.isPrefixOf_iff_prefix.mpr ⟨esc :: rest, rfl⟩
  have behind : (List.replicate hashes '#' ++ esc :: rest).drop hashes = esc :: rest := List.drop_left' List.length_replicate
  have after : (List.replicate hashes '#' ++ esc :: rest).drop (hashes + 1) = rest := by
    rw [← List.drop_drop, behind, List.drop_succ_cons, List.drop_zero]
  rw [pieces, if_neg (not_not_intro rfl), if_pos marked, behind, after]
  rfl

theorem pieces_opened : pieces hashes ('\\' :: List.replicate hashes '#') = [.opened] := by
  have marked : (List.replicate hashes '#').isPrefixOf (List.replicate hashes '#') := List.isPrefixOf_iff_prefix.mpr List.prefix_rfl
  have behind : (List.replicate hashes '#').drop hashes = [] := List.drop_eq_nil_of_le (Nat.le_of_eq List.length_replicate)
  rw [pieces, if_neg (not_not_intro rfl), if_pos marked, behind]
  rfl

theorem ordinary_plain (plain : c ≠ '\\') : ordinary hashes (c :: rest) = c :: ordinary hashes rest := by
  rw [ordinary, pieces_plain hashes c rest plain, List.flatMap_cons]
  rfl

theorem ordinary_bare (unmarked : ¬ List.replicate hashes '#' <+: rest) :
    ordinary hashes ('\\' :: rest) = '\\' :: '\\' :: ordinary hashes rest := by
  rw [ordinary, pieces_bare hashes rest unmarked, List.flatMap_cons]
  rfl

theorem ordinary_escape (rest : Text) :
    ordinary hashes ('\\' :: (List.replicate hashes '#' ++ esc :: rest)) = '\\' :: esc :: ordinary hashes rest := by
  rw [ordinary, pieces_escape, List.flatMap_cons]
  rfl

theorem ordinary_opened :
    ordinary hashes ('\\' :: List.replicate hashes '#') = '\\' :: '\\' :: List.replicate hashes '#' := by
  rw [ordinary, pieces_opened, List.flatMap_singleton]
  rfl

theorem pieces_hashes (count : Nat) (rest : Text) :
    pieces hashes (List.replicate count '#' ++ rest) = List.replicate count (.plain '#') ++ pieces hashes rest := by
  induction count with
  | zero => rfl
  | succ count ih =>
      rw [List.replicate_succ, List.cons_append, pieces_plain hashes '#' _ (by decide), ih]
      rfl

theorem ordinary_hashes (count : Nat) (rest : Text) :
    ordinary hashes (List.replicate count '#' ++ rest) = List.replicate count '#' ++ ordinary hashes rest := by
  induction count with
  | zero => rfl
  | succ count ih =>
      rw [List.replicate_succ, List.cons_append, ordinary_plain hashes '#' _ (by decide), ih]
      rfl

open Filefacts.Output (Text)
open Filefacts.Structured (digitsValue toDigit)

def selfEscapes : Text := ['\'', '"', '`', '/', '$']

-- Where the decoder, one backslash late, falls into step again: at a character that is its own escape, or at an escape it
-- keeps as it is written.
inductive Resumes (hashes : Nat) : List Piece → Prop
  | bare (rest : List Piece) (more : Resumes hashes rest) : Resumes hashes (.bare :: rest)
  | itself (c : Char) (rest : List Piece) (listed : c ∈ selfEscapes) : Resumes hashes (.plain c :: rest)
  | kept (esc : Char) (rest : List Piece) (other : esc ≠ '\\')
      (noEscape : ∀ spelling c, Escape spelling c → ¬ spelling <+: (Piece.escape esc :: rest).flatMap (Piece.ordinary hashes)) :
      Resumes hashes (.escape esc :: rest)

def Fair (hashes : Nat) (body : List Piece) : Prop :=
  .opened ∉ body ∧ ∀ front back, body = front ++ .escape '\\' :: back → Resumes hashes back

theorem fair_nil : Fair hashes [] :=
  ⟨List.not_mem_nil, fun front back same => absurd same (by simp)⟩

theorem fair_cons (piece : Piece) (rest : List Piece) (closed : piece ≠ .opened) (other : piece ≠ .escape '\\') :
    Fair hashes (piece :: rest) ↔ Fair hashes rest := by
  constructor
  · rintro ⟨ends, resumes⟩
    refine ⟨fun inside => ends (List.mem_cons_of_mem _ inside), fun front back same => resumes (piece :: front) back ?_⟩
    rw [same, List.cons_append]
  · rintro ⟨ends, resumes⟩
    refine ⟨fun inside => ?_, fun front back same => ?_⟩
    · rcases List.mem_cons.mp inside with same | inside
      · exact closed same.symm
      · exact ends inside
    · cases front with
      | nil =>
          rw [List.nil_append, List.cons.injEq] at same
          exact absurd same.1 other
      | cons first front =>
          rw [List.cons_append, List.cons.injEq] at same
          exact resumes front back same.2

theorem fair_paired (rest : List Piece) : Fair hashes (.escape '\\' :: rest) ↔ Resumes hashes rest ∧ Fair hashes rest := by
  constructor
  · rintro ⟨ends, resumes⟩
    refine ⟨resumes [] rest rfl, fun inside => ends (List.mem_cons_of_mem _ inside), fun front back same => ?_⟩
    exact resumes (.escape '\\' :: front) back (by rw [same, List.cons_append])
  · rintro ⟨first, ends, resumes⟩
    refine ⟨fun inside => ?_, fun front back same => ?_⟩
    · rcases List.mem_cons.mp inside with same | inside
      · cases same
      · exact ends inside
    · cases front with
      | nil =>
          rw [List.nil_append, List.cons.injEq] at same
          exact same.2 ▸ first
      | cons piece front =>
          rw [List.cons_append, List.cons.injEq] at same
          exact resumes front back same.2

-- `text` stands at the front of both rewritings, and they are in step behind it.
structure Consumes (hashes : Nat) (text body rest : Text) : Prop where
  fromRewritten : rewritten hashes body = text ++ rewritten hashes rest
  fromOrdinary : ordinary hashes body = text ++ ordinary hashes rest
  within : rest <:+ body
  fairness : Fair hashes (pieces hashes body) ↔ Fair hashes (pieces hashes rest)

theorem consumes_none (body : Text) : Consumes hashes [] body body :=
  ⟨rfl, rfl, List.suffix_rfl, Iff.rfl⟩

variable {first second body middle : Text}

theorem consumes_append {rest : Text} (one : Consumes hashes first body middle)
    (two : Consumes hashes second middle rest) : Consumes hashes (first ++ second) body rest where
  fromRewritten := by rw [one.fromRewritten, two.fromRewritten, List.append_assoc]
  fromOrdinary := by rw [one.fromOrdinary, two.fromOrdinary, List.append_assoc]
  within := two.within.trans one.within
  fairness := one.fairness.trans two.fairness

theorem consumes_plain (hashes : Nat) (c : Char) (rest : Text) (plain : c ≠ '\\') : Consumes hashes [c] (c :: rest) rest where
  fromRewritten := rewritten_plain hashes c rest plain
  fromOrdinary := ordinary_plain hashes c rest plain
  within := List.suffix_cons c rest
  fairness := by rw [pieces_plain hashes c rest plain, fair_cons hashes _ _ (by simp) (by simp)]

theorem consumes_escape (rest : Text) (other : esc ≠ '\\') :
    Consumes hashes ['\\', esc] ('\\' :: (List.replicate hashes '#' ++ esc :: rest)) rest where
  fromRewritten := by
    rw [rewritten_marker, rewritten_plain hashes esc rest other]
    rfl
  fromOrdinary := ordinary_escape hashes esc rest
  within := ⟨'\\' :: List.replicate hashes '#' ++ [esc], by simp⟩
  fairness := by rw [pieces_escape, fair_cons hashes _ _ (by simp) (by simpa using other)]

theorem rewritten_swallowed :
    rewritten hashes ('\\' :: (List.replicate hashes '#' ++ '\\' :: (List.replicate hashes '#' ++ rest))) =
      '\\' :: '\\' :: rewritten hashes rest := by
  rw [rewritten_marker, rewritten_marker]

theorem ordinary_swallowed :
    ordinary hashes ('\\' :: (List.replicate hashes '#' ++ '\\' :: (List.replicate hashes '#' ++ rest))) =
      '\\' :: '\\' :: (List.replicate hashes '#' ++ ordinary hashes rest) := by
  rw [ordinary_escape, ordinary_hashes]

theorem rewritten_paired (unmarked : ¬ List.replicate hashes '#' <+: rest) :
    rewritten hashes ('\\' :: (List.replicate hashes '#' ++ '\\' :: rest)) = '\\' :: '\\' :: '\\' :: rewritten hashes rest := by
  rw [rewritten_marker, rewritten_bare hashes rest unmarked]

theorem rewritten_opened : rewritten hashes ('\\' :: List.replicate hashes '#') = ['\\'] := by
  have marked := rewritten_marker hashes []
  rw [List.append_nil, rewritten_nil] at marked
  exact marked

theorem plain_ahead (body : Text) (plain : c ≠ '\\')
    (ahead : [c] <+: rewritten hashes body ∨ [c] <+: ordinary hashes body) : ∃ rest, body = c :: rest := by
  cases shape hashes body with
  | nil =>
      rw [rewritten_nil, ordinary, pieces_nil] at ahead
      simp at ahead
  | plain first rest other =>
      rw [rewritten_plain hashes first rest other, ordinary_plain hashes first rest other] at ahead
      simp only [List.cons_prefix_cons, List.nil_prefix, and_true, or_self] at ahead
      exact ⟨rest, by rw [ahead]⟩
  | bare rest unmarked =>
      rw [rewritten_bare hashes rest unmarked, ordinary_bare hashes rest unmarked] at ahead
      simp only [List.cons_prefix_cons, List.nil_prefix, and_true, or_self] at ahead
      exact absurd ahead plain
  | escape esc rest other =>
      rw [rewritten_marker, ordinary_escape] at ahead
      simp only [List.cons_prefix_cons, List.nil_prefix, and_true, or_self] at ahead
      exact absurd ahead plain
  | swallowed rest =>
      rw [rewritten_marker, ordinary_escape] at ahead
      simp only [List.cons_prefix_cons, List.nil_prefix, and_true, or_self] at ahead
      exact absurd ahead plain
  | paired rest unmarked =>
      rw [rewritten_marker, ordinary_escape] at ahead
      simp only [List.cons_prefix_cons, List.nil_prefix, and_true, or_self] at ahead
      exact absurd ahead plain
  | opened =>
      rw [rewritten_opened, ordinary_opened] at ahead
      simp only [List.cons_prefix_cons, List.nil_prefix, and_true, or_self] at ahead
      exact absurd ahead plain

theorem escape_ahead (body : Text) (other : esc ≠ '\\')
    (ahead : ['\\', esc] <+: rewritten hashes body ∨ ['\\', esc] <+: ordinary hashes body) :
    ∃ rest, body = '\\' :: (List.replicate hashes '#' ++ esc :: rest) := by
  cases shape hashes body with
  | nil =>
      rw [rewritten_nil, ordinary, pieces_nil] at ahead
      simp at ahead
  | plain first rest plain =>
      rw [rewritten_plain hashes first rest plain, ordinary_plain hashes first rest plain] at ahead
      simp only [List.cons_prefix_cons, Ne.symm plain, false_and, or_self] at ahead
  | bare rest unmarked =>
      rw [rewritten_bare hashes rest unmarked, ordinary_bare hashes rest unmarked] at ahead
      simp only [List.cons_prefix_cons, other, false_and, and_false, or_self] at ahead
  | escape first rest plain =>
      rw [rewritten_marker, ordinary_escape, rewritten_plain hashes first rest plain] at ahead
      simp only [List.cons_prefix_cons, List.nil_prefix, and_true, true_and, or_self] at ahead
      exact ⟨rest, by rw [ahead]⟩
  | swallowed rest =>
      rw [rewritten_swallowed, ordinary_swallowed] at ahead
      simp only [List.cons_prefix_cons, other, false_and, and_false, or_self] at ahead
  | paired rest unmarked =>
      rw [rewritten_paired hashes rest unmarked, ordinary_escape] at ahead
      simp only [List.cons_prefix_cons, other, false_and, and_false, or_self] at ahead
  | opened =>
      rw [rewritten_opened, ordinary_opened] at ahead
      simp [List.cons_prefix_cons, other] at ahead

variable (text : Text)

theorem plain_text_consumed (body : Text) (plain : '\\' ∉ text)
    (ahead : text <+: rewritten hashes body ∨ text <+: ordinary hashes body) : ∃ rest, Consumes hashes text body rest := by
  induction text generalizing body with
  | nil => exact ⟨body, consumes_none hashes body⟩
  | cons c text ih =>
      rw [List.mem_cons, not_or] at plain
      have first : [c] <+: rewritten hashes body ∨ [c] <+: ordinary hashes body :=
        ahead.imp (List.IsPrefix.trans ⟨text, rfl⟩) (List.IsPrefix.trans ⟨text, rfl⟩)
      obtain ⟨middle, rfl⟩ := plain_ahead hashes c body (Ne.symm plain.1) first
      rw [rewritten_plain hashes c middle (Ne.symm plain.1), ordinary_plain hashes c middle (Ne.symm plain.1)] at ahead
      simp only [List.cons_prefix_cons, true_and] at ahead
      obtain ⟨rest, more⟩ := ih middle plain.2 ahead
      exact ⟨rest, consumes_append hashes (consumes_plain hashes c middle (Ne.symm plain.1)) more⟩

theorem ahead_of_consumed (one : Consumes hashes first body middle)
    (ahead : first ++ second <+: rewritten hashes body ∨ first ++ second <+: ordinary hashes body) :
    second <+: rewritten hashes middle ∨ second <+: ordinary hashes middle := by
  rw [one.fromRewritten, one.fromOrdinary, List.prefix_append_right_inj, List.prefix_append_right_inj] at ahead
  exact ahead

theorem escape_body_cases {c : Char} (one : Escape ('\\' :: esc :: body) c) :
    '\\' ∉ body ∨ ∃ first second : Text, body = first ++ '\\' :: 'u' :: second ∧ '\\' ∉ first ∧ '\\' ∉ second ∧ esc = 'u' ∧
      0x10000 ≤ c.toNat ∧ decodeUnicodeEscape second = none ∧ ∀ rest, decodeUnicodeEscape (second ++ rest) = none := by
  generalize shape : '\\' :: esc :: body = spelling at one
  cases one with
  | letter letter c listed =>
      simp only [List.cons.injEq, true_and] at shape
      exact .inl (by simp [shape.2])
  | hex digits c two value =>
      simp only [List.cons.injEq, true_and] at shape
      exact .inl (shape.2 ▸ hex_digits_plain digits _ value)
  | unicode digits c four value =>
      simp only [List.cons.injEq, true_and] at shape
      exact .inl (shape.2 ▸ hex_digits_plain digits _ value)
  | pair first second high low c fourFirst fourSecond highValue lowValue isHigh isLow value =>
      simp only [List.cons_append, List.cons.injEq, true_and] at shape
      have lone : ∀ rest, decodeUnicodeEscape (second ++ rest) = none := by
        intro rest
        have read := (take_hex_value 3 (second ++ rest) low rest).mpr ⟨second, fourSecond, rfl, lowValue⟩
        unfold decodeUnicodeEscape
        rw [if_neg (four_digits_unbraced second rest low fourSecond lowValue), read]
        simp only [surrogate_alone low (by omega)]
        rw [if_pos (by omega)]
      refine .inr ⟨first, second, shape.2, hex_digits_plain first high highValue, hex_digits_plain second low lowValue, shape.1,
        by omega, ?_, lone⟩
      have whole := lone []
      rwa [List.append_nil] at whole
  | braced digits c some_digits value =>
      simp only [List.cons_append, List.cons.injEq, true_and] at shape
      have plain := hex_digits_plain digits _ value
      exact .inl (by simp [shape.2, plain])

theorem escape_body_consumed (body : Text) (c : Char) (one : Escape ('\\' :: esc :: text) c)
    (ahead : text <+: rewritten hashes body ∨ text <+: ordinary hashes body) : ∃ rest, Consumes hashes text body rest := by
  rcases escape_body_cases esc one with plain | ⟨first, second, rfl, plainFirst, plainSecond, -⟩
  · exact plain_text_consumed hashes text body plain ahead
  · have front : first <+: rewritten hashes body ∨ first <+: ordinary hashes body :=
      ahead.imp (List.IsPrefix.trans (List.prefix_append first _)) (List.IsPrefix.trans (List.prefix_append first _))
    obtain ⟨middle, one⟩ := plain_text_consumed hashes first body plainFirst front
    have ahead := ahead_of_consumed hashes one ahead
    have marker : ['\\', 'u'] <+: rewritten hashes middle ∨ ['\\', 'u'] <+: ordinary hashes middle :=
      ahead.imp (List.IsPrefix.trans ⟨second, rfl⟩) (List.IsPrefix.trans ⟨second, rfl⟩)
    obtain ⟨behind, rfl⟩ := escape_ahead hashes 'u' middle (by decide) marker
    have two := consumes_escape hashes 'u' behind (by decide)
    obtain ⟨rest, three⟩ := plain_text_consumed hashes second behind plainSecond
      (ahead_of_consumed hashes two ahead)
    exact ⟨rest, consumes_append hashes one (consumes_append hashes two three)⟩

-- Behind an escape character both rewritings read the same escape, or neither reads one.
theorem lockstep (body : Text) (inline : esc ≠ '\n') :
    (escaped false esc (rewritten hashes body) = (['\\', esc], rewritten hashes body) ∧
      escaped false esc (ordinary hashes body) = (['\\', esc], ordinary hashes body) ∧
      ∀ spelling c, Escape spelling c → ¬ spelling <+: '\\' :: esc :: ordinary hashes body) ∨
    ∃ c text rest, Escape ('\\' :: esc :: text) c ∧ Consumes hashes text body rest ∧
      escaped false esc (rewritten hashes body) = ([c], rewritten hashes rest) ∧
      escaped false esc (ordinary hashes body) = ([c], ordinary hashes rest) := by
  have read : ∀ text c, Escape ('\\' :: esc :: text) c → text <+: rewritten hashes body ∨ text <+: ordinary hashes body →
      ∃ rest, Consumes hashes text body rest ∧ escaped false esc (rewritten hashes body) = ([c], rewritten hashes rest) ∧
        escaped false esc (ordinary hashes body) = ([c], ordinary hashes rest) := by
    intro text c one ahead
    obtain ⟨rest, consumed⟩ := escape_body_consumed hashes esc text body c one ahead
    refine ⟨rest, consumed, ?_, ?_⟩
    · rw [consumed.fromRewritten, escaped_complete esc text _ c one]
    · rw [consumed.fromOrdinary, escaped_complete esc text _ c one]
  by_cases spelled : ∃ text c, Escape ('\\' :: esc :: text) c ∧ (text <+: rewritten hashes body ∨ text <+: ordinary hashes body)
  · obtain ⟨text, c, one, ahead⟩ := spelled
    obtain ⟨rest, both⟩ := read text c one ahead
    exact .inr ⟨c, text, rest, one, both⟩
  · refine .inl ⟨?_, ?_, ?_⟩
    · rcases escaped_sound esc (rewritten hashes body) with kept | ⟨newline, -⟩ | ⟨text, c, rest, one, same, -⟩
      · exact kept
      · exact absurd newline inline
      · exact absurd ⟨text, c, one, .inl ⟨rest, same.symm⟩⟩ spelled
    · rcases escaped_sound esc (ordinary hashes body) with kept | ⟨newline, -⟩ | ⟨text, c, rest, one, same, -⟩
      · exact kept
      · exact absurd newline inline
      · exact absurd ⟨text, c, one, .inr ⟨rest, same.symm⟩⟩ spelled
    · intro spelling c one ahead
      obtain ⟨first, text, rfl⟩ := escape_shape one
      simp only [List.cons_prefix_cons, true_and] at ahead
      obtain ⟨rfl, ahead⟩ := ahead
      exact spelled ⟨text, c, one, .inr ahead⟩

theorem escape_body_inert {c : Char} (one : Escape ('\\' :: esc :: text) c) (rest : Text) :
    decodeChars false (text ++ rest) = text ++ decodeChars false rest := by
  rcases escape_body_cases esc one with plain | ⟨first, second, rfl, plainFirst, plainSecond, -, -, -, lone⟩
  · exact decode_chars_plain false rest plain
  · have kept : escaped false 'u' (second ++ rest) = (['\\', 'u'], second ++ rest) := by
      have letter : letterEscapes.lookup 'u' = none := rfl
      unfold escaped
      rw [if_neg (fun lua => Bool.false_ne_true lua.2), if_neg (fun lua => Bool.false_ne_true lua.2), letter, lone rest]
      rfl
    rw [List.append_assoc, decode_chars_plain false _ plainFirst, List.cons_append, List.cons_append, decode_chars_escaped,
      kept, decode_chars_plain false rest plainSecond, List.append_assoc]
    rfl

end Filefacts.Source
