import Filefacts.Pdf.Literal

set_option autoImplicit false

namespace Filefacts.Pdf

-- From a position the loop pushes these octets and no more, up to the cap.
def Finishes (bytes : List UInt8) (spanEnd : Nat) (depth : Int) (i : Nat) (tail : List UInt8) : Prop :=
  ∀ out : List UInt8, out.length ≤ literalCap → literalLoop bytes spanEnd depth out i = (out ++ tail).take literalCap

variable (bytes : List UInt8) (spanEnd : Nat) (depth : Int) (i : Nat) (eol rest : List UInt8)

theorem finishes_push (after : Int) (i next : Nat) (pushed tail : List UInt8)
    (step : ∀ out, out.length < literalCap → literalLoop bytes spanEnd depth out i = literalLoop bytes spanEnd after (out ++ pushed) next)
    (short : pushed.length ≤ 1) (more : Finishes bytes spanEnd after next tail) :
    Finishes bytes spanEnd depth i (pushed ++ tail) := by
  intro out bound
  by_cases room : out.length < literalCap
  · have fits : (out ++ pushed).length ≤ literalCap := by
      rw [List.length_append]
      omega
    rw [step out room, more (out ++ pushed) fits, List.append_assoc]
  · have full : out.length = literalCap := Nat.le_antisymm bound (Nat.le_of_not_lt room)
    rw [loop_full bytes spanEnd depth out i room, ← full, List.take_left]

theorem finishes_closed (read : bytes[i]? = some 41) : Finishes bytes spanEnd 1 i [] := by
  intro out bound
  rw [loop_closed bytes spanEnd out i read, List.append_nil, List.take_of_length_le bound]

theorem finishes_plain {b : UInt8} {tail : List UInt8}
    (inside : i < spanEnd) (read : bytes[i]? = some b) (plain : b ∉ [92, 40, 41])
    (more : Finishes bytes spanEnd depth (i + 1) tail) : Finishes bytes spanEnd depth i (b :: tail) :=
  finishes_push bytes spanEnd depth depth i (i + 1) [b] tail
    (fun out room => loop_plain bytes spanEnd depth out i b room inside read plain) (Nat.le_refl 1) more

theorem finishes_escape {esc : UInt8} {rest tail : List UInt8}
    (inside : i < spanEnd) (ahead : Ahead bytes i (92 :: esc :: rest)) (other : ¬ isOctalDigit esc)
    (more : Finishes bytes spanEnd depth (i + 2) tail) : Finishes bytes spanEnd depth i (literalEscape esc ++ tail) := by
  obtain ⟨read, behind⟩ := ahead_byte bytes ahead
  have next := (ahead_byte bytes behind).1
  have short : (literalEscape esc).length ≤ 1 := by
    rw [literalEscape]
    cases literalLetters.lookup esc with
    | some b => exact Nat.le_refl 1
    | none =>
        by_cases ends : esc = 10 ∨ esc = 13
        · rw [if_pos ends]
          exact Nat.zero_le 1
        · rw [if_neg ends]
          exact Nat.le_refl 1
  exact finishes_push bytes spanEnd depth depth i (i + 2) (literalEscape esc) tail
    (fun out room => loop_escape bytes spanEnd depth out i esc room inside read next other) short more

theorem finishes_octal {digits rest tail : List UInt8}
    (inside : i < spanEnd) (filled : 0 < digits.length) (few : digits.length ≤ 3) (all : digits.all isOctalDigit)
    (ahead : Ahead bytes i (92 :: digits ++ rest)) (ends : digits.length < 3 → ∃ c after, rest = c :: after ∧ ¬ isOctalDigit c)
    (more : Finishes bytes spanEnd depth (i + 1 + digits.length) tail) :
    Finishes bytes spanEnd depth i (UInt8.ofNat (octalValue digits % 256) :: tail) := by
  obtain ⟨read, behind⟩ := ahead_byte bytes ahead
  have value := octal_read bytes 3 0 (i + 1) digits rest few all behind ends
  obtain ⟨digit, others, rfl⟩ := List.exists_cons_of_length_pos filled
  have next := (ahead_byte bytes behind).1
  rw [List.all_cons, Bool.and_eq_true] at all
  refine finishes_push bytes spanEnd depth depth i _ [_] tail (fun out room => ?_) (Nat.le_refl 1) more
  rw [loop_octal bytes spanEnd depth out i digit room inside read next all.1, value]
  rfl

theorem letter_known (esc b : UInt8) (known : (esc, b) ∈ literalLetters) : literalEscape esc = [b] ∧ ¬ isOctalDigit esc := by
  have table : literalLetters.all (fun entry => literalEscape entry.1 = [entry.2] ∧ ¬ isOctalDigit entry.1) = true := by decide
  exact of_decide_eq_true (List.all_eq_true.mp table (esc, b) known)

def IsMarker (eol : List UInt8) : Prop := eol = [10] ∨ eol = [13] ∨ eol = [13, 10]

theorem eol_cases (filled : 0 < eol.length) (marker : eolLength (eol ++ rest) = eol.length) : IsMarker eol := by
  rw [eolLength] at marker
  obtain ⟨first, others, rfl⟩ := List.exists_cons_of_length_pos filled
  by_cases both : [13, 10].isPrefixOf (first :: others ++ rest)
  · rw [if_pos both] at marker
    obtain ⟨second, rfl⟩ := List.length_eq_one_iff.mp (Nat.succ.inj marker.symm)
    obtain ⟨after, whole⟩ := List.isPrefixOf_iff_prefix.mp both
    injection whole with head tail
    injection tail with next
    exact Or.inr (Or.inr (by rw [← head, ← next]))
  · rw [if_neg both] at marker
    by_cases one : (first :: others ++ rest).head? = some 13 ∨ (first :: others ++ rest).head? = some 10
    · rw [if_pos one] at marker
      obtain rfl := List.length_eq_zero_iff.mp (Nat.succ.inj marker.symm)
      rcases one with cr | lf
      · exact Or.inr (Or.inl (by rw [Option.some.inj cr]))
      · exact Or.inl (by rw [Option.some.inj lf])
    · rw [if_neg one] at marker
      cases marker

theorem octal_ends (digits rest : List UInt8) (shorter : digits.length < 3 → ¬ rest.head?.any isOctalDigit)
    (fewer : digits.length < 3) : ∃ c after, rest ++ [41] = c :: after ∧ ¬ isOctalDigit c := by
  have other := shorter fewer
  cases rest with
  | nil => exact ⟨41, [], rfl, by decide⟩
  | cons c after => exact ⟨c, after ++ [41], rfl, other⟩

-- A continuation drops the first octet of its line end; the second one is read as a plain byte.
theorem finishes_continued (tail : List UInt8) (marker : IsMarker eol) (inside : i + eol.length < spanEnd)
    (ahead : Ahead bytes i (92 :: eol ++ rest)) (more : Finishes bytes spanEnd depth (i + 1 + eol.length) tail) :
    Finishes bytes spanEnd depth i (eol.drop 1 ++ tail) := by
  have here : i < spanEnd := Nat.lt_of_le_of_lt (Nat.le_add_right i eol.length) inside
  rcases marker with rfl | rfl | rfl
  · exact finishes_escape bytes spanEnd depth i here ahead (by decide) more
  · exact finishes_escape bytes spanEnd depth i here ahead (by decide) more
  · have behind := ahead_append bytes i [92, 13] (10 :: rest) ahead
    have feed := finishes_plain bytes spanEnd depth (i + 2) inside (ahead_byte bytes behind).1
      (by decide) more
    exact finishes_escape bytes spanEnd depth i here ahead (by decide) feed

theorem finishes_line_end (tail : List UInt8) (marker : IsMarker eol) (inside : i + eol.length ≤ spanEnd)
    (ahead : Ahead bytes i (eol ++ rest)) (more : Finishes bytes spanEnd depth (i + eol.length) tail) :
    Finishes bytes spanEnd depth i (eol ++ tail) := by
  rcases marker with rfl | rfl | rfl
  · exact finishes_plain bytes spanEnd depth i inside (ahead_byte bytes ahead).1 (by decide) more
  · exact finishes_plain bytes spanEnd depth i inside (ahead_byte bytes ahead).1 (by decide) more
  · obtain ⟨read, behind⟩ := ahead_byte bytes ahead
    have feed := finishes_plain bytes spanEnd depth (i + 1) inside (ahead_byte bytes behind).1
      (by decide) more
    exact finishes_plain bytes spanEnd depth i (Nat.lt_of_succ_lt inside) read (by decide) feed

theorem reads_finish (depth : Nat) (spelled : List UInt8) (pieces : List LiteralPiece)
    (reads : LiteralReads depth spelled pieces) (i : Nat) (ahead : Ahead bytes i (spelled ++ [41]))
    (inside : i + spelled.length ≤ spanEnd) :
    Finishes bytes spanEnd (depth + 1) i (pieces.flatMap LiteralPiece.pushed) := by
  induction reads generalizing i with
  | done => exact finishes_closed bytes spanEnd i (ahead_byte bytes ahead).1
  | piece depth next piece rest pieces stands nested reads ih =>
      rw [List.append_assoc] at ahead
      rw [List.length_append] at inside
      have more := ih (i + piece.spelled.length) (ahead_append bytes i piece.spelled (rest ++ [41]) ahead) (by omega)
      have fits : i + piece.spelled.length ≤ spanEnd := by omega
      rw [List.flatMap_cons]
      cases piece with
      | plain b =>
          obtain rfl := Option.some.inj nested
          exact finishes_plain bytes spanEnd _ i (Nat.lt_of_lt_of_le (Nat.lt_succ_self i) fits) (ahead_byte bytes ahead).1
            stands more
      | opening =>
          obtain rfl := Option.some.inj nested
          rw [Int.natCast_add, Int.natCast_one] at more
          refine finishes_push bytes spanEnd _ _ i (i + 1) [40] _ (fun out room => ?_) (Nat.le_refl 1) more
          exact loop_opening bytes spanEnd _ out i room fits (ahead_byte bytes ahead).1
      | closing =>
          cases depth with
          | zero => cases nested
          | succ depth =>
              obtain rfl := Option.some.inj nested
              have lower : ((depth + 1 : Nat) : Int) + 1 - 1 = depth + 1 := by omega
              refine finishes_push bytes spanEnd _ _ i (i + 1) [41] _ (fun out room => ?_) (Nat.le_refl 1) more
              rw [loop_closing bytes spanEnd _ out i room fits (ahead_byte bytes ahead).1 (by omega), lower]
              rfl
      | letter esc b =>
          obtain rfl := Option.some.inj nested
          obtain ⟨value, other⟩ := letter_known esc b stands
          have escape := finishes_escape bytes spanEnd _ i (Nat.lt_of_succ_lt fits) ahead other more
          rwa [value] at escape
      | octal digits =>
          obtain rfl := Option.some.inj nested
          obtain ⟨filled, few, all, shorter⟩ := stands
          have here : i < spanEnd := Nat.lt_of_lt_of_le (Nat.lt_add_of_pos_right (Nat.succ_pos digits.length)) fits
          refine finishes_octal bytes spanEnd _ i here filled few all ahead (octal_ends digits rest shorter) ?_
          rwa [Nat.add_assoc, Nat.add_comm 1]
      | ignored b =>
          obtain rfl := Option.some.inj nested
          obtain ⟨unknown, other, ends⟩ := stands
          simp only [List.mem_cons, List.not_mem_nil, or_false] at ends
          have escape := finishes_escape bytes spanEnd _ i (Nat.lt_of_succ_lt fits) ahead other more
          rw [literalEscape, unknown] at escape
          simp only [if_neg ends] at escape
          exact escape
      | continued eol =>
          obtain rfl := Option.some.inj nested
          refine finishes_continued bytes spanEnd _ i eol (rest ++ [41]) _ (eol_cases eol rest stands.1 stands.2) fits ahead ?_
          rwa [Nat.add_assoc, Nat.add_comm 1]
      | lineEnd eol =>
          obtain rfl := Option.some.inj nested
          exact finishes_line_end bytes spanEnd _ i eol (rest ++ [41]) _ (eol_cases eol rest stands.1 stands.2) fits ahead more

-- No continuation is written with both octets, and no line end stands for a line feed that it is not.
def LiteralPiece.SingleEnd : LiteralPiece → Prop
  | .continued eol => eol ≠ [13, 10]
  | .lineEnd eol => eol = [10]
  | _ => True

theorem reads_markers {depth : Nat} {spelled : List UInt8} {pieces : List LiteralPiece} (reads : LiteralReads depth spelled pieces)
    {eol : List UInt8} (found : .continued eol ∈ pieces ∨ .lineEnd eol ∈ pieces) : IsMarker eol := by
  induction reads with
  | done => rcases found with found | found <;> cases found
  | piece depth next piece rest pieces stands nested reads ih =>
      simp only [List.mem_cons] at found
      rcases found with (rfl | found) | (rfl | found)
      · exact eol_cases eol rest stands.1 stands.2
      · exact ih (Or.inl found)
      · exact eol_cases eol rest stands.1 stands.2
      · exact ih (Or.inr found)

variable (piece : LiteralPiece)

theorem pushed_single (marker : ∀ eol, piece = .continued eol → IsMarker eol)
    (single : piece.SingleEnd) : piece.pushed = piece.value := by
  cases piece with
  | continued eol =>
      rcases marker eol rfl with rfl | rfl | rfl
      · rfl
      · rfl
      · exact absurd rfl single
  | lineEnd eol => exact single
  | _ => rfl

theorem pushed_least (marker : ∀ eol, piece = .lineEnd eol → IsMarker eol) :
    piece.value.length ≤ piece.pushed.length ∧ piece.value.count 13 ≤ piece.pushed.count 13 := by
  cases piece with
  | continued eol => exact ⟨Nat.zero_le _, Nat.zero_le _⟩
  | lineEnd eol => rcases marker eol rfl with rfl | rfl | rfl <;> exact ⟨by decide, by decide⟩
  | _ => exact ⟨Nat.le_refl _, Nat.le_refl _⟩

theorem level_single (marker : ∀ eol, piece = .lineEnd eol → IsMarker eol)
    (long : piece.pushed.length = piece.value.length) (returns : piece.pushed.count 13 = piece.value.count 13) :
    piece.SingleEnd := by
  cases piece with
  | continued eol =>
      rintro rfl
      cases long
  | lineEnd eol =>
      rcases marker eol rfl with rfl | rfl | rfl
      · rfl
      · cases returns
      · cases long
  | _ => trivial

theorem pushed_iff (depth : Nat) (spelled : List UInt8) (pieces : List LiteralPiece) (reads : LiteralReads depth spelled pieces) :
    pieces.flatMap LiteralPiece.pushed = pieces.flatMap LiteralPiece.value ↔ ∀ piece ∈ pieces, piece.SingleEnd := by
  have continued : ∀ piece ∈ pieces, ∀ eol, piece = .continued eol → IsMarker eol := by
    rintro _ found eol rfl
    exact reads_markers reads (Or.inl found)
  have ended : ∀ piece ∈ pieces, ∀ eol, piece = .lineEnd eol → IsMarker eol := by
    rintro _ found eol rfl
    exact reads_markers reads (Or.inr found)
  constructor
  · intro same piece found
    have long := Summands.lengths_level
      (fun piece found => (pushed_least piece (ended piece found)).1) same piece found
    have returns := Summands.counts_level 13 LiteralPiece.pushed LiteralPiece.value pieces
      (fun piece found => (pushed_least piece (ended piece found)).2) same piece found
    exact level_single piece (ended piece found) long returns
  · intro single
    exact List.flatMap_congr fun piece found => pushed_single piece (continued piece found) (single piece found)

theorem literal_reads (spelled front back : List UInt8) (pieces : List LiteralPiece) (reads : LiteralReads 0 spelled pieces)
    (span : spelled.length ≤ maxLiteralSpan) :
    literalBytes (front ++ spelled ++ 41 :: back) front.length = (pieces.flatMap LiteralPiece.pushed).take literalCap := by
  have ahead : Ahead (front ++ spelled ++ 41 :: back) front.length (spelled ++ [41]) := by
    refine ⟨back, ?_⟩
    rw [List.append_assoc, List.append_assoc, List.drop_left]
    rfl
  exact reads_finish _ _ 0 spelled pieces reads front.length ahead (Nat.add_le_add_left span _) [] (Nat.zero_le _)

theorem taken_iff (pushed s : List UInt8) (short : s.length < literalCap) : pushed.take literalCap = s ↔ pushed = s := by
  constructor
  · intro same
    have long := congrArg List.length same
    rw [List.length_take] at long
    rwa [List.take_of_length_le (by omega)] at same
  · rintro rfl
    exact List.take_of_length_le (Nat.le_of_lt short)

theorem literal_string_iff (s spelled front back : List UInt8) (pieces : List LiteralPiece)
    (reads : LiteralReads 0 spelled pieces) (value : pieces.flatMap LiteralPiece.value = s) (filled : s ≠ [])
    (short : s.length < literalCap) (span : spelled.length ≤ maxLiteralSpan) :
    (literalBytes (front ++ spelled ++ 41 :: back) front.length = s ∧
      readLiteralString (front ++ spelled ++ 41 :: back) front.length = some (decodeTextString s)) ↔
      ∀ piece ∈ pieces, piece.SingleEnd := by
  have taken := taken_iff (pieces.flatMap LiteralPiece.pushed) s short
  rw [← literal_reads spelled front back pieces reads span, ← value, pushed_iff 0 spelled pieces reads, value] at taken
  rw [← taken]
  refine and_iff_left_of_imp fun same => ?_
  rw [readLiteralString, same, if_neg filled]

theorem literal_string_iff_nested :
    literalBytes ([40] ++ [97, 92, 110, 40, 92, 49, 48, 49, 92, 10, 41] ++ 41 :: [49]) 1 = [97, 10, 40, 65, 41] ∧
      readLiteralString ([40] ++ [97, 92, 110, 40, 92, 49, 48, 49, 92, 10, 41] ++ 41 :: [49]) 1 =
        some (decodeTextString [97, 10, 40, 65, 41]) := by
  have closing := LiteralReads.piece 1 0 .closing [] [] trivial rfl .done
  have continued := LiteralReads.piece 1 1 (.continued [10]) [41] [.closing] ⟨by decide, by decide⟩ rfl closing
  have octal := LiteralReads.piece 1 1 (.octal [49, 48, 49]) [92, 10, 41] _ ⟨by decide, by decide, by decide, by decide⟩ rfl continued
  have opening := LiteralReads.piece 0 1 .opening _ _ trivial rfl octal
  have letter := LiteralReads.piece 0 0 (.letter 110 10) _ _ (by decide : (110, 10) ∈ literalLetters) rfl opening
  have reads := LiteralReads.piece 0 0 (.plain 97) _ _ (by decide : (97 : UInt8) ∉ [92, 40, 41]) rfl letter
  refine (literal_string_iff _ _ [40] [49] _ reads rfl (by decide) (by decide) (by decide)).mpr ?_
  simp [LiteralPiece.SingleEnd]

-- `a\<CR><LF>b` is `ab`.
theorem continuation_keeps_feed : ∃ (spelled : List UInt8) (pieces : List LiteralPiece),
    LiteralReads 0 spelled pieces ∧ pieces.flatMap LiteralPiece.value = [97, 98] ∧ spelled.length ≤ maxLiteralSpan ∧
      readLiteralString ([40] ++ spelled ++ 41 :: []) 1 = some ['a', '\n', 'b'] ∧
      decodeTextString [97, 98] = ['a', 'b'] := by
  have last := LiteralReads.piece 0 0 (.plain 98) [] [] (by decide : (98 : UInt8) ∉ [92, 40, 41]) rfl .done
  have continued := LiteralReads.piece 0 0 (.continued [13, 10]) [98] [.plain 98] ⟨by decide, by decide⟩ rfl last
  have reads := LiteralReads.piece 0 0 (.plain 97) _ _ (by decide : (97 : UInt8) ∉ [92, 40, 41]) rfl continued
  exact ⟨_, _, reads, rfl, by decide, by decide +kernel, by decide +kernel⟩

end Filefacts.Pdf
