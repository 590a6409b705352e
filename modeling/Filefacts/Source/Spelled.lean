import Filefacts.Source.Literal

set_option autoImplicit false

namespace Filefacts.Source

open Filefacts.Output (Text)
open Filefacts.Structured (digitsValue isDigit toDigit)

-- The spellings of one character by an escape.
inductive Escape : Text → Char → Prop
  | letter (esc c : Char) (listed : (esc, c) ∈ letterEscapes) : Escape ['\\', esc] c
  | hex (digits : Text) (c : Char) (two : digits.length = 2) (value : digitsValue 16 digits = some c.toNat) :
      Escape ('\\' :: 'x' :: digits) c
  | unicode (digits : Text) (c : Char) (four : digits.length = 4) (value : digitsValue 16 digits = some c.toNat) :
      Escape ('\\' :: 'u' :: digits) c
  | pair (first second : Text) (high low : Nat) (c : Char) (fourFirst : first.length = 4) (fourSecond : second.length = 4)
      (highValue : digitsValue 16 first = some high) (lowValue : digitsValue 16 second = some low)
      (isHigh : 0xD800 ≤ high ∧ high ≤ 0xDBFF) (isLow : 0xDC00 ≤ low ∧ low ≤ 0xDFFF)
      (value : c.toNat = 0x10000 + (high - 0xD800) * 0x400 + (low - 0xDC00)) :
      Escape ('\\' :: 'u' :: first ++ '\\' :: 'u' :: second) c
  | braced (digits : Text) (c : Char) (some_digits : 1 ≤ digits.length ∧ digits.length ≤ 6)
      (value : digitsValue 16 digits = some c.toNat) : Escape ('\\' :: 'u' :: '{' :: digits ++ ['}']) c

-- The spellings of a text; a backslash before a line feed stands for nothing.
inductive Spells : Text → Text → Prop
  | nothing : Spells [] []
  | literal (c : Char) (rest s : Text) (plain : c ≠ '\\') (more : Spells rest s) : Spells (c :: rest) (c :: s)
  | escape (spelling : Text) (c : Char) (rest s : Text) (one : Escape spelling c) (more : Spells rest s) :
      Spells (spelling ++ rest) (c :: s)
  | continued (rest s : Text) (more : Spells rest s) : Spells ('\\' :: '\n' :: rest) s

variable (n : Nat) (digits : Text) (esc : Char) (lua : Bool)

variable (c : Char) (chars body : Text)

theorem char_from_u32_iff : charFromU32 n = some c ↔ c.toNat = n := by
  unfold charFromU32
  constructor
  · intro read
    obtain ⟨valid, same⟩ := Option.ite_none_right_eq_some.mp read
    rw [← Option.some.inj same, Char.ofNat, dif_pos valid]
    rfl
  · intro same
    have valid : n < 0xD800 ∨ (0xDFFF < n ∧ n < 0x110000) := same ▸ c.valid
    rw [if_pos valid, ← same, Char.ofNat_toNat]

theorem digits_value_cons (digits : Text) : digitsValue 16 (c :: digits) =
    (c :: digits).foldlM (fun n c => (toDigit 16 c).map fun digit => n * 16 + digit) 0 := rfl

theorem take_hex_escape_iff (value : Nat) (chars : Text) (taken : Nat) (rest : Text) :
    takeHexEscape n value chars = some (taken, rest) ↔ ∃ digits : Text, digits.length = n ∧ chars = digits ++ rest ∧
      digits.foldlM (fun n c => (toDigit 16 c).map fun digit => n * 16 + digit) value = some taken := by
  induction n generalizing value chars with
  | zero =>
      rw [takeHexEscape]
      constructor
      · intro read
        cases read
        exact ⟨[], rfl, rfl, rfl⟩
      · rintro ⟨digits, none, rfl, folded⟩
        obtain rfl := List.length_eq_zero_iff.mp none
        cases folded
        rfl
  | succ n ih =>
      cases chars with
      | nil =>
          constructor
          · intro read
            cases read
          · rintro ⟨digits, long, same, -⟩
            rw [(List.append_eq_nil_iff.mp same.symm).1] at long
            cases long
      | cons c chars =>
          rw [takeHexEscape]
          cases digit : toDigit 16 c with
          | none =>
              constructor
              · intro read
                cases read
              · rintro ⟨digits, long, same, folded⟩
                cases digits with
                | nil => cases long
                | cons d digits =>
                    rw [List.cons_append, List.cons.injEq] at same
                    rw [List.foldlM_cons, ← same.1, digit] at folded
                    cases folded
          | some d =>
              rw [ih]
              constructor
              · rintro ⟨digits, long, rfl, folded⟩
                refine ⟨c :: digits, by rw [List.length_cons, long], rfl, ?_⟩
                rw [List.foldlM_cons, digit]
                exact folded
              · rintro ⟨digits, long, same, folded⟩
                cases digits with
                | nil => cases long
                | cons first digits =>
                    rw [List.cons_append, List.cons.injEq] at same
                    rw [List.foldlM_cons, ← same.1, digit] at folded
                    exact ⟨digits, Nat.succ.inj long, same.2, folded⟩

theorem take_hex_value (taken : Nat) (rest : Text) : takeHexEscape (n + 1) 0 chars = some (taken, rest) ↔
      ∃ digits : Text, digits.length = n + 1 ∧ chars = digits ++ rest ∧ digitsValue 16 digits = some taken := by
  rw [take_hex_escape_iff]
  refine exists_congr fun digits => and_congr_right fun long => and_congr_right fun _ => ?_
  cases digits with
  | nil => cases long
  | cons c digits => rw [digits_value_cons]

theorem take_braced_iff (digits value : Nat) (chars : Text) (c : Char) (rest : Text) (few : digits ≤ 6) :
    takeBraced digits value chars = some (c, rest) ↔ ∃ more : Text, 0 < digits + more.length ∧ digits + more.length ≤ 6 ∧
      chars = more ++ '}' :: rest ∧
      more.foldlM (fun n c => (toDigit 16 c).map fun digit => n * 16 + digit) value = some c.toNat := by
  induction chars generalizing digits value with
  | nil =>
      constructor
      · intro read
        cases read
      · rintro ⟨more, -, -, same, -⟩
        have long := congrArg List.length same
        simp at long
  | cons d chars ih =>
      rw [takeBraced]
      by_cases closed : d = '}'
      · rw [if_pos closed]
        constructor
        · intro read
          obtain ⟨digited, read⟩ := Option.ite_none_right_eq_some.mp read
          obtain ⟨decoded, one, same⟩ := Option.map_eq_some_iff.mp read
          cases same
          exact ⟨[], digited, few, by rw [closed]; rfl, congrArg some ((char_from_u32_iff _ _).mp one).symm⟩
        · rintro ⟨more, digited, -, same, folded⟩
          cases more with
          | nil =>
              rw [List.nil_append, List.cons.injEq] at same
              rw [if_pos (by simpa using digited), (char_from_u32_iff value c).mpr (Option.some.inj folded).symm, same.2]
              rfl
          | cons first more =>
              have brace : toDigit 16 '}' = none := by decide
              rw [List.cons_append, List.cons.injEq, closed] at same
              rw [List.foldlM_cons, ← same.1, brace] at folded
              cases folded
      · rw [if_neg closed]
        have led : ∀ more : Text, d :: chars = more ++ '}' :: rest → ∃ others, more = d :: others ∧ chars = others ++ '}' :: rest := by
          intro more same
          cases more with
          | nil =>
              rw [List.nil_append, List.cons.injEq] at same
              exact absurd same.1 closed
          | cons first more =>
              rw [List.cons_append, List.cons.injEq] at same
              exact ⟨more, by rw [same.1], same.2⟩
        by_cases full : digits = 6
        · rw [if_pos full]
          constructor
          · intro read
            cases read
          · rintro ⟨more, -, few, same, -⟩
            obtain ⟨others, rfl, -⟩ := led more same
            rw [List.length_cons] at few
            omega
        · rw [if_neg full]
          cases digit : toDigit 16 d with
          | none =>
              constructor
              · intro read
                cases read
              · rintro ⟨more, -, -, same, folded⟩
                obtain ⟨others, rfl, -⟩ := led more same
                rw [List.foldlM_cons, digit] at folded
                cases folded
          | some found =>
              rw [ih (digits + 1) _ (by omega)]
              constructor
              · rintro ⟨more, -, few, rfl, folded⟩
                refine ⟨d :: more, by rw [List.length_cons]; omega, by rw [List.length_cons]; omega, rfl, ?_⟩
                rw [List.foldlM_cons, digit]
                exact folded
              · rintro ⟨more, -, few, same, folded⟩
                obtain ⟨others, rfl, behind⟩ := led more same
                rw [List.foldlM_cons, digit] at folded
                rw [List.length_cons] at few
                exact ⟨others, by omega, by omega, behind, folded⟩

theorem hex_digit_plain (value : Nat) (read : digitsValue 16 digits = some value) (c : Char) (inside : c ∈ digits) :
    ∃ digit, toDigit 16 c = some digit := by
  cases digits with
  | nil => cases inside
  | cons first digits =>
      rw [digits_value_cons] at read
      generalize first :: digits = all at read inside
      generalize 0 = start at read
      induction all generalizing start with
      | nil => cases inside
      | cons d all ih =>
          rw [List.foldlM_cons] at read
          obtain ⟨next, digit, read⟩ := Option.bind_eq_some_iff.mp read
          obtain ⟨found, digit, -⟩ := Option.map_eq_some_iff.mp digit
          cases inside with
          | head => exact ⟨found, digit⟩
          | tail _ inside => exact ih inside next read

theorem hex_digits_plain (value : Nat) (read : digitsValue 16 digits = some value) : '\\' ∉ digits := by
  intro inside
  obtain ⟨digit, found⟩ := hex_digit_plain digits value read '\\' inside
  have none_found : toDigit 16 '\\' = none := by decide
  rw [none_found] at found
  cases found

theorem four_digits_unbraced (rest : Text) (value : Nat) (four : digits.length = 4) (read : digitsValue 16 digits = some value) :
    (digits ++ rest).head? ≠ some '{' := by
  cases digits with
  | nil => cases four
  | cons first digits =>
      intro braced
      obtain ⟨digit, found⟩ := hex_digit_plain _ value read first List.mem_cons_self
      rw [List.cons_append, List.head?_cons, Option.some.injEq] at braced
      have brace : toDigit 16 '{' = none := by decide
      rw [braced, brace] at found
      cases found

theorem surrogate_alone (high : Nat) (surrogate : 0xD800 ≤ high ∧ high ≤ 0xDFFF) : charFromU32 high = none := by
  unfold charFromU32
  rw [if_neg (by omega)]

theorem unicode_escape_complete (rest : Text) (c : Char) (one : Escape ('\\' :: 'u' :: body) c) :
    decodeUnicodeEscape (body ++ rest) = some (c, rest) := by
  generalize shape : '\\' :: 'u' :: body = spelling at one
  unfold decodeUnicodeEscape
  cases one with
  | letter esc c listed =>
      simp only [List.cons.injEq] at shape
      obtain ⟨-, rfl, -⟩ := shape
      simp [letterEscapes] at listed
  | hex digits c two value => simp only [List.cons.injEq, Char.reduceEq, false_and, and_false] at shape
  | unicode digits c four value =>
      simp only [List.cons.injEq, true_and] at shape
      have read := (take_hex_value 3 (body ++ rest) c.toNat rest).mpr ⟨digits, four, by rw [shape], value⟩
      rw [shape, if_neg (four_digits_unbraced digits rest _ four value), ← shape, read]
      simp only [(char_from_u32_iff _ _).mpr rfl]
  | pair first second high low c fourFirst fourSecond highValue lowValue isHigh isLow value =>
      simp only [List.cons_append, List.cons.injEq, true_and] at shape
      have whole : body ++ rest = first ++ ('\\' :: 'u' :: second ++ rest) := by rw [shape, List.append_assoc]
      have read := (take_hex_value 3 (body ++ rest) high _).mpr ⟨first, fourFirst, whole, highValue⟩
      have more := (take_hex_value 3 (second ++ rest) low rest).mpr ⟨second, fourSecond, rfl, lowValue⟩
      have combined : charFromU32 (0x10000 + ((high - 0xD800) <<< 10) + (low - 0xDC00)) = some c := by
        rw [char_from_u32_iff, value, Nat.shiftLeft_eq]
      rw [whole, if_neg (four_digits_unbraced first _ _ fourFirst highValue), ← whole, read]
      simp only [surrogate_alone high (by omega), not_true, if_neg, isHigh, and_self, if_false]
      simp only [List.cons_append, List.take_succ_cons, List.take_zero, List.drop_succ_cons, List.drop_zero, ne_eq, not_true, if_false,
        more, isLow, and_self, combined, Option.map_some]
  | braced digits c some_digits value =>
      simp only [List.cons_append, List.cons.injEq, true_and] at shape
      have folded : digits.foldlM (fun n c => (toDigit 16 c).map fun digit => n * 16 + digit) 0 = some c.toNat := by
        cases digits with
        | nil => exact absurd some_digits.1 (by decide)
        | cons first digits => rw [← digits_value_cons, value]
      rw [shape, List.cons_append, List.head?_cons, if_pos rfl, List.tail_cons]
      refine (take_braced_iff 0 0 _ c rest (by decide)).mpr ⟨digits, by omega, by omega, ?_, folded⟩
      rw [List.append_assoc]
      rfl

theorem unicode_escape_sound {chars : Text} {c : Char} {rest : Text} (read : decodeUnicodeEscape chars = some (c, rest)) :
    ∃ body, Escape ('\\' :: 'u' :: body) c ∧ chars = body ++ rest := by
  unfold decodeUnicodeEscape at read
  by_cases braced : chars.head? = some '{'
  · rw [if_pos braced] at read
    obtain ⟨digits, digited, few, behind, folded⟩ := (take_braced_iff 0 0 _ c rest (by decide)).mp read
    have value : digitsValue 16 digits = some c.toNat := by
      cases digits with
      | nil => exact absurd digited (by decide)
      | cons first digits => rw [digits_value_cons, folded]
    refine ⟨'{' :: digits ++ ['}'], .braced digits c ⟨by omega, by omega⟩ value, ?_⟩
    obtain ⟨tail, rfl⟩ := List.head?_eq_some_iff.mp braced
    rw [List.tail_cons] at behind
    rw [behind]
    simp
  · rw [if_neg braced] at read
    cases four : takeHexEscape 4 0 chars with
    | none =>
        rw [four] at read
        cases read
    | some taken =>
        obtain ⟨high, behind⟩ := taken
        obtain ⟨first, long, rfl, highValue⟩ := (take_hex_value 3 chars high behind).mp four
        rw [four] at read
        cases alone : charFromU32 high with
        | some decoded =>
            simp only [alone, Option.some.injEq, Prod.mk.injEq] at read
            obtain ⟨rfl, rfl⟩ := read
            rw [← (char_from_u32_iff high decoded).mp alone] at highValue
            exact ⟨first, .unicode first decoded long highValue, rfl⟩
        | none =>
            simp only [alone, Option.ite_none_left_eq_some] at read
            obtain ⟨isHigh, follows, read⟩ := read
            cases more : takeHexEscape 4 0 (behind.drop 2) with
            | none =>
                rw [more] at read
                cases read
            | some taken =>
                obtain ⟨low, after⟩ := taken
                obtain ⟨second, longSecond, following, lowValue⟩ := (take_hex_value 3 _ low after).mp more
                simp only [more, Option.ite_none_left_eq_some, Option.map_eq_some_iff, Prod.mk.injEq] at read
                obtain ⟨isLow, decoded, combined, rfl, rfl⟩ := read
                rw [char_from_u32_iff, Nat.shiftLeft_eq] at combined
                refine ⟨first ++ '\\' :: 'u' :: second, .pair first second high low decoded long longSecond highValue lowValue
                  (Decidable.not_not.mp isHigh) (Decidable.not_not.mp isLow) combined, ?_⟩
                have split : behind = '\\' :: 'u' :: second ++ after := by
                  rw [← List.take_append_drop 2 behind, following, Decidable.not_not.mp follows]
                  rfl
                rw [split, List.append_assoc]

theorem letter_escapes_lookup (listed : (esc, c) ∈ letterEscapes) : letterEscapes.lookup esc = some c := by
  have every : ∀ entry ∈ letterEscapes, letterEscapes.lookup entry.1 = some entry.2 := by decide +kernel
  exact every (esc, c) listed

theorem lookup_listed (entries : List (Char × Char)) (found : entries.lookup esc = some c) : (esc, c) ∈ entries := by
  obtain ⟨front, back, same, -⟩ := List.lookup_eq_some_iff.mp found
  rw [same]
  exact List.mem_append_right _ List.mem_cons_self

theorem escaped_complete (rest : Text) (c : Char) (one : Escape ('\\' :: esc :: body) c) :
    escaped false esc (body ++ rest) = ([c], rest) := by
  have unread := unicode_escape_complete body rest c
  unfold escaped
  rw [if_neg (fun lua => Bool.false_ne_true lua.2), if_neg (fun lua => Bool.false_ne_true lua.2)]
  generalize shape : '\\' :: esc :: body = spelling at one
  cases one with
  | letter letter c listed =>
      simp only [List.cons.injEq, true_and] at shape
      obtain ⟨rfl, rfl⟩ := shape
      rw [letter_escapes_lookup esc c listed]
      rfl
  | hex digits c two value =>
      simp only [List.cons.injEq, true_and] at shape
      obtain ⟨rfl, rfl⟩ := shape
      have letter : letterEscapes.lookup 'x' = none := rfl
      have read := (take_hex_value 1 (body ++ rest) c.toNat rest).mpr ⟨body, two, rfl, value⟩
      have decoded : charFromU32 c.toNat = some c := (char_from_u32_iff _ _).mpr rfl
      rw [letter, read]
      simp [decoded]
  | unicode digits c four value =>
      simp only [List.cons.injEq, true_and] at shape
      obtain ⟨rfl, rfl⟩ := shape
      have letter : letterEscapes.lookup 'u' = none := rfl
      rw [letter, unread (.unicode body c four value)]
      simp
  | pair first second high low c fourFirst fourSecond highValue lowValue isHigh isLow value =>
      simp only [List.cons_append, List.cons.injEq, true_and] at shape
      obtain ⟨rfl, rfl⟩ := shape
      have letter : letterEscapes.lookup 'u' = none := rfl
      rw [letter, unread (.pair first second high low c fourFirst fourSecond highValue lowValue isHigh isLow value)]
      simp
  | braced digits c some_digits value =>
      simp only [List.cons_append, List.cons.injEq, true_and] at shape
      obtain ⟨rfl, rfl⟩ := shape
      have letter : letterEscapes.lookup 'u' = none := rfl
      rw [letter, unread (.braced digits c some_digits value)]
      simp

theorem escaped_sound : escaped false esc chars = (['\\', esc], chars) ∨
    (esc = '\n' ∧ escaped false esc chars = ([], chars)) ∨
    ∃ body c rest, Escape ('\\' :: esc :: body) c ∧ chars = body ++ rest ∧ escaped false esc chars = ([c], rest) := by
  unfold escaped
  rw [if_neg (fun lua => Bool.false_ne_true lua.2), if_neg (fun lua => Bool.false_ne_true lua.2)]
  cases found : letterEscapes.lookup esc with
  | some c => exact .inr (.inr ⟨[], c, chars, .letter esc c (lookup_listed esc c _ found), rfl, rfl⟩)
  | none =>
      by_cases continued : esc = '\n'
      · exact .inr (.inl ⟨continued, by simp only [if_pos continued]⟩)
      · by_cases hex : esc = 'x'
        · simp only [if_neg continued, if_pos hex]
          cases read : (takeHexEscape 2 0 chars).bind fun taken => (charFromU32 taken.1).map fun decoded => (decoded, taken.2) with
          | none => exact .inl (by rw [hex])
          | some decoded =>
              obtain ⟨taken, two, mapped⟩ := Option.bind_eq_some_iff.mp read
              obtain ⟨c, one, rfl⟩ := Option.map_eq_some_iff.mp mapped
              obtain ⟨digits, long, behind, value⟩ := (take_hex_value 1 chars taken.1 taken.2).mp two
              rw [← (char_from_u32_iff _ _).mp one] at value
              exact .inr (.inr ⟨digits, c, taken.2, hex ▸ .hex digits c long value, behind, rfl⟩)
        · by_cases unicode : esc = 'u'
          · simp only [if_neg continued, if_neg hex, if_pos unicode]
            cases read : decodeUnicodeEscape chars with
            | none => exact .inl (by rw [unicode])
            | some decoded =>
                obtain ⟨body, one, behind⟩ := unicode_escape_sound read
                exact .inr (.inr ⟨body, decoded.1, decoded.2, unicode ▸ one, behind, rfl⟩)
          · exact .inl (by simp only [if_neg continued, if_neg hex, if_neg unicode])

@[simp] theorem decode_chars_nil : decodeChars lua [] = [] := by
  rw [decodeChars]

theorem decode_chars_literal (plain : c ≠ '\\') : decodeChars lua (c :: chars) = c :: decodeChars lua chars := by
  rw [decodeChars.eq_def]
  exact if_pos plain

theorem decode_chars_escaped : decodeChars lua ('\\' :: esc :: chars) =
    (escaped lua esc chars).1 ++ decodeChars lua (escaped lua esc chars).2 := by
  rw [decodeChars, if_neg (not_not_intro rfl)]

theorem decode_chars_plain {front : Text} (rest : Text) (plain : '\\' ∉ front) :
    decodeChars lua (front ++ rest) = front ++ decodeChars lua rest := by
  induction front with
  | nil => rfl
  | cons c front ih =>
      rw [List.mem_cons, not_or] at plain
      rw [List.cons_append, decode_chars_literal lua c _ (Ne.symm plain.1), ih plain.2, List.cons_append]

theorem decode_language_eq (s : Text) (lua : Bool) : decodeLanguage s lua = decodeChars lua s := by
  unfold decodeLanguage
  by_cases plain : '\\' ∉ s
  · have whole := decode_chars_plain lua [] plain
    rw [List.append_nil] at whole
    rw [if_pos plain, whole, decode_chars_nil, List.append_nil]
  · rw [if_neg plain]

theorem escape_shape {spelling : Text} {c : Char} (one : Escape spelling c) : ∃ esc body, spelling = '\\' :: esc :: body := by
  cases one with
  | letter esc c listed => exact ⟨_, _, rfl⟩
  | hex => exact ⟨_, _, rfl⟩
  | unicode => exact ⟨_, _, rfl⟩
  | pair => exact ⟨_, _, rfl⟩
  | braced => exact ⟨_, _, rfl⟩

theorem spelled_decodes (front s : Text) (spelled : Spells front s) (rest : Text) : decode (front ++ rest) = s ++ decode rest := by
  simp only [decode, decode_language_eq]
  induction spelled with
  | nothing => rfl
  | literal c front s plain more ih => rw [List.cons_append, decode_chars_literal false c _ plain, ih, List.cons_append]
  | escape spelling c front s one more ih =>
      obtain ⟨esc, body, rfl⟩ := escape_shape one
      have step := escaped_complete esc body (front ++ rest) c one
      rw [List.append_assoc, List.cons_append, List.cons_append, decode_chars_escaped, step, ih, List.singleton_append,
        List.cons_append]
  | continued front s more ih =>
      have step : escaped false '\n' (front ++ rest) = ([], front ++ rest) := by
        have letter : letterEscapes.lookup '\n' = none := rfl
        unfold escaped
        rw [if_neg (fun lua => Bool.false_ne_true lua.2), if_neg (fun lua => Bool.false_ne_true lua.2), letter]
        rfl
      rw [List.cons_append, List.cons_append, decode_chars_escaped, step, ih, List.nil_append]

theorem undecodable_kept (rest : Text) (plain : '\\' ∉ body) (whole : body = [] → rest = [])
    (noEscape : ∀ spelling c, Escape spelling c → ¬ spelling <+: '\\' :: body ++ rest)
    (noContinuation : ¬ ['\\', '\n'] <+: '\\' :: body ++ rest) :
    decode ('\\' :: body ++ rest) = '\\' :: body ++ decode rest := by
  simp only [decode, decode_language_eq]
  cases body with
  | nil =>
      rw [whole rfl]
      simp [decodeChars]
  | cons esc body =>
      rw [List.mem_cons, not_or] at plain
      have step : escaped false esc (body ++ rest) = (['\\', esc], body ++ rest) := by
        rcases escaped_sound esc (body ++ rest) with kept | ⟨newline, -⟩ | ⟨digits, c, behind, one, same, -⟩
        · exact kept
        · exact absurd ⟨body ++ rest, by rw [newline]; rfl⟩ noContinuation
        · exact absurd ⟨behind, by simp [same]⟩ (noEscape _ c one)
      rw [List.cons_append, List.cons_append, decode_chars_escaped, step, decode_chars_plain false rest plain.2]
      rfl

-- Decoding undoes every spelling, whatever follows it, leaves a text without backslashes alone, and keeps what is no escape.
theorem decode_spelled_escapes :
    (∀ text s : Text, Spells text s → decode text = s) ∧
    (∀ s : Text, '\\' ∉ s → decode s = s) ∧
    (∀ front s body rest : Text, Spells front s → '\\' ∉ body → (body = [] → rest = []) →
      (∀ spelling c, Escape spelling c → ¬ spelling <+: '\\' :: body ++ rest) →
      ¬ ['\\', '\n'] <+: '\\' :: body ++ rest →
      decode (front ++ ('\\' :: body ++ rest)) = s ++ ('\\' :: body ++ decode rest)) := by
  refine ⟨?_, ?_, ?_⟩
  · intro text s spelled
    have read := spelled_decodes text s spelled []
    simpa [decode, decodeLanguage] using read
  · intro s plain
    exact if_pos plain
  · intro front s body rest spelled plain whole noEscape noContinuation
    rw [spelled_decodes front s spelled, undecodable_kept body rest plain whole noEscape noContinuation]

-- An escaped letter over a line continuation, and a lone surrogate before an escape that is not its pair.
theorem decode_spelled_escapes_surrogate :
    decode ['\\', 'x', '4', '1', '\\', '\n', 'B'] = ['A', 'B'] ∧
      decode ['\\', 'n', '\\', 'u', 'D', '8', '3', 'D', '\\', 't'] = ['\n', '\\', 'u', 'D', '8', '3', 'D', '\t'] := by
  have spelledB : Spells ['\\', '\n', 'B'] ['B'] := .continued _ _ (.literal 'B' [] [] (by decide) .nothing)
  have spelledA : Spells ['\\', 'x', '4', '1', '\\', '\n', 'B'] ['A', 'B'] :=
    .escape ['\\', 'x', '4', '1'] 'A' _ _ (.hex ['4', '1'] 'A' rfl (by decide +kernel)) spelledB
  have spelledFeed : Spells ['\\', 'n'] ['\n'] := .escape ['\\', 'n'] '\n' [] [] (.letter 'n' '\n' (by decide +kernel)) .nothing
  have lone : escaped false 'u' ['D', '8', '3', 'D', '\\', 't'] = (['\\', 'u'], ['D', '8', '3', 'D', '\\', 't']) := by decide +kernel
  have noEscape : ∀ spelling c, Escape spelling c → ¬ spelling <+: ['\\', 'u', 'D', '8', '3', 'D', '\\', 't'] := by
    rintro spelling c one ⟨rest, same⟩
    obtain ⟨esc, body, rfl⟩ := escape_shape one
    rw [List.cons_append, List.cons_append, List.cons.injEq, List.cons.injEq] at same
    obtain ⟨-, rfl, behind⟩ := same
    have read := escaped_complete 'u' body rest c one
    rw [behind, lone] at read
    cases read
  refine ⟨decode_spelled_escapes.1 _ _ spelledA, ?_⟩
  have kept := decode_spelled_escapes.2.2 ['\\', 'n'] ['\n'] ['u', 'D', '8', '3', 'D'] ['\\', 't'] spelledFeed (by decide) (by decide)
    noEscape (by decide)
  exact kept.trans (by decide +kernel)

end Filefacts.Source