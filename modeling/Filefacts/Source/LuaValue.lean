import Filefacts.Source.LuaString

set_option autoImplicit false

namespace Filefacts.Source

open Filefacts.Bytes (encodePoint)
open Filefacts.Lossy (utf8)
open Filefacts.Output (Text)
open Filefacts.Structured (digitsValue isDigit stripped toDigit)

variable (esc c : Char) (digits rest : Text) (quote : Char)

variable (chars blanks : Text) (n : Nat)

theorem escaped_lua (plain : isDigit esc = false) (other : esc ≠ 'z') : escaped true esc chars = escaped false esc chars := by
  have decimal : ∀ lua : Bool, ¬ (isDigit esc ∧ lua) := fun lua both => Bool.false_ne_true (plain.symm.trans both.1)
  have skipping : ∀ lua : Bool, ¬ (esc = 'z' ∧ lua) := fun lua both => other both.1
  unfold escaped
  rw [if_neg (decimal true), if_neg (skipping true), if_neg (decimal false), if_neg (skipping false)]

theorem to_digit_decimal (digit : Nat) (read : toDigit 10 c = some digit) : isDigit c = true := by
  unfold toDigit at read
  by_cases plain : isDigit c
  · exact plain
  · rw [if_neg plain] at read
    obtain ⟨found, small⟩ := Option.filter_eq_some_iff.mp read
    by_cases lower : 'a' ≤ c && c ≤ 'z'
    · rw [if_pos lower] at found
      simp only [Bool.and_eq_true, decide_eq_true_eq, Char.le_def] at lower
      have least : 97 ≤ c.toNat := lower.1
      simp only [Option.some.injEq] at found
      simp only [decide_eq_true_eq] at small
      omega
    · rw [if_neg lower] at found
      by_cases upper : 'A' ≤ c && c ≤ 'Z'
      · rw [if_pos upper] at found
        simp only [Bool.and_eq_true, decide_eq_true_eq, Char.le_def] at upper
        have least : 65 ≤ c.toNat := upper.1
        simp only [Option.some.injEq] at found
        simp only [decide_eq_true_eq] at small
        omega
      · rw [if_neg upper] at found
        cases found

theorem take_decimal_reads (count : Nat) (digits rest : Text) (start value : Nat) (few : digits.length ≤ count)
    (read : digits.foldlM (fun n c => (toDigit 10 c).map fun digit => n * 10 + digit) start = some value)
    (ends : digits.length < count → ¬ rest.head?.any isDigit) :
    takeDecimal count start (digits ++ rest) = (value, rest) := by
  induction count generalizing digits start with
  | zero =>
      obtain rfl := List.length_eq_zero_iff.mp (Nat.le_zero.mp few)
      cases read
      rfl
  | succ count ih =>
      cases digits with
      | nil =>
          cases read
          have stop := ends (Nat.succ_pos _)
          cases rest with
          | nil => rfl
          | cons c rest =>
              rw [List.head?_cons, Option.any_some, Bool.not_eq_true] at stop
              have unread : toDigit 10 c = none := by
                cases digit : toDigit 10 c with
                | none => rfl
                | some found =>
                    rw [to_digit_decimal c found digit] at stop
                    cases stop
              rw [List.nil_append, takeDecimal, List.head?_cons, Option.bind_some, unread]
      | cons c digits =>
          rw [List.foldlM_cons] at read
          obtain ⟨next, first, read⟩ := Option.bind_eq_some_iff.mp read
          obtain ⟨digit, found, rfl⟩ := Option.map_eq_some_iff.mp first
          rw [List.length_cons] at few ends
          rw [List.cons_append, takeDecimal, List.head?_cons, Option.bind_some, found, List.tail_cons]
          exact ih digits _ (by omega) read fun fewer => ends (by omega)

theorem no_backslash_blanks (all : blanks.all isLuaSpace) : '\\' ∉ blanks := fun inside =>
  absurd (List.all_eq_true.mp all '\\' inside) (by decide)

theorem ascii_space_lua (space : isAsciiWhitespace c = true) : isLuaSpace c = true := by
  simp only [isAsciiWhitespace, isLuaSpace, Bool.or_eq_true, decide_eq_true_eq] at space ⊢
  tauto

theorem blanks_dropped (rest : Text) (ends : ¬ rest.head?.any isLuaSpace) :
    (blanks ++ rest).dropWhile isAsciiWhitespace = blanks.dropWhile isAsciiWhitespace ++ rest := by
  induction blanks with
  | nil =>
      cases rest with
      | nil => rfl
      | cons c rest =>
          rw [List.head?_cons, Option.any_some] at ends
          exact List.dropWhile_cons_of_neg fun space => ends (ascii_space_lua c space)
  | cons c blanks ih =>
      by_cases space : isAsciiWhitespace c
      · rw [List.cons_append, List.dropWhile_cons_of_pos space, List.dropWhile_cons_of_pos space, ih]
      · rw [List.cons_append, List.dropWhile_cons_of_neg space, List.dropWhile_cons_of_neg space]
        rfl

theorem lua_letter_listed (listed : (esc, c) ∈ luaLetters) : (esc, c) ∈ letterEscapes ∧ isDigit esc = false ∧ esc ≠ 'z' := by
  simp only [luaLetters, List.mem_cons, Prod.mk.injEq, List.not_mem_nil, or_false] at listed
  rcases listed with ⟨rfl, rfl⟩ | ⟨rfl, rfl⟩ | ⟨rfl, rfl⟩ | ⟨rfl, rfl⟩ | ⟨rfl, rfl⟩ | ⟨rfl, rfl⟩ | ⟨rfl, rfl⟩ | ⟨rfl, rfl⟩ | ⟨rfl, rfl⟩ |
    ⟨rfl, rfl⟩ <;> decide +kernel

theorem octet_char (small : n < 256) : (Char.ofNat n).toNat = n := by
  have valid : n < 0xD800 ∨ (0xDFFF < n ∧ n < 0x110000) := by omega
  exact (char_from_u32_iff n (Char.ofNat n)).mp (by rw [charFromU32, if_pos valid])

theorem two_digits_small (two : digits.length = 2) (value : digitsValue 16 digits = some n) : n < 256 := by
  match digits, two with
  | [first, second], _ =>
      have below : ∀ c digit, toDigit 16 c = some digit → digit < 16 := fun c digit read =>
        of_decide_eq_true (Option.filter_eq_some_iff.mp read).2
      simp only [digits_value_cons, List.foldlM_cons, List.foldlM_nil] at value
      obtain ⟨high, first, value⟩ := Option.bind_eq_some_iff.mp value
      obtain ⟨left, read, rfl⟩ := Option.map_eq_some_iff.mp first
      obtain ⟨whole, second, value⟩ := Option.bind_eq_some_iff.mp value
      obtain ⟨right, readRight, rfl⟩ := Option.map_eq_some_iff.mp second
      have one := below _ left read
      have two := below _ right readRight
      cases value
      omega

theorem braces_unread (n : Nat) (value : digitsValue 16 digits = some n)
    (foreign : ¬ (digits.length ≤ 6 ∧ (n < 0xD800 ∨ (0xDFFF < n ∧ n < 0x110000)))) :
    decodeUnicodeEscape ('{' :: digits ++ '}' :: rest) = none := by
  cases read : decodeUnicodeEscape ('{' :: digits ++ '}' :: rest) with
  | none => rfl
  | some decoded =>
      unfold decodeUnicodeEscape at read
      rw [List.cons_append, List.head?_cons, if_pos rfl, List.tail_cons] at read
      obtain ⟨more, some_digits, few, same, folded⟩ := (take_braced_iff 0 0 _ decoded.1 decoded.2 (by decide)).mp read
      have closing : toDigit 16 '}' = none := by decide
      have digitsPlain : '}' ∉ digits := fun inside => by
        obtain ⟨digit, found⟩ := hex_digit_plain digits n value '}' inside
        rw [closing] at found
        cases found
      have moreValue : digitsValue 16 more = some decoded.1.toNat := by
        cases more with
        | nil => exact absurd some_digits (by decide)
        | cons first more => rw [digits_value_cons, folded]
      have morePlain : '}' ∉ more := fun inside => by
        obtain ⟨digit, found⟩ := hex_digit_plain more _ moreValue '}' inside
        rw [closing] at found
        cases found
      have shared : digits = more := by
        have first : (digits ++ '}' :: rest).takeWhile (· != '}') = digits := by
          have unclosed : ∀ c ∈ digits, (c != '}') = true := fun c inside => bne_iff_ne.mpr fun closes => digitsPlain (closes ▸ inside)
          rw [List.takeWhile_append_of_pos unclosed]
          simp
        have second : (more ++ '}' :: decoded.2).takeWhile (· != '}') = more := by
          have unclosed : ∀ c ∈ more, (c != '}') = true := fun c inside => bne_iff_ne.mpr fun closes => morePlain (closes ▸ inside)
          rw [List.takeWhile_append_of_pos unclosed]
          simp
        rw [← first, same, second]
      rw [← shared, value] at moreValue
      rw [← shared] at few
      have scalar := decoded.1.valid
      rw [Option.some.injEq] at moreValue
      exact absurd ⟨by omega, moreValue ▸ scalar⟩ foreign

theorem decode_chars_shared (plain : isDigit esc = false) (other : esc ≠ 'z') :
    decodeChars true ('\\' :: esc :: chars) = (escaped false esc chars).1 ++ decodeChars true (escaped false esc chars).2 := by
  rw [decode_chars_escaped, escaped_lua esc chars plain other]

theorem decode_chars_decimal (few : digits.length ≤ 3) (value : digitsValue 10 digits = some n)
    (small : n ≤ 255) (ends : digits.length < 3 → ¬ rest.head?.any isDigit) :
    decodeChars true ('\\' :: (digits ++ rest)) = Char.ofNat n :: decodeChars true rest := by
  cases digits with
  | nil => cases value
  | cons first digits =>
      have folded : (first :: digits).foldlM (fun n c => (toDigit 10 c).map fun digit => n * 10 + digit) 0 = some n := value
      rw [List.foldlM_cons] at folded
      obtain ⟨start, one, folded⟩ := Option.bind_eq_some_iff.mp folded
      obtain ⟨digit, read, same⟩ := Option.map_eq_some_iff.mp one
      rw [Nat.zero_mul, Nat.zero_add] at same
      rw [List.length_cons] at few ends
      have taken := take_decimal_reads 2 digits rest start n (by omega) folded fun fewer => ends (by omega)
      have pushed : escaped true first (digits ++ rest) = ([Char.ofNat n], rest) := by
        have fits : n < 256 := by omega
        unfold escaped
        rw [if_pos ⟨to_digit_decimal first digit read, rfl⟩, read, Option.getD_some, same, taken]
        simp only [fits, if_true]
      rw [List.cons_append, decode_chars_escaped, pushed]
      rfl

theorem break_shapes {spelled rest : Text} (some_break : 0 < spelled.length)
    (read : breakLength (spelled ++ rest) = spelled.length) : spelled = ['\n'] ∨ spelled = ['\n', '\r'] ∨
      ∃ more, spelled = '\r' :: more ∧ '\\' ∉ more := by
  have whole : ∀ text : Text, breakLength text = 2 → ∃ more, text = '\r' :: '\n' :: more ∨ text = '\n' :: '\r' :: more := by
    intro text two
    unfold breakLength at two
    by_cases pair : (['\r', '\n'].isPrefixOf text || ['\n', '\r'].isPrefixOf text) = true
    · rw [Bool.or_eq_true, List.isPrefixOf_iff_prefix, List.isPrefixOf_iff_prefix] at pair
      rcases pair with ⟨more, same⟩ | ⟨more, same⟩
      · exact ⟨more, .inl same.symm⟩
      · exact ⟨more, .inr same.symm⟩
    · rw [if_neg pair] at two
      split at two
      · cases two
      · cases two
  have single : ∀ text : Text, breakLength text = 1 → text.head? = some '\r' ∨ text.head? = some '\n' := by
    intro text one
    unfold breakLength at one
    split at one
    · cases one
    · split at one
      · assumption
      · cases one
  have bounded : breakLength (spelled ++ rest) ≤ 2 := by
    unfold breakLength
    split
    · exact Nat.le_refl _
    · split
      · decide
      · decide
  match spelled, some_break with
  | [c], _ =>
      rcases single _ read with first | first
      · rw [List.cons_append, List.head?_cons, Option.some.injEq] at first
        exact .inr (.inr ⟨[], by rw [first], by simp⟩)
      · rw [List.cons_append, List.head?_cons, Option.some.injEq] at first
        exact .inl (by rw [first])
  | [c, d], _ =>
      obtain ⟨more, same | same⟩ := whole _ read
      · simp only [List.cons_append, List.nil_append, List.cons.injEq] at same
        exact .inr (.inr ⟨['\n'], by rw [same.1, same.2.1], by decide⟩)
      · simp only [List.cons_append, List.nil_append, List.cons.injEq] at same
        exact .inr (.inl (by rw [same.1, same.2.1]))
  | _ :: _ :: _ :: more, _ =>
      rw [read] at bounded
      simp only [List.length_cons] at bounded
      omega

theorem unicode_kept (n : Nat) (value : digitsValue 16 digits = some n)
    (foreign : ¬ (digits.length ≤ 6 ∧ (n < 0xD800 ∨ (0xDFFF < n ∧ n < 0x110000)))) :
    escaped false 'u' ('{' :: digits ++ '}' :: rest) = (['\\', 'u'], '{' :: digits ++ '}' :: rest) := by
  have letter : letterEscapes.lookup 'u' = none := rfl
  unfold escaped
  rw [if_neg (fun lua => Bool.false_ne_true lua.2), if_neg (fun lua => Bool.false_ne_true lua.2), letter,
    braces_unread digits rest n value foreign]
  rfl

theorem piece_pushed (piece : LuaPiece) (rest : Text) (stands : piece.Stands quote rest) :
    decodeChars true (piece.spelled ++ rest) = piece.pushed ++ decodeChars true rest := by
  cases piece with
  | plain c =>
      have other : c ≠ '\\' := fun same => stands.2 (by simp [same])
      exact decode_chars_literal true c rest other
  | letter esc c =>
      obtain ⟨listed, digit, skip⟩ := lua_letter_listed esc c stands
      have read := escaped_complete esc [] rest c (.letter esc c listed)
      rw [List.nil_append] at read
      change decodeChars true ('\\' :: esc :: rest) = _
      rw [decode_chars_shared esc rest digit skip, read]
      rfl
  | hex digits n =>
      obtain ⟨two, value⟩ := stands
      have same := octet_char n (two_digits_small digits n two value)
      have read := escaped_complete 'x' digits rest (Char.ofNat n) (.hex digits _ two (same.symm ▸ value))
      change decodeChars true ('\\' :: 'x' :: (digits ++ rest)) = _
      rw [decode_chars_shared 'x' _ (by decide) (by decide), read]
      rfl
  | decimal digits n =>
      obtain ⟨few, value, small, ends⟩ := stands
      exact decode_chars_decimal digits rest n few value small ends
  | unicode digits n =>
      obtain ⟨value, -⟩ := stands
      have spelled : (LuaPiece.unicode digits n).spelled ++ rest = '\\' :: 'u' :: ('{' :: digits ++ '}' :: rest) := by
        simp [LuaPiece.spelled]
      rw [spelled, decode_chars_shared 'u' _ (by decide) (by decide)]
      by_cases shared : digits.length ≤ 6 ∧ (n < 0xD800 ∨ (0xDFFF < n ∧ n < 0x110000))
      · have same : (Char.ofNat n).toNat = n := (char_from_u32_iff n _).mp (by rw [charFromU32, if_pos shared.2])
        have some_digits : 1 ≤ digits.length := by
          cases digits with
          | nil => cases value
          | cons => exact Nat.succ_le_succ (Nat.zero_le _)
        have read := escaped_complete 'u' ('{' :: digits ++ ['}']) rest (Char.ofNat n)
          (.braced digits _ ⟨some_digits, shared.1⟩ (same.symm ▸ value))
        have behind : '{' :: digits ++ '}' :: rest = ('{' :: digits ++ ['}']) ++ rest := by simp
        rw [behind, read, LuaPiece.pushed, if_pos shared]
      · have plain : '\\' ∉ '{' :: digits ++ ['}'] := by
          have digitsPlain := hex_digits_plain digits n value
          simp [digitsPlain]
        have behind : '{' :: digits ++ '}' :: rest = ('{' :: digits ++ ['}']) ++ rest := by simp
        rw [unicode_kept digits rest n value shared, LuaPiece.pushed, if_neg shared, behind, decode_chars_plain true rest plain]
        rfl
  | newline spelled =>
      obtain ⟨some_break, read⟩ := stands
      rcases break_shapes some_break read with rfl | rfl | ⟨more, rfl, plain⟩
      · have pushed : escaped false '\n' rest = ([], rest) := rfl
        change decodeChars true ('\\' :: '\n' :: rest) = _
        rw [decode_chars_shared '\n' rest (by decide) (by decide), pushed]
        rfl
      · have pushed : escaped false '\n' ('\r' :: rest) = ([], '\r' :: rest) := rfl
        change decodeChars true ('\\' :: '\n' :: '\r' :: rest) = _
        rw [decode_chars_shared '\n' _ (by decide) (by decide), pushed]
        exact decode_chars_literal true '\r' rest (by decide)
      · have pushed : escaped false '\r' (more ++ rest) = (['\\', '\r'], more ++ rest) := rfl
        change decodeChars true ('\\' :: '\r' :: (more ++ rest)) = _
        rw [decode_chars_shared '\r' _ (by decide) (by decide), pushed, decode_chars_plain true rest plain]
        rfl
  | skip blanks =>
      obtain ⟨all, ends⟩ := stands
      have pushed : escaped true 'z' (blanks ++ rest) = ([], (blanks ++ rest).dropWhile isAsciiWhitespace) := rfl
      have plain : '\\' ∉ blanks.dropWhile isAsciiWhitespace := fun inside =>
        no_backslash_blanks blanks all ((List.dropWhile_suffix _).subset inside)
      change decodeChars true ('\\' :: 'z' :: (blanks ++ rest)) = _
      rw [decode_chars_escaped, pushed, blanks_dropped blanks rest ends, decode_chars_plain true rest plain]
      rfl

theorem pieces_pushed (body : Text) (pieces : List LuaPiece) (reads : LuaReads quote body pieces) :
    decodeLua body = pieces.flatMap LuaPiece.pushed := by
  rw [decodeLua, decode_language_eq]
  induction reads with
  | done => exact decode_chars_nil true
  | piece piece rest pieces stands more ih => rw [piece_pushed quote piece rest stands, ih, List.flatMap_cons]

def LuaPiece.Valid (piece : LuaPiece) : Prop := ∃ quote rest, piece.Stands quote rest

theorem pieces_valid (body : Text) (pieces : List LuaPiece) (reads : LuaReads quote body pieces) :
    ∀ piece ∈ pieces, piece.Valid := by
  induction reads with
  | done => exact fun piece inside => absurd inside List.not_mem_nil
  | piece piece rest pieces stands more ih =>
      intro other inside
      rcases List.mem_cons.mp inside with rfl | inside
      · exact ⟨quote, rest, stands⟩
      · exact ih other inside

end Filefacts.Source
