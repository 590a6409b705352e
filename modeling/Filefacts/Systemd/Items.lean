import Filefacts.Systemd.Lines
import Filefacts.Source.LuaValue

set_option autoImplicit false

namespace Filefacts.Systemd

open Structured (digitsValue isDigit toDigit)
open Source (charFromU32 char_from_u32_iff)

def simpleEscapes : List (Char × Char) :=
  [('a', '\x07'), ('b', '\x08'), ('f', '\x0c'), ('n', '\n'), ('r', '\r'), ('t', '\t'), ('v', '\x0b'), ('\\', '\\'), ('"', '"'),
    ('\'', '\''), ('s', ' ')]

def digitRun (radix count : Nat) (chars : Text) : Text := (chars.take count).takeWhile fun c => (toDigit radix c).isSome

def decodedDigits (radix : Nat) (digits : Text) : Option Char := (digitsValue radix digits).bind charFromU32

def pushDecoded (radix : Nat) (digits fallback : Text) : Text := (decodedDigits radix digits).elim fallback fun c => [c]

def pushRadixEscape (radix maxDigits : Nat) (fallbackPrefix : Char) (chars : Text) : Text × Text :=
  let digits := digitRun radix maxDigits chars
  let rest := chars.drop digits.length
  if digits = [] then ([fallbackPrefix], rest) else (pushDecoded radix digits (fallbackPrefix :: digits), rest)

def pushUnicodeEscape (digits : Nat) (fallbackPrefix : Char) (chars : Text) : Text × Text :=
  let buf := digitRun 16 digits chars
  let rest := chars.drop buf.length
  if buf.length ≠ digits then (fallbackPrefix :: buf, rest) else (pushDecoded 16 buf (fallbackPrefix :: buf), rest)

def pushOctalEscape (first : Char) (chars : Text) : Text × Text :=
  let more := digitRun 8 2 chars
  (pushDecoded 8 (first :: more) (first :: more), chars.drop more.length)

-- What is pushed for the text behind a backslash, and the text left.
def pushSystemdEscape : Text → Text × Text
  | [] => (['\\'], [])
  | next :: chars =>
      match simpleEscapes.lookup next with
      | some c => ([c], chars)
      | none =>
          if next = 'x' then pushRadixEscape 16 2 'x' chars
          else if next = 'u' then pushUnicodeEscape 4 'u' chars
          else if next = 'U' then pushUnicodeEscape 8 'U' chars
          else if '0' ≤ next ∧ next ≤ '7' then pushOctalEscape next chars
          else ([next], chars)

theorem push_escape_shorter (chars : Text) : (pushSystemdEscape chars).2.length ≤ chars.length := by
  cases chars with
  | nil => exact Nat.le_refl _
  | cons next chars =>
      have dropped : ∀ count, (chars.drop count).length ≤ (next :: chars).length := fun count =>
        (List.length_drop ▸ Nat.sub_le _ _ : (chars.drop count).length ≤ chars.length).trans (Nat.le_succ _)
      rw [pushSystemdEscape]
      split
      · exact Nat.le_succ _
      · split_ifs
        · rw [pushRadixEscape]
          split_ifs <;> exact dropped _
        · rw [pushUnicodeEscape]
          split_ifs <;> exact dropped _
        · rw [pushUnicodeEscape]
          split_ifs <;> exact dropped _
        · exact dropped _
        · exact Nat.le_succ _

def splitLoop (input : Text) (quote : Option Char) (current : Text) (inItem : Bool) (items : List Text) : List Text :=
  match input with
  | [] => if inItem then items ++ [current] else items
  | ch :: chars =>
      if quote = some ch then splitLoop chars none current true items
      else if quote ≠ none then
        if ch = '\\' then
          splitLoop (pushSystemdEscape chars).2 quote (current ++ (pushSystemdEscape chars).1) true items
        else splitLoop chars quote (current ++ [ch]) true items
      else if ch = ' ' ∨ ch = '\t' then
        if inItem then splitLoop chars none [] false (items ++ [current]) else splitLoop chars none current false items
      else if (ch = '"' ∨ ch = '\'') ∧ current = [] then splitLoop chars (some ch) current true items
      else if ch = '\\' then splitLoop (pushSystemdEscape chars).2 none (current ++ (pushSystemdEscape chars).1) true items
      else splitLoop chars none (current ++ [ch]) true items
termination_by input.length
decreasing_by
  all_goals simp only [List.length_cons]
  all_goals first
    | exact Nat.lt_succ_self _
    | exact Nat.lt_succ_of_le (push_escape_shorter _)

def splitSystemdItems (input : Text) : List Text := splitLoop input none [] false []

inductive Escape : Text → Char → Prop where
  | simple (esc c : Char) (listed : (esc, c) ∈ simpleEscapes) : Escape [esc] c
  | hex (digits : Text) (c : Char) (two : digits.length = 2) (value : digitsValue 16 digits = some c.toNat) (low : c.toNat < 0x80) :
      Escape ('x' :: digits) c
  | octal (first : Char) (digits : Text) (c : Char) (two : digits.length = 2) (value : digitsValue 8 (first :: digits) = some c.toNat)
      (low : c.toNat < 0o200) : Escape (first :: digits) c
  | short (digits : Text) (c : Char) (four : digits.length = 4) (value : digitsValue 16 digits = some c.toNat) :
      Escape ('u' :: digits) c
  | long (digits : Text) (c : Char) (eight : digits.length = 8) (value : digitsValue 16 digits = some c.toNat) :
      Escape ('U' :: digits) c

-- The spellings of a string whose characters may be written literally where `literal` allows it.
inductive Written (literal : Char → Prop) : Text → Text → Prop where
  | nothing : Written literal [] []
  | literal (c : Char) (value text : Text) (allowed : literal c) (more : Written literal value text) :
      Written literal (c :: value) (c :: text)
  | escape (c : Char) (spelling value text : Text) (one : Escape spelling c) (more : Written literal value text) :
      Written literal (c :: value) ('\\' :: (spelling ++ text))

abbrev IsQuote (c : Char) : Prop := c = '"' ∨ c = '\''

abbrev IsBlank (c : Char) : Prop := c = ' ' ∨ c = '\t'

def InQuotes (quote c : Char) : Prop := c ≠ quote ∧ c ≠ '\\'

def Bare (c : Char) : Prop := ¬IsBlank c ∧ c ≠ '\\'

-- An item wrapped whole in quotes, or a bare one that does not begin with a quote.
inductive Item : Text → Text → Prop where
  | quoted (quote : Char) (value body : Text) (isQuote : IsQuote quote) (written : Written (InQuotes quote) value body) :
      Item value (quote :: (body ++ [quote]))
  | bare (value : Text) (first : Char) (text : Text) (unquoted : ¬IsQuote first) (written : Written Bare value (first :: text)) :
      Item value (first :: text)

inductive Spelled : List Text → Text → Prop where
  | nothing (blanks : Text) (all : ∀ c ∈ blanks, IsBlank c) : Spelled [] blanks
  | item (blanks value text rest : Text) (items : List Text) (all : ∀ c ∈ blanks, IsBlank c) (item : Item value text)
      (apart : ∀ c ∈ rest.head?, IsBlank c) (later : Spelled items rest) : Spelled (value :: items) (blanks ++ (text ++ rest))

variable (radix : Nat) (first c : Char) (value : Text)

theorem folded_digits (value n : Nat) (digits : Text)
    (folded : digits.foldlM (fun n c => (toDigit radix c).map fun digit => n * radix + digit) value = some n) :
    ∀ c ∈ digits, (toDigit radix c).isSome = true := by
  induction digits generalizing value with
  | nil => exact List.forall_mem_nil _
  | cons c rest ih =>
      rw [List.foldlM_cons] at folded
      obtain ⟨next, digit, later⟩ := Option.bind_eq_some_iff.mp folded
      obtain ⟨d, read, -⟩ := Option.map_eq_some_iff.mp digit
      exact List.forall_mem_cons.mpr ⟨by rw [read]; rfl, ih next later⟩

variable {digits : Text}

theorem all_digits {n : Nat} (value : digitsValue radix digits = some n) : ∀ c ∈ digits, (toDigit radix c).isSome = true := by
  rw [digitsValue] at value
  split_ifs at value
  exact folded_digits radix 0 n digits value

variable (rest : Text) (esc quote : Char) (values : List Text) (line : Text)

theorem digit_run_exact (all : ∀ c ∈ digits, (toDigit radix c).isSome = true) :
    digitRun radix digits.length (digits ++ rest) = digits := by
  rw [digitRun, List.take_left]
  exact List.takeWhile_eq_self_iff.mpr all

theorem push_decoded (fallback : Text) {c : Char} (value : digitsValue radix digits = some c.toNat) :
    pushDecoded radix digits fallback = [c] := by
  rw [pushDecoded, decodedDigits, value, Option.bind_some, (char_from_u32_iff c.toNat c).mpr rfl]
  rfl

theorem push_unicode_exact {count : Nat} (fallback : Char) {c : Char} (rest : Text) (exact : digits.length = count)
    (value : digitsValue 16 digits = some c.toNat) : pushUnicodeEscape count fallback (digits ++ rest) = ([c], rest) := by
  subst exact
  have run := digit_run_exact 16 rest (all_digits 16 value)
  rw [pushUnicodeEscape]
  simp only [run, List.drop_left, push_decoded 16 _ value, ne_eq, not_true_eq_false, if_false]

theorem push_radix_exact (fallback c : Char) (digits rest : Text) (two : digits.length = 2)
    (value : digitsValue 16 digits = some c.toNat) : pushRadixEscape 16 2 fallback (digits ++ rest) = ([c], rest) := by
  have run := digit_run_exact 16 rest (all_digits 16 value)
  have listed : digits ≠ [] := fun none => by rw [none] at two; cases two
  rw [two] at run
  rw [pushRadixEscape]
  simp only [run, List.drop_left, push_decoded 16 _ value, if_neg listed]

theorem push_octal_exact (digits rest : Text) (two : digits.length = 2)
    (value : digitsValue 8 (first :: digits) = some c.toNat) : pushOctalEscape first (digits ++ rest) = ([c], rest) := by
  have all := all_digits 8 value
  have run := digit_run_exact 8 rest fun d member => all d (List.mem_cons_of_mem _ member)
  rw [two] at run
  rw [pushOctalEscape]
  simp only [run, List.drop_left, push_decoded 8 _ value]

theorem simple_lookup (c : Char) (listed : (esc, c) ∈ simpleEscapes) : simpleEscapes.lookup esc = some c := by
  simp only [simpleEscapes, List.mem_cons, List.not_mem_nil, or_false, Prod.mk.injEq] at listed
  rcases listed with ⟨rfl, rfl⟩ | ⟨rfl, rfl⟩ | ⟨rfl, rfl⟩ | ⟨rfl, rfl⟩ | ⟨rfl, rfl⟩ | ⟨rfl, rfl⟩ | ⟨rfl, rfl⟩ | ⟨rfl, rfl⟩ |
    ⟨rfl, rfl⟩ | ⟨rfl, rfl⟩ | ⟨rfl, rfl⟩ <;> rfl

theorem octal_digit (digit : (toDigit 8 first).isSome = true) : '0' ≤ first ∧ first ≤ '7' := by
  obtain ⟨d, read⟩ := Option.isSome_iff_exists.mp digit
  obtain ⟨found, small⟩ := Option.filter_eq_some_iff.mp read
  rw [decide_eq_true_iff] at small
  have decimal : isDigit first = true := Source.to_digit_decimal first d
    (Option.filter_eq_some_iff.mpr ⟨found, decide_eq_true (Nat.lt_trans small (by decide))⟩)
  rw [if_pos decimal] at found
  have value : first.toNat - 48 = d := Option.some.inj found
  rw [isDigit, Bool.and_eq_true, decide_eq_true_iff] at decimal
  refine ⟨decimal.1, ?_⟩
  have most : first.toNat ≤ 55 := by omega
  exact most

theorem simple_apart (c : Char) (low : '0' ≤ first) (high : first ≤ '7') (listed : (esc, c) ∈ simpleEscapes) : first ≠ esc := by
  rintro rfl
  simp only [simpleEscapes, List.mem_cons, List.not_mem_nil, or_false, Prod.mk.injEq] at listed
  rcases listed with ⟨rfl, -⟩ | ⟨rfl, -⟩ | ⟨rfl, -⟩ | ⟨rfl, -⟩ | ⟨rfl, -⟩ | ⟨rfl, -⟩ | ⟨rfl, -⟩ | ⟨rfl, -⟩ | ⟨rfl, -⟩ | ⟨rfl, -⟩ |
    ⟨rfl, -⟩
  all_goals first
    | exact absurd high (by decide)
    | exact absurd low (by decide)

theorem octal_not_simple (low : '0' ≤ first) (high : first ≤ '7') : simpleEscapes.lookup first = none :=
  List.lookup_eq_none_iff.mpr fun ⟨esc, c⟩ listed => bne_iff_ne.mpr (simple_apart first esc c low high listed)

theorem push_escape_exact {spelling : Text} (rest : Text) {c : Char} (one : Escape spelling c) :
    pushSystemdEscape (spelling ++ rest) = ([c], rest) := by
  cases one with
  | simple esc c listed =>
      rw [List.singleton_append, pushSystemdEscape, simple_lookup esc c listed]
  | hex digits c two value low =>
      exact push_radix_exact 'x' c digits rest two value
  | octal first digits c two value low =>
      obtain ⟨least, most⟩ := octal_digit first (all_digits 8 value first List.mem_cons_self)
      have numeral : ∀ other : Char, '7' < other → first ≠ other := fun other above same =>
        absurd most (not_le_of_gt (same ▸ above))
      rw [List.cons_append, pushSystemdEscape, octal_not_simple first least most]
      rw [if_neg (numeral 'x' (by decide)), if_neg (numeral 'u' (by decide)), if_neg (numeral 'U' (by decide)),
        if_pos ⟨least, most⟩, push_octal_exact first c digits rest two value]
  | short digits c four value =>
      exact push_unicode_exact 'u' rest four value
  | long digits c eight value =>
      exact push_unicode_exact 'U' rest eight value

theorem split_quoted (value body rest current : Text) (items : List Text) (isQuote : IsQuote quote)
    (written : Written (InQuotes quote) value body) :
    splitLoop (body ++ quote :: rest) (some quote) current true items = splitLoop rest none (current ++ value) true items := by
  have apart : quote ≠ '\\' := by
    rcases isQuote with rfl | rfl <;> decide
  induction written generalizing current with
  | nothing => rw [List.nil_append, splitLoop, if_pos rfl, List.append_nil]
  | literal c value text allowed more ih =>
      have other : some quote ≠ some c := fun same => allowed.1 (Option.some.inj same).symm
      rw [List.cons_append, splitLoop, if_neg other, if_pos (Option.some_ne_none quote), if_neg allowed.2, ih, List.append_assoc,
        List.singleton_append]
  | escape c spelling value text one more ih =>
      have other : some quote ≠ some '\\' := fun same => apart (Option.some.inj same)
      rw [List.cons_append, splitLoop, if_neg other, if_pos (Option.some_ne_none quote), if_pos rfl, List.append_assoc,
        push_escape_exact _ one, ih, List.append_assoc, List.singleton_append]

theorem split_open (chars : Text) (items : List Text) (isQuote : IsQuote quote) :
    splitLoop (quote :: chars) none [] false items = splitLoop chars (some quote) [] true items := by
  have solid : ¬(quote = ' ' ∨ quote = '\t') := by
    rcases isQuote with rfl | rfl <;> decide
  rw [splitLoop, if_neg (Option.some_ne_none _).symm, if_neg (not_not.mpr rfl), if_neg solid, if_pos ⟨isQuote, rfl⟩]

theorem split_literal (chars current : Text) (inItem : Bool) (items : List Text) (allowed : Bare c)
    (closed : ¬(IsQuote c ∧ current = [])) :
    splitLoop (c :: chars) none current inItem items = splitLoop chars none (current ++ [c]) true items := by
  rw [splitLoop, if_neg (Option.some_ne_none _).symm, if_neg (not_not.mpr rfl), if_neg allowed.1, if_neg closed, if_neg allowed.2]

theorem split_escape (spelling chars current : Text) (inItem : Bool) (items : List Text) (one : Escape spelling c) :
    splitLoop ('\\' :: (spelling ++ chars)) none current inItem items = splitLoop chars none (current ++ [c]) true items := by
  rw [splitLoop, if_neg (Option.some_ne_none _).symm, if_neg (not_not.mpr rfl), if_neg (by decide), if_neg fun open_ => absurd open_.1 (by decide),
    if_pos rfl, push_escape_exact chars one]

theorem split_bare (text rest current : Text) (items : List Text) (started : current ≠ []) (written : Written Bare value text) :
    splitLoop (text ++ rest) none current true items = splitLoop rest none (current ++ value) true items := by
  induction written generalizing current with
  | nothing => rw [List.nil_append, List.append_nil]
  | literal c value text allowed more ih =>
      rw [List.cons_append, split_literal c _ current true items allowed fun opens => started opens.2,
        ih _ (List.append_ne_nil_of_right_ne_nil _ (List.cons_ne_nil c [])), List.append_assoc, List.singleton_append]
  | escape c spelling value text one more ih =>
      rw [List.cons_append, List.append_assoc, split_escape c spelling _ current true items one,
        ih _ (List.append_ne_nil_of_right_ne_nil _ (List.cons_ne_nil c [])), List.append_assoc, List.singleton_append]

theorem split_item (text rest : Text) (items : List Text) (item : Item value text) :
    splitLoop (text ++ rest) none [] false items = splitLoop rest none value true items := by
  cases item with
  | quoted quote _ body isQuote written =>
      rw [List.cons_append, List.append_assoc, List.singleton_append, split_open quote _ items isQuote,
        split_quoted quote value body rest [] items isQuote written, List.nil_append]
  | bare _ first text unquoted written =>
      cases written with
      | literal c value text allowed more =>
          rw [List.cons_append, split_literal first _ [] false items allowed fun opens => unquoted opens.1, List.nil_append,
            split_bare value text rest [first] items (List.cons_ne_nil first []) more]
          rfl
      | escape c spelling value text one more =>
          rw [List.cons_append, List.append_assoc, split_escape c spelling _ [] false items one, List.nil_append,
            split_bare value text rest [c] items (List.cons_ne_nil c []) more]
          rfl

theorem split_blanks (blanks rest : Text) (items : List Text) (all : ∀ c ∈ blanks, IsBlank c) :
    splitLoop (blanks ++ rest) none [] false items = splitLoop rest none [] false items := by
  induction blanks with
  | nil => rfl
  | cons c blanks ih =>
      obtain ⟨blank, later⟩ := List.forall_mem_cons.mp all
      rw [List.cons_append, splitLoop, if_neg (Option.some_ne_none _).symm, if_neg (not_not.mpr rfl), if_pos blank, if_neg Bool.false_ne_true]
      exact ih later

theorem split_ended (items : List Text) (apart : ∀ c ∈ rest.head?, IsBlank c) :
    splitLoop rest none value true items = splitLoop rest none [] false (items ++ [value]) := by
  cases rest with
  | nil => rw [splitLoop, splitLoop, if_pos rfl, if_neg Bool.false_ne_true]
  | cons c rest =>
      have blank : IsBlank c := apart c rfl
      rw [splitLoop, if_neg (Option.some_ne_none _).symm, if_neg (not_not.mpr rfl), if_pos blank, if_pos rfl]
      exact (split_blanks [c] rest (items ++ [value]) (List.forall_mem_singleton.mpr blank)).symm

theorem split_spelled (items : List Text) (spelled : Spelled values line) :
    splitLoop line none [] false items = items ++ values := by
  induction spelled generalizing items with
  | nothing blanks all =>
      have ended := split_blanks blanks [] items all
      rw [List.append_nil] at ended
      rw [ended, splitLoop, if_neg Bool.false_ne_true, List.append_nil]
  | item blanks value text rest values all item apart later ih =>
      rw [split_blanks blanks _ items all, split_item value text rest items item, split_ended value rest items apart, ih,
        List.append_assoc, List.singleton_append]

theorem split_systemd_items_spelled (spelled : Spelled values line) : splitSystemdItems line = values := split_spelled values line [] spelled

end Filefacts.Systemd
