import Filefacts.Source.Spelled
import Filefacts.Lossy

set_option autoImplicit false

namespace Filefacts.Source

open Filefacts.Output (Text)
open Filefacts.Structured (stripped)

-- A text as Lua reads its line breaks: left to right, CR and LF in either order one break.
inductive LineItem where
  | other (c : Char)
  | cr
  | lf
  | crlf
  | lfcr
  deriving DecidableEq, Repr

def LineItem.value : LineItem → Char
  | .other c => c
  | _ => '\n'

def lineItems : Text → List LineItem
  | [] => []
  | c :: rest =>
      if c = '\r' then
        if rest.head? = some '\n' then .crlf :: lineItems rest.tail else .cr :: lineItems rest
      else if c = '\n' then
        if rest.head? = some '\r' then .lfcr :: lineItems rest.tail else .lf :: lineItems rest
      else .other c :: lineItems rest
  termination_by text => text.length
  decreasing_by all_goals simp only [List.length_cons, List.length_tail]; omega

def breakLength (text : Text) : Nat :=
  if ['\r', '\n'].isPrefixOf text || ['\n', '\r'].isPrefixOf text then 2
  else if text.head? = some '\r' ∨ text.head? = some '\n' then 1
  else 0

def normalized (text : Text) : Text := (lineItems text).map LineItem.value

-- What the three replacements of the code make of a text.
def replaced (text : Text) : Text :=
  replaceText ['\r'] ['\n'] (replaceText ['\n', '\r'] ['\n'] (replaceText ['\r', '\n'] ['\n'] text))

theorem line_items_other (c : Char) (rest : Text) (cr : c ≠ '\r') (lf : c ≠ '\n') :
    lineItems (c :: rest) = .other c :: lineItems rest := by
  rw [lineItems, if_neg cr, if_neg lf]

variable (rest : Text)

theorem line_items_crlf : lineItems ('\r' :: '\n' :: rest) = .crlf :: lineItems rest := by
  rw [lineItems, if_pos rfl, List.head?_cons, if_pos rfl, List.tail_cons]

theorem line_items_lfcr : lineItems ('\n' :: '\r' :: rest) = .lfcr :: lineItems rest := by
  rw [lineItems, if_neg (by decide), if_pos rfl, List.head?_cons, if_pos rfl, List.tail_cons]

theorem line_items_cr (lone : rest.head? ≠ some '\n') : lineItems ('\r' :: rest) = .cr :: lineItems rest := by
  rw [lineItems, if_pos rfl, if_neg lone]

theorem line_items_lf (lone : rest.head? ≠ some '\r') : lineItems ('\n' :: rest) = .lf :: lineItems rest := by
  rw [lineItems, if_neg (by decide), if_pos rfl, if_neg lone]

theorem replace_nil (pattern replacement : Text) : replaceText pattern replacement [] = [] := by
  rw [replaceText]

theorem replace_skips {first second : Char} (replacement : Char) {c : Char} {rest : Text} (apart : c ≠ first ∨ rest.head? ≠ some second) :
    replaceText [first, second] [replacement] (c :: rest) = c :: replaceText [first, second] [replacement] rest := by
  have unmatched : ¬ [first, second].isPrefixOf (c :: rest) := by
    rw [List.isPrefixOf_iff_prefix, List.cons_prefix_cons]
    rintro ⟨same, more⟩
    rcases apart with other | other
    · exact other same.symm
    · obtain ⟨behind, rfl⟩ := more
      exact other rfl
  rw [replaceText, if_neg unmatched]

theorem replace_pair (first second replacement : Char) (rest : Text) :
    replaceText [first, second] [replacement] (first :: second :: rest) =
      replacement :: replaceText [first, second] [replacement] rest := by
  have matched : [first, second].isPrefixOf (first :: second :: rest) := List.isPrefixOf_iff_prefix.mpr ⟨rest, rfl⟩
  rw [replaceText, if_pos matched]
  rfl

theorem replace_single (pattern replacement : Char) (text : Text) :
    replaceText [pattern] [replacement] text = text.map fun c => if c = pattern then replacement else c := by
  induction text with
  | nil => exact replace_nil _ _
  | cons c rest ih =>
      by_cases same : c = pattern
      · have matched : [pattern].isPrefixOf (c :: rest) := List.isPrefixOf_iff_prefix.mpr ⟨rest, by rw [same]; rfl⟩
        rw [replaceText, if_pos matched, List.map_cons, if_pos same]
        exact congrArg (replacement :: ·) ih
      · have unmatched : ¬ [pattern].isPrefixOf (c :: rest) := by
          rw [List.isPrefixOf_iff_prefix, List.cons_prefix_cons]
          exact fun both => same both.1.symm
        rw [replaceText, if_neg unmatched, List.map_cons, if_neg same, ih]

theorem replaced_other (c : Char) (rest : Text) (cr : c ≠ '\r') (lf : c ≠ '\n') : replaced (c :: rest) = c :: replaced rest := by
  rw [replaced, replace_skips _ (.inl cr), replace_skips _ (.inl lf), replace_single, List.map_cons, if_neg cr,
    ← replace_single]
  rfl

theorem replaced_cr (lone : rest.head? ≠ some '\n') : replaced ('\r' :: rest) = '\n' :: replaced rest := by
  rw [replaced, replace_skips _ (.inr lone), replace_skips _ (.inl (by decide)), replace_single, List.map_cons,
    if_pos rfl, ← replace_single]
  rfl

theorem first_replaced_lf :
    replaceText ['\r', '\n'] ['\n'] ('\n' :: rest) = '\n' :: replaceText ['\r', '\n'] ['\n'] rest :=
  replace_skips _ (.inl (by decide))

theorem replaced_crlf : replaced ('\r' :: '\n' :: rest) = replaced ('\n' :: rest) := by
  rw [replaced, replace_pair, ← first_replaced_lf]
  rfl

theorem replaced_lf (lone : rest.head? ≠ some '\r') : replaced ('\n' :: rest) = '\n' :: replaced rest := by
  have apart : (replaceText ['\r', '\n'] ['\n'] rest).head? ≠ some '\r' := by
    cases rest with
    | nil =>
        rw [replace_nil]
        exact lone
    | cons c rest =>
        rw [List.head?_cons, ne_eq, Option.some.injEq] at lone
        rw [replace_skips _ (.inl lone), List.head?_cons, ne_eq, Option.some.injEq]
        exact lone
  rw [replaced, first_replaced_lf, replace_skips _ (.inr apart), replace_single, List.map_cons, if_neg (by decide),
    ← replace_single]
  rfl

theorem replaced_lfcr (lone : rest.head? ≠ some '\n') : replaced ('\n' :: '\r' :: rest) = '\n' :: replaced rest := by
  rw [replaced, first_replaced_lf, replace_skips _ (.inr lone), replace_pair, replace_single, List.map_cons,
    if_neg (by decide), ← replace_single]
  rfl

theorem replaced_lfcrlf : replaced ('\n' :: '\r' :: '\n' :: rest) = '\n' :: replaced ('\n' :: rest) := by
  have apart : (replaceText ['\r', '\n'] ['\n'] ('\n' :: rest)).head? ≠ some '\r' := by
    rw [first_replaced_lf, List.head?_cons]
    decide
  rw [replaced, first_replaced_lf, replace_pair, ← first_replaced_lf, replace_skips _ (.inr apart), replace_single,
    List.map_cons, if_neg (by decide), ← replace_single]
  rfl

inductive LineShape : Text → Prop
  | nil : LineShape []
  | other (c : Char) (rest : Text) (cr : c ≠ '\r') (lf : c ≠ '\n') : LineShape (c :: rest)
  | cr (rest : Text) (lone : rest.head? ≠ some '\n') : LineShape ('\r' :: rest)
  | lf (rest : Text) (lone : rest.head? ≠ some '\r') : LineShape ('\n' :: rest)
  | crlf (rest : Text) : LineShape ('\r' :: '\n' :: rest)
  | lfcr (rest : Text) : LineShape ('\n' :: '\r' :: rest)

theorem line_shape (text : Text) : LineShape text := by
  cases text with
  | nil => exact .nil
  | cons c rest =>
      by_cases cr : c = '\r'
      · by_cases pair : rest.head? = some '\n'
        · obtain ⟨rest, rfl⟩ := List.head?_eq_some_iff.mp pair
          exact cr ▸ .crlf rest
        · exact cr ▸ .cr rest pair
      · by_cases lf : c = '\n'
        · by_cases pair : rest.head? = some '\r'
          · obtain ⟨rest, rfl⟩ := List.head?_eq_some_iff.mp pair
            exact lf ▸ .lfcr rest
          · exact lf ▸ .lf rest pair
        · exact .other c rest cr lf

theorem replaced_crlf_cases : (rest.head? ≠ some '\r' ∧ replaced ('\r' :: '\n' :: rest) = '\n' :: replaced rest) ∨
    (∃ more, rest = '\r' :: more ∧ more.head? ≠ some '\n' ∧ replaced ('\r' :: '\n' :: rest) = '\n' :: replaced more) ∨
    (∃ more, rest = '\r' :: '\n' :: more ∧
      replaced ('\r' :: '\n' :: rest) = '\n' :: replaced ('\r' :: '\n' :: more)) := by
  by_cases follows : rest.head? = some '\r'
  · obtain ⟨more, rfl⟩ := List.head?_eq_some_iff.mp follows
    by_cases pair : more.head? = some '\n'
    · obtain ⟨more, rfl⟩ := List.head?_eq_some_iff.mp pair
      exact .inr (.inr ⟨more, rfl, by rw [replaced_crlf, replaced_lfcrlf, replaced_crlf]⟩)
    · exact .inr (.inl ⟨more, rfl, pair, by rw [replaced_crlf, replaced_lfcr more pair]⟩)
  · exact .inl ⟨follows, by rw [replaced_crlf, replaced_lf rest follows]⟩

theorem replaced_lfcr_cases : (rest.head? ≠ some '\n' ∧ replaced ('\n' :: '\r' :: rest) = '\n' :: replaced rest) ∨
    (∃ more, rest = '\n' :: more ∧ replaced ('\n' :: '\r' :: rest) = '\n' :: replaced rest) := by
  by_cases follows : rest.head? = some '\n'
  · obtain ⟨more, rfl⟩ := List.head?_eq_some_iff.mp follows
    exact .inr ⟨more, rfl, replaced_lfcrlf more⟩
  · exact .inl ⟨follows, replaced_lfcr rest follows⟩

theorem replaced_lfcr_any : replaced ('\n' :: '\r' :: rest) = '\n' :: replaced rest := by
  rcases replaced_lfcr_cases rest with ⟨-, same⟩ | ⟨-, -, same⟩
  · exact same
  · exact same

theorem replaced_length (size : Nat) : ∀ text : Text, text.length ≤ size → (replaced text).length ≤ (lineItems text).length := by
  induction size with
  | zero =>
      intro text small
      rw [List.length_eq_zero_iff.mp (Nat.le_zero.mp small)]
      decide +kernel
  | succ size ih =>
      intro text small
      cases line_shape text with
      | nil => decide +kernel
      | other c rest cr lf =>
          rw [replaced_other c rest cr lf, line_items_other c rest cr lf]
          exact Nat.succ_le_succ (ih rest (Nat.le_of_succ_le_succ small))
      | cr rest lone =>
          rw [replaced_cr rest lone, line_items_cr rest lone]
          exact Nat.succ_le_succ (ih rest (Nat.le_of_succ_le_succ small))
      | lf rest lone =>
          rw [replaced_lf rest lone, line_items_lf rest lone]
          exact Nat.succ_le_succ (ih rest (Nat.le_of_succ_le_succ small))
      | lfcr rest =>
          rw [replaced_lfcr_any, line_items_lfcr]
          exact Nat.succ_le_succ (ih rest (Nat.le_of_succ_le (Nat.le_of_succ_le_succ small)))
      | crlf rest =>
          simp only [List.length_cons] at small
          rw [line_items_crlf]
          rcases replaced_crlf_cases rest with ⟨-, same⟩ | ⟨more, rfl, lone, same⟩ | ⟨more, rfl, same⟩
          · rw [same]
            exact Nat.succ_le_succ (ih rest (by omega))
          · simp only [List.length_cons] at small
            have fewer := ih more (by omega)
            rw [same, line_items_cr more lone, List.length_cons, List.length_cons, List.length_cons]
            omega
          · simp only [List.length_cons] at small
            rw [same]
            exact Nat.succ_le_succ (ih _ (by simp only [List.length_cons]; omega))

-- No CR LF is directly followed by a lone CR.
def BreaksApart (items : List LineItem) : Prop := ∀ front back, items = front ++ .crlf :: back → back.head? ≠ some .cr

theorem breaks_apart_cons (item : LineItem) (items : List LineItem) (other : item ≠ .crlf) :
    BreaksApart (item :: items) ↔ BreaksApart items := by
  constructor
  · intro apart front back same
    exact apart (item :: front) back (by rw [same, List.cons_append])
  · intro apart front back same
    cases front with
    | nil =>
        rw [List.nil_append, List.cons.injEq] at same
        exact absurd same.1 other
    | cons first front =>
        rw [List.cons_append, List.cons.injEq] at same
        exact apart front back same.2

theorem breaks_apart_crlf (items : List LineItem) :
    BreaksApart (.crlf :: items) ↔ items.head? ≠ some .cr ∧ BreaksApart items := by
  constructor
  · intro apart
    exact ⟨apart [] items rfl, fun front back same => apart (.crlf :: front) back (by rw [same, List.cons_append])⟩
  · rintro ⟨first, apart⟩ front back same
    cases front with
    | nil =>
        rw [List.nil_append, List.cons.injEq] at same
        exact same.2 ▸ first
    | cons item front =>
        rw [List.cons_append, List.cons.injEq] at same
        exact apart front back same.2

theorem line_items_head_cr (text : Text) : (lineItems text).head? = some .cr → text.head? = some '\r' := by
  intro first
  cases line_shape text with
  | nil =>
      rw [lineItems] at first
      cases first
  | other c rest cr lf =>
      rw [line_items_other c rest cr lf] at first
      cases first
  | cr rest lone => rfl
  | lf rest lone =>
      rw [line_items_lf rest lone] at first
      cases first
  | crlf rest => rfl
  | lfcr rest =>
      rw [line_items_lfcr] at first
      cases first

theorem replaced_iff {size : Nat} :
    ∀ text : Text, text.length ≤ size → (replaced text = normalized text ↔ BreaksApart (lineItems text)) := by
  have empty : replaced [] = normalized [] ↔ BreaksApart (lineItems []) := by
    constructor
    · intro _ front back same
      rw [lineItems] at same
      simp at same
    · intro _
      decide +kernel
  induction size with
  | zero =>
      intro text small
      rw [List.length_eq_zero_iff.mp (Nat.le_zero.mp small)]
      exact empty
  | succ size ih =>
      intro text small
      cases line_shape text with
      | nil => exact empty
      | other c rest cr lf =>
          rw [replaced_other c rest cr lf, normalized, line_items_other c rest cr lf, breaks_apart_cons _ _ (by simp), List.map_cons,
            ← ih rest (Nat.le_of_succ_le_succ small), List.cons.injEq]
          exact ⟨fun both => both.2, fun same => ⟨rfl, same⟩⟩
      | cr rest lone =>
          rw [replaced_cr rest lone, normalized, line_items_cr rest lone, breaks_apart_cons _ _ (by simp), List.map_cons,
            ← ih rest (Nat.le_of_succ_le_succ small), List.cons.injEq]
          exact ⟨fun both => both.2, fun same => ⟨rfl, same⟩⟩
      | lf rest lone =>
          rw [replaced_lf rest lone, normalized, line_items_lf rest lone, breaks_apart_cons _ _ (by simp), List.map_cons,
            ← ih rest (Nat.le_of_succ_le_succ small), List.cons.injEq]
          exact ⟨fun both => both.2, fun same => ⟨rfl, same⟩⟩
      | lfcr rest =>
          rw [replaced_lfcr_any, normalized, line_items_lfcr, breaks_apart_cons _ _ (by simp), List.map_cons,
            ← ih rest (Nat.le_of_succ_le (Nat.le_of_succ_le_succ small)), List.cons.injEq]
          exact ⟨fun both => both.2, fun same => ⟨rfl, same⟩⟩
      | crlf rest =>
          simp only [List.length_cons] at small
          rw [normalized, line_items_crlf, List.map_cons, breaks_apart_crlf]
          rcases replaced_crlf_cases rest with ⟨lone, same⟩ | ⟨more, rfl, lone, same⟩ | ⟨more, rfl, same⟩
          · have first : (lineItems rest).head? ≠ some .cr := fun cr => lone (line_items_head_cr rest cr)
            rw [same, ← ih rest (by omega), List.cons.injEq]
            exact ⟨fun both => ⟨first, both.2⟩, fun both => ⟨rfl, both.2⟩⟩
          · simp only [List.length_cons] at small
            have fewer := replaced_length more.length more (Nat.le_refl _)
            rw [same, line_items_cr more lone]
            constructor
            · intro whole
              have long := congrArg List.length whole
              simp only [List.length_cons, List.length_map, List.map_cons] at long
              omega
            · rintro ⟨first, -⟩
              exact absurd rfl first
          · simp only [List.length_cons] at small
            have inner := ih ('\r' :: '\n' :: more) (by simp only [List.length_cons]; omega)
            rw [same, ← inner, List.cons.injEq, line_items_crlf]
            refine ⟨fun both => ⟨by simp, ?_⟩, fun both => ⟨rfl, ?_⟩⟩
            · rw [normalized, line_items_crlf]
              exact both.2
            · rw [both.2, normalized, line_items_crlf]

open Filefacts.Bytes (encodePoint)
open Filefacts.Lossy (utf8)
open Filefacts.Output (Text)
open Filefacts.Structured (digitsValue isDigit stripped toDigit)

def isLuaSpace (c : Char) : Bool := c = ' ' || c = '\t' || c = '\n' || c = '\x0b' || c = '\x0c' || c = '\r'

-- UTF-8 beyond Unicode: numbers below 2^31.
def utf8Escape (n : Nat) : List UInt8 :=
  if n < 0x200000 then encodePoint n
  else if n < 0x4000000 then
    [UInt8.ofNat (0xF8 + n / 16777216), UInt8.ofNat (0x80 + n / 262144 % 64), UInt8.ofNat (0x80 + n / 4096 % 64),
      UInt8.ofNat (0x80 + n / 64 % 64), UInt8.ofNat (0x80 + n % 64)]
  else
    [UInt8.ofNat (0xFC + n / 1073741824), UInt8.ofNat (0x80 + n / 16777216 % 64), UInt8.ofNat (0x80 + n / 262144 % 64),
      UInt8.ofNat (0x80 + n / 4096 % 64), UInt8.ofNat (0x80 + n / 64 % 64), UInt8.ofNat (0x80 + n % 64)]

def luaLetters : List (Char × Char) :=
  [('a', '\x07'), ('b', '\x08'), ('f', '\x0c'), ('n', '\n'), ('r', '\r'), ('t', '\t'), ('v', '\x0b'), ('\\', '\\'), ('"', '"'),
    ('\'', '\'')]

inductive LuaPiece where
  | plain (c : Char)
  | letter (esc c : Char)
  | hex (digits : Text) (n : Nat)
  | decimal (digits : Text) (n : Nat)
  | unicode (digits : Text) (n : Nat)
  | newline (spelled : Text)
  | skip (blanks : Text)
  deriving DecidableEq, Repr

def LuaPiece.spelled : LuaPiece → Text
  | .plain c => [c]
  | .letter esc _ => ['\\', esc]
  | .hex digits _ => '\\' :: 'x' :: digits
  | .decimal digits _ => '\\' :: digits
  | .unicode digits _ => '\\' :: 'u' :: '{' :: digits ++ ['}']
  | .newline spelled => '\\' :: spelled
  | .skip blanks => '\\' :: 'z' :: blanks

def LuaPiece.bytes : LuaPiece → List UInt8
  | .plain c => utf8 [c]
  | .letter _ c => utf8 [c]
  | .hex _ n => [UInt8.ofNat n]
  | .decimal _ n => [UInt8.ofNat n]
  | .unicode _ n => utf8Escape n
  | .newline _ => [10]
  | .skip _ => []

def LuaPiece.Stands (quote : Char) (rest : Text) : LuaPiece → Prop
  | .plain c => c ≠ quote ∧ c ∉ ['\\', '\n', '\r']
  | .letter esc c => (esc, c) ∈ luaLetters
  | .hex digits n => digits.length = 2 ∧ digitsValue 16 digits = some n
  | .decimal digits n =>
      digits.length ≤ 3 ∧ digitsValue 10 digits = some n ∧ n ≤ 255 ∧ (digits.length < 3 → ¬ rest.head?.any isDigit)
  | .unicode digits n => digitsValue 16 digits = some n ∧ n ≤ 0x7FFFFFFF
  | .newline spelled => 0 < spelled.length ∧ breakLength (spelled ++ rest) = spelled.length
  | .skip blanks => blanks.all isLuaSpace ∧ ¬ rest.head?.any isLuaSpace

inductive LuaReads (quote : Char) : Text → List LuaPiece → Prop
  | done : LuaReads quote [] []
  | piece (piece : LuaPiece) (rest : Text) (pieces : List LuaPiece) (stands : piece.Stands quote rest)
      (more : LuaReads quote rest pieces) : LuaReads quote (piece.spelled ++ rest) (piece :: pieces)

def closeBracket (level : Nat) : Text := ']' :: List.replicate level '=' ++ [']']

-- The string literals the lexer accepts: in long brackets the first close ends the literal.
inductive LuaString where
  | long (level : Nat) (body : Text)
      (closed : ∀ front back, body ++ closeBracket level = front ++ closeBracket level ++ back → back = [])
  | quoted (quote : Char) (body : Text) (pieces : List LuaPiece) (isQuote : quote = '"' ∨ quote = '\'')
      (reads : LuaReads quote body pieces)

def LuaString.raw : LuaString → Text
  | .long level body _ => '[' :: List.replicate level '=' ++ '[' :: body ++ closeBracket level
  | .quoted quote body _ _ _ => quote :: body ++ [quote]

def LuaString.value : LuaString → List UInt8
  | .long _ body _ => utf8 (normalized (body.drop (breakLength body)))
  | .quoted _ _ pieces _ _ => pieces.flatMap LuaPiece.bytes

-- What the escapes of the shared decoder have in common with Lua's.
def LuaPiece.Shared : LuaPiece → Prop
  | .hex _ n => n < 0x80
  | .decimal _ n => n < 0x80
  | .unicode digits n => digits.length ≤ 6 ∧ (n < 0xD800 ∨ (0xDFFF < n ∧ n < 0x110000))
  | .newline _ => False
  | .skip blanks => '\x0b' ∉ blanks
  | _ => True

def LuaString.Shared : LuaString → Prop
  | .long _ body _ => BreaksApart (lineItems (body.drop (breakLength body)))
  | .quoted _ _ pieces _ _ => ∀ piece ∈ pieces, piece.Shared

def LuaPiece.pushed : LuaPiece → Text
  | .plain c => [c]
  | .letter _ c => [c]
  | .hex _ n => [Char.ofNat n]
  | .decimal _ n => [Char.ofNat n]
  | .unicode digits n =>
      if digits.length ≤ 6 ∧ (n < 0xD800 ∨ (0xDFFF < n ∧ n < 0x110000)) then [Char.ofNat n] else '\\' :: 'u' :: '{' :: digits ++ ['}']
  | .newline spelled => if spelled.head? = some '\n' then spelled.tail else '\\' :: spelled
  | .skip blanks => blanks.dropWhile isAsciiWhitespace

end Filefacts.Source
