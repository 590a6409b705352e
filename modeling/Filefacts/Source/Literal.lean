import Filefacts.Structured.Scalar
import Mathlib.Data.List.TakeWhile

set_option autoImplicit false

namespace Filefacts.Source

open Filefacts.Output (Text)
open Filefacts.Structured (digitsValue isDigit toDigit)

def charFromU32 (n : Nat) : Option Char := if n < 0xD800 ∨ (0xDFFF < n ∧ n < 0x110000) then some (Char.ofNat n) else none

def isAsciiWhitespace (c : Char) : Bool := c = ' ' || c = '\t' || c = '\n' || c = '\x0c' || c = '\r'

-- The digits and what follows them, when all are there.
def takeHexEscape : Nat → Nat → Text → Option (Nat × Text)
  | 0, value, chars => some (value, chars)
  | _ + 1, _, [] => none
  | n + 1, value, c :: chars =>
      match toDigit 16 c with
      | none => none
      | some digit => takeHexEscape n (value * 16 + digit) chars

def takeBraced : Nat → Nat → Text → Option (Char × Text)
  | _, _, [] => none
  | digits, value, d :: chars =>
      if d = '}' then if 0 < digits then (charFromU32 value).map fun c => (c, chars) else none
      else if digits = 6 then none
      else
        match toDigit 16 d with
        | none => none
        | some digit => takeBraced (digits + 1) (value * 16 + digit) chars

def decodeUnicodeEscape (chars : Text) : Option (Char × Text) :=
  if chars.head? = some '{' then takeBraced 0 0 chars.tail
  else
    match takeHexEscape 4 0 chars with
    | none => none
    | some (first, chars) =>
        match charFromU32 first with
        | some decoded => some (decoded, chars)
        | none =>
            -- A high surrogate pairs with the low surrogate of the escape that follows.
            if ¬ (0xD800 ≤ first ∧ first ≤ 0xDBFF) then none
            else if chars.take 2 ≠ ['\\', 'u'] then none
            else
              match takeHexEscape 4 0 (chars.drop 2) with
              | none => none
              | some (low, lookahead) =>
                  if ¬ (0xDC00 ≤ low ∧ low ≤ 0xDFFF) then none
                  else
                    (charFromU32 (0x10000 + ((first - 0xD800) <<< 10) + (low - 0xDC00))).map fun decoded => (decoded, lookahead)

def letterEscapes : List (Char × Char) :=
  [('n', '\n'), ('r', '\r'), ('t', '\t'), ('0', '\x00'), ('a', '\x07'), ('b', '\x08'), ('f', '\x0c'), ('v', '\x0b'),
    ('\\', '\\'), ('\'', '\''), ('"', '"'), ('`', '`'), ('/', '/'), ('$', '$')]

def takeDecimal : Nat → Nat → Text → Nat × Text
  | 0, number, probe => (number, probe)
  | n + 1, number, probe =>
      match probe.head?.bind (toDigit 10) with
      | none => (number, probe)
      | some digit => takeDecimal n (number * 10 + digit) probe.tail

-- What a backslash and the character `esc` push, and what is left of the text behind them.
def escaped (lua : Bool) (esc : Char) (chars : Text) : Text × Text :=
  if isDigit esc ∧ lua then
    let taken := takeDecimal 2 ((toDigit 10 esc).getD 0) chars
    if taken.1 < 256 then ([Char.ofNat taken.1], taken.2) else (['\\', esc], chars)
  else if esc = 'z' ∧ lua then ([], chars.dropWhile isAsciiWhitespace)
  else
    match letterEscapes.lookup esc with
    | some c => ([c], chars)
    | none =>
        if esc = '\n' then ([], chars)
        else if esc = 'x' then
          match (takeHexEscape 2 0 chars).bind fun taken => (charFromU32 taken.1).map fun decoded => (decoded, taken.2) with
          | some (decoded, rest) => ([decoded], rest)
          | none => (['\\', 'x'], chars)
        else if esc = 'u' then
          match decodeUnicodeEscape chars with
          | some (decoded, rest) => ([decoded], rest)
          | none => (['\\', 'u'], chars)
        else (['\\', esc], chars)

theorem take_hex_escape_shorter (n value : Nat) (chars : Text) (taken : Nat) (rest : Text)
    (read : takeHexEscape n value chars = some (taken, rest)) : rest.length ≤ chars.length := by
  induction n generalizing value chars with
  | zero =>
      cases read
      exact Nat.le_refl _
  | succ n ih =>
      cases chars with
      | nil => cases read
      | cons c chars =>
          rw [takeHexEscape] at read
          cases digit : toDigit 16 c with
          | none =>
              rw [digit] at read
              cases read
          | some d =>
              rw [digit] at read
              exact Nat.le_succ_of_le (ih _ chars read)

theorem take_braced_shorter (digits value : Nat) (chars : Text) (c : Char) (rest : Text)
    (read : takeBraced digits value chars = some (c, rest)) : rest.length ≤ chars.length := by
  induction chars generalizing digits value with
  | nil => cases read
  | cons d chars ih =>
      rw [takeBraced] at read
      by_cases closed : d = '}'
      · rw [if_pos closed] at read
        by_cases digited : 0 < digits
        · rw [if_pos digited] at read
          obtain ⟨decoded, -, same⟩ := Option.map_eq_some_iff.mp read
          cases same
          exact Nat.le_succ _
        · rw [if_neg digited] at read
          cases read
      · rw [if_neg closed] at read
        by_cases full : digits = 6
        · rw [if_pos full] at read
          cases read
        · rw [if_neg full] at read
          cases digit : toDigit 16 d with
          | none =>
              rw [digit] at read
              cases read
          | some found =>
              rw [digit] at read
              exact Nat.le_succ_of_le (ih _ _ read)

theorem decode_unicode_escape_shorter (chars : Text) (c : Char) (rest : Text) (read : decodeUnicodeEscape chars = some (c, rest)) :
    rest.length ≤ chars.length := by
  have tail_shorter : chars.tail.length ≤ chars.length := by simp
  unfold decodeUnicodeEscape at read
  by_cases braced : chars.head? = some '{'
  · rw [if_pos braced] at read
    exact Nat.le_trans (take_braced_shorter 0 0 chars.tail c rest read) tail_shorter
  · rw [if_neg braced] at read
    cases four : takeHexEscape 4 0 chars with
    | none =>
        rw [four] at read
        cases read
    | some taken =>
        have shorter := take_hex_escape_shorter 4 0 chars taken.1 taken.2 four
        rw [four] at read
        cases alone : charFromU32 taken.1 with
        | some decoded =>
            simp only [alone, Option.some.injEq, Prod.mk.injEq] at read
            exact read.2 ▸ shorter
        | none =>
            simp only [alone, Option.ite_none_left_eq_some] at read
            obtain ⟨-, -, read⟩ := read
            cases more : takeHexEscape 4 0 (taken.2.drop 2) with
            | none =>
                rw [more] at read
                cases read
            | some low =>
                have further := take_hex_escape_shorter 4 0 _ low.1 low.2 more
                simp only [more, Option.ite_none_left_eq_some, Option.map_eq_some_iff, Prod.mk.injEq] at read
                obtain ⟨-, -, -, -, same⟩ := read
                rw [List.length_drop] at further
                rw [← same]
                omega

theorem take_decimal_shorter (n number : Nat) (probe : Text) : (takeDecimal n number probe).2.length ≤ probe.length := by
  induction n generalizing number probe with
  | zero => exact Nat.le_refl _
  | succ n ih =>
      rw [takeDecimal]
      cases probe.head?.bind (toDigit 10) with
      | none => exact Nat.le_refl _
      | some digit =>
          have tail_shorter : probe.tail.length ≤ probe.length := by simp
          exact Nat.le_trans (ih _ _) tail_shorter

theorem escaped_shorter (lua : Bool) (esc : Char) (chars : Text) : (escaped lua esc chars).2.length ≤ chars.length := by
  unfold escaped
  by_cases decimal : isDigit esc ∧ lua
  · rw [if_pos decimal]
    dsimp only
    split
    · exact take_decimal_shorter _ _ _
    · exact Nat.le_refl _
  · rw [if_neg decimal]
    by_cases skipping : esc = 'z' ∧ lua
    · rw [if_pos skipping]
      exact List.IsSuffix.length_le (List.dropWhile_suffix _)
    · rw [if_neg skipping]
      cases letterEscapes.lookup esc with
      | some c => exact Nat.le_refl _
      | none =>
          by_cases continued : esc = '\n'
          · simp only [if_pos continued]
            exact Nat.le_refl _
          · by_cases hex : esc = 'x'
            · simp only [if_neg continued, if_pos hex]
              split
              · next decoded rest read =>
                  obtain ⟨taken, two, mapped⟩ := Option.bind_eq_some_iff.mp read
                  obtain ⟨_, -, same⟩ := Option.map_eq_some_iff.mp mapped
                  cases same
                  exact take_hex_escape_shorter 2 0 chars taken.1 taken.2 two
              · exact Nat.le_refl _
            · by_cases unicode : esc = 'u'
              · simp only [if_neg continued, if_neg hex, if_pos unicode]
                split
                · next decoded rest read => exact decode_unicode_escape_shorter chars decoded rest read
                · exact Nat.le_refl _
              · simp only [if_neg continued, if_neg hex, if_neg unicode]
                exact Nat.le_refl _

def decodeChars (lua : Bool) : Text → Text
  | [] => []
  | c :: chars =>
      if c ≠ '\\' then c :: decodeChars lua chars
      else
        match chars with
        | [] => ['\\']
        | esc :: chars => (escaped lua esc chars).1 ++ decodeChars lua (escaped lua esc chars).2
  termination_by s => s.length
  decreasing_by
    · exact Nat.lt_succ_self _
    · exact Nat.lt_succ_of_le (Nat.le_succ_of_le (escaped_shorter lua esc chars))

def decodeLanguage (s : Text) (lua : Bool) : Text := if '\\' ∉ s then s else decodeChars lua s

def decode (s : Text) : Text := decodeLanguage s false

def decodeLua (s : Text) : Text := decodeLanguage s true

open Filefacts.Output (Text)
open Filefacts.Structured (stripped)

-- Which runs of quotes open a literal.
inductive Run where
  | single
  | upToThree
  | any
  deriving DecidableEq, Repr

def Run.length (run : Run) (opened : Nat) : Nat :=
  match run with
  | .upToThree => if 3 ≤ opened then 3 else 1
  | .any => if 3 ≤ opened then opened else 1
  | .single => 1

-- The quotes and hashes are single bytes, so a close made of them is found at the same place by bytes as by characters.
def unquote (text quotes : Text) (run : Run) (hashes : Nat) : Option (Text × Nat) :=
  match text.head?.filter fun c => quotes.contains c with
  | none => none
  | some opening =>
      let opened := (text.takeWhile (· == opening)).length
      let len := run.length opened
      let body := text.drop len
      if body.length < len + hashes then none
      else
        let close := body.drop (body.length - (len + hashes))
        if (close.take len).all (· == opening) ∧ (close.drop len).all (· == '#') then
          some (body.take (body.length - (len + hashes)), len)
        else none

def splitOnce (c : Char) (s : Text) : Option (Text × Text) :=
  if c ∈ s then some (s.takeWhile (· != c), (s.dropWhile (· != c)).tail) else none

def rsplitOnce (c : Char) (s : Text) : Option (Text × Text) :=
  (splitOnce c s.reverse).map fun parts => (parts.2.reverse, parts.1.reverse)

def isIndent (c : Char) : Bool := c = ' ' || c = '\t'

def dedent (body : Text) : Option Text :=
  match splitOnce '\n' body with
  | none => none
  | some (opening, rest) =>
      if ¬ opening.all (fun c => isIndent c || c = '\r') then none
      else
        let (content, indent) := (rsplitOnce '\n' rest).getD ([], rest)
        if ¬ indent.all isIndent then none
        else if '\n' ∉ rest then some []
        else
          let content := if content.getLast? = some '\r' then content.dropLast else content
          let lines := (content.splitOn '\n').map fun line =>
            (stripped indent line).getD (if line.all isAsciiWhitespace then [] else line)
          some (List.intercalate ['\n'] lines)

theorem behind_backslash_shorter (rest : Text) (found : '\\' ∈ rest) (n : Nat) :
    ((rest.dropWhile (· != '\\')).drop (n + 1)).length < rest.length := by
  have kept := List.IsSuffix.length_le (List.dropWhile_suffix (l := rest) (· != '\\'))
  have some_left : 0 < (rest.dropWhile (· != '\\')).length := by
    rw [List.length_pos_iff, ne_eq, List.dropWhile_eq_nil_iff]
    intro all
    exact absurd (all '\\' found) (by decide)
  rw [List.length_drop]
  omega

-- Swift's escapes as ordinary ones: the marker opens an escape, a bare backslash is data.
def rewritten (hashes : Nat) (rest : Text) : Text :=
  if '\\' ∉ rest then rest
  else
    let after := rest.dropWhile (· != '\\')
    rest.takeWhile (· != '\\') ++
      (if ('\\' :: List.replicate hashes '#').isPrefixOf after then '\\' :: rewritten hashes (after.drop (hashes + 1))
      else '\\' :: '\\' :: rewritten hashes (after.drop 1))
  termination_by rest.length
  decreasing_by
    · exact behind_backslash_shorter rest (Decidable.not_not.mp ‹_›) hashes
    · exact behind_backslash_shorter rest (Decidable.not_not.mp ‹_›) 0

def hashed (raw : Text) : Option Text :=
  let text := raw.dropWhile (· == '#')
  let hashes := raw.length - text.length
  match unquote text ['"'] .upToThree hashes with
  | none => none
  | some (body, run) =>
      match if run = 3 then dedent body else some body with
      | none => none
      | some body =>
          if hashes = 0 then some (decode body)
          else some (decode (rewritten hashes body))

-- `str::replace`: left to right, without overlaps.
def replaceText (pattern replacement : Text) : Text → Text
  | [] => []
  | c :: rest =>
      if pattern.isPrefixOf (c :: rest) then replacement ++ replaceText pattern replacement (rest.drop (pattern.length - 1))
      else c :: replaceText pattern replacement rest
  termination_by s => s.length
  decreasing_by
    · rw [List.length_drop, List.length_cons]
      omega
    · exact Nat.lt_succ_self _

def strippedSuffix (ending text : Text) : Option Text :=
  if ending.isSuffixOf text then some (text.take (text.length - ending.length)) else none

-- Long brackets are raw but for their line breaks; quoted strings have Lua's escapes.
def lua (raw : Text) : Option Text :=
  match stripped ['['] raw with
  | none => (unquote raw ['"', '\''] .single 0).map fun parts => decodeLua parts.1
  | some afterOpen =>
      let level := (afterOpen.takeWhile (· == '=')).length
      match stripped ['['] (afterOpen.drop level) with
      | none => none
      | some body =>
          match strippedSuffix (']' :: List.replicate level '=' ++ [']']) body with
          | none => none
          | some body =>
              let body :=
                ((stripped ['\r', '\n'] body).or ((stripped ['\n', '\r'] body).or
                  ((stripped ['\n'] body).or (stripped ['\r'] body)))).getD body
              some (replaceText ['\r'] ['\n'] (replaceText ['\n', '\r'] ['\n'] (replaceText ['\r', '\n'] ['\n'] body)))

end Filefacts.Source
