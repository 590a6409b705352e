import Filefacts.Pdf.Lex
import Filefacts.Rar.Name
import Filefacts.Lib.Summands

set_option autoImplicit false

namespace Filefacts.Pdf

def literalCap : Nat := 1024

def maxLiteralSpan : Nat := 4 * 1024

def isOctalDigit (b : UInt8) : Bool := 48 ≤ b && b ≤ 55

def readOctal (bytes : List UInt8) : Nat → Nat → Nat → Nat × Nat
  | 0, value, j => (value, j)
  | count + 1, value, j =>
      match bytes[j]?.filter isOctalDigit with
      | none => (value, j)
      | some digit => readOctal bytes count (value * 8 + (digit.toNat - 48)) (j + 1)

def literalLetters : List (UInt8 × UInt8) := [(110, 10), (114, 13), (116, 9), (98, 8), (102, 12), (40, 40), (41, 41), (92, 92)]

def literalEscape (esc : UInt8) : List UInt8 :=
  match literalLetters.lookup esc with
  | some b => [b]
  | none => if esc = 10 ∨ esc = 13 then [] else [esc]

theorem read_octal_past (bytes : List UInt8) (count value j : Nat) : j ≤ (readOctal bytes count value j).2 := by
  induction count generalizing value j with
  | zero => exact Nat.le_refl _
  | succ count ih =>
      rw [readOctal]
      cases bytes[j]?.filter isOctalDigit with
      | none => exact Nat.le_refl _
      | some digit => exact Nat.le_of_succ_le (ih _ (j + 1))

def literalLoop (bytes : List UInt8) (spanEnd : Nat) (depth : Int) (out : List UInt8) (i : Nat) : List UInt8 :=
  if out.length < literalCap ∧ i < spanEnd then
    match bytes[i]? with
    | none => out
    | some b =>
        match if b = 92 then bytes[i + 1]? else none with
        | some esc =>
            if isOctalDigit esc then
              literalLoop bytes spanEnd depth (out ++ [UInt8.ofNat ((readOctal bytes 3 0 (i + 1)).1 % 256)])
                (readOctal bytes 3 0 (i + 1)).2
            else literalLoop bytes spanEnd depth (out ++ literalEscape esc) (i + 2)
        | none =>
            if b = 40 then literalLoop bytes spanEnd (depth + 1) (out ++ [b]) (i + 1)
            else if b = 41 then if depth - 1 = 0 then out else literalLoop bytes spanEnd (depth - 1) (out ++ [b]) (i + 1)
            else literalLoop bytes spanEnd depth (out ++ [b]) (i + 1)
  else out
  termination_by spanEnd - i
  decreasing_by
    · have past := read_octal_past bytes 3 0 (i + 1)
      omega
    all_goals omega

-- The bytes of the string; `start` lies in the input, so the end of the span does not saturate.
def literalBytes (bytes : List UInt8) (start : Nat) : List UInt8 := literalLoop bytes (start + maxLiteralSpan) 1 [] start

-- UTF-16 with a replacement character for each unpaired surrogate; a trailing odd byte is ignored.
def utf16Lossy : List UInt8 → Rar.Text
  | a :: b :: c :: d :: rest =>
      let unit := a.toNat * 256 + b.toNat
      let next := c.toNat * 256 + d.toNat
      if unit < 0xD800 ∨ 0xDFFF < unit then unit :: utf16Lossy (c :: d :: rest)
      else if unit < 0xDC00 ∧ 0xDC00 ≤ next ∧ next ≤ 0xDFFF then
        (0x10000 + (unit - 0xD800) * 0x400 + (next - 0xDC00)) :: utf16Lossy rest
      else Rar.replacement :: utf16Lossy (c :: d :: rest)
  | a :: b :: _ =>
      let unit := a.toNat * 256 + b.toNat
      if unit < 0xD800 ∨ 0xDFFF < unit then [unit] else [Rar.replacement]
  | _ => []

def decodeTextString (raw : List UInt8) : List Char :=
  let points := if [0xFE, 0xFF].isPrefixOf raw then utf16Lossy (raw.drop 2) else Rar.fromUtf8Lossy raw
  Constraint.trim (points.map Char.ofNat)

def readLiteralString (bytes : List UInt8) (start : Nat) : Option (List Char) :=
  let out := literalBytes bytes start
  if out = [] then none else some (decodeTextString out)

-- The pieces of a literal string. A line end that is not escaped may be taken for its plain bytes or,
-- whatever its octets, for a line feed.
inductive LiteralPiece where
  | plain (b : UInt8)
  | opening
  | closing
  | letter (esc b : UInt8)
  | octal (digits : List UInt8)
  | ignored (b : UInt8)
  | continued (eol : List UInt8)
  | lineEnd (eol : List UInt8)
  deriving DecidableEq, Repr

def octalValue (digits : List UInt8) : Nat := digits.foldl (fun value digit => value * 8 + (digit.toNat - 48)) 0

def eolLength (octets : List UInt8) : Nat :=
  if [13, 10].isPrefixOf octets then 2 else if octets.head? = some 13 ∨ octets.head? = some 10 then 1 else 0

def LiteralPiece.spelled : LiteralPiece → List UInt8
  | .plain b => [b]
  | .opening => [40]
  | .closing => [41]
  | .letter esc _ => [92, esc]
  | .octal digits => 92 :: digits
  | .ignored b => [92, b]
  | .continued eol => 92 :: eol
  | .lineEnd eol => eol

def LiteralPiece.value : LiteralPiece → List UInt8
  | .plain b => [b]
  | .opening => [40]
  | .closing => [41]
  | .letter _ b => [b]
  | .octal digits => [UInt8.ofNat (octalValue digits % 256)]
  | .ignored b => [b]
  | .continued _ => []
  | .lineEnd _ => [10]

def LiteralPiece.Stands (rest : List UInt8) : LiteralPiece → Prop
  | .plain b => b ∉ [92, 40, 41]
  | .letter esc b => (esc, b) ∈ literalLetters
  | .octal digits =>
      0 < digits.length ∧ digits.length ≤ 3 ∧ digits.all isOctalDigit ∧ (digits.length < 3 → ¬ rest.head?.any isOctalDigit)
  | .ignored b => literalLetters.lookup b = none ∧ ¬ isOctalDigit b ∧ b ∉ [10, 13]
  | .continued eol => 0 < eol.length ∧ eolLength (eol ++ rest) = eol.length
  | .lineEnd eol => 0 < eol.length ∧ eolLength (eol ++ rest) = eol.length
  | _ => True

def LiteralPiece.depth (depth : Nat) : LiteralPiece → Option Nat
  | .opening => some (depth + 1)
  | .closing => if depth = 0 then none else some (depth - 1)
  | _ => some depth

-- The octets between the parentheses of a string, piece by piece, with the parentheses that are open.
inductive LiteralReads : Nat → List UInt8 → List LiteralPiece → Prop
  | done : LiteralReads 0 [] []
  | piece (depth next : Nat) (piece : LiteralPiece) (rest : List UInt8) (pieces : List LiteralPiece) (stands : piece.Stands rest)
      (nested : piece.depth depth = some next) (more : LiteralReads next rest pieces) :
      LiteralReads depth (piece.spelled ++ rest) (piece :: pieces)

def LiteralPiece.pushed : LiteralPiece → List UInt8
  | .continued eol => eol.drop 1
  | .lineEnd eol => eol
  | piece => piece.value

def Ahead (bytes : List UInt8) (i : Nat) (octets : List UInt8) : Prop := octets <+: bytes.drop i

variable (bytes : List UInt8) (spanEnd : Nat) (depth : Int) (out : List UInt8)

theorem ahead_byte {i : Nat} {b : UInt8} {octets : List UInt8} (ahead : Ahead bytes i (b :: octets)) :
    bytes[i]? = some b ∧ Ahead bytes (i + 1) octets := by
  obtain ⟨rest, whole⟩ := ahead
  constructor
  · rw [← List.head?_drop, ← whole]
    rfl
  · refine ⟨rest, ?_⟩
    rw [← List.tail_drop, ← whole]
    rfl

variable (i : Nat) (esc : UInt8)

theorem ahead_append (front octets : List UInt8) (ahead : Ahead bytes i (front ++ octets)) :
    Ahead bytes (i + front.length) octets := by
  induction front generalizing i with
  | nil => exact ahead
  | cons b front ih =>
      have behind := ih (i + 1) (ahead_byte bytes ahead).2
      rwa [Nat.add_assoc, Nat.add_comm 1] at behind

theorem loop_full (full : ¬ out.length < literalCap) : literalLoop bytes spanEnd depth out i = out := by
  rw [literalLoop, if_neg fun both => full both.1]

theorem loop_plain (b : UInt8)
    (room : out.length < literalCap) (inside : i < spanEnd) (read : bytes[i]? = some b) (plain : b ∉ [92, 40, 41]) :
    literalLoop bytes spanEnd depth out i = literalLoop bytes spanEnd depth (out ++ [b]) (i + 1) := by
  simp only [List.mem_cons, List.not_mem_nil, or_false, not_or] at plain
  rw [literalLoop, if_pos ⟨room, inside⟩, read]
  simp only [if_neg plain.1, if_neg plain.2.1, if_neg plain.2.2]

theorem loop_opening (room : out.length < literalCap) (inside : i < spanEnd) (read : bytes[i]? = some 40) :
    literalLoop bytes spanEnd depth out i = literalLoop bytes spanEnd (depth + 1) (out ++ [40]) (i + 1) := by
  rw [literalLoop, if_pos ⟨room, inside⟩, read]
  rfl

theorem loop_closing
    (room : out.length < literalCap) (inside : i < spanEnd) (read : bytes[i]? = some 41) (nested : depth - 1 ≠ 0) :
    literalLoop bytes spanEnd depth out i = literalLoop bytes spanEnd (depth - 1) (out ++ [41]) (i + 1) := by
  rw [literalLoop, if_pos ⟨room, inside⟩, read]
  simp [nested]

theorem loop_closed (read : bytes[i]? = some 41) : literalLoop bytes spanEnd 1 out i = out := by
  rw [literalLoop]
  split
  · rw [read]
    rfl
  · rfl

theorem loop_escape
    (room : out.length < literalCap) (inside : i < spanEnd) (read : bytes[i]? = some 92) (next : bytes[i + 1]? = some esc)
    (other : ¬ isOctalDigit esc) :
    literalLoop bytes spanEnd depth out i = literalLoop bytes spanEnd depth (out ++ literalEscape esc) (i + 2) := by
  rw [literalLoop, if_pos ⟨room, inside⟩, read]
  simp only [if_pos, next, if_neg other]

theorem loop_octal
    (room : out.length < literalCap) (inside : i < spanEnd) (read : bytes[i]? = some 92) (next : bytes[i + 1]? = some esc)
    (digit : isOctalDigit esc) : literalLoop bytes spanEnd depth out i =
      literalLoop bytes spanEnd depth (out ++ [UInt8.ofNat ((readOctal bytes 3 0 (i + 1)).1 % 256)])
        (readOctal bytes 3 0 (i + 1)).2 := by
  rw [literalLoop, if_pos ⟨room, inside⟩, read]
  simp only [if_pos, next, digit]

theorem octal_read (count value j : Nat) (digits rest : List UInt8) (few : digits.length ≤ count)
    (all : digits.all isOctalDigit) (ahead : Ahead bytes j (digits ++ rest))
    (ends : digits.length < count → ∃ c tail, rest = c :: tail ∧ ¬ isOctalDigit c) :
    readOctal bytes count value j =
      (digits.foldl (fun value digit => value * 8 + (digit.toNat - 48)) value, j + digits.length) := by
  induction count generalizing value j digits with
  | zero =>
      obtain rfl := List.length_eq_zero_iff.mp (Nat.le_zero.mp few)
      rfl
  | succ count ih =>
      cases digits with
      | nil =>
          obtain ⟨c, tail, rfl, other⟩ := ends (Nat.succ_pos _)
          have read := (ahead_byte bytes ahead).1
          rw [readOctal, read, Option.filter_some, if_neg other]
          rfl
      | cons digit digits =>
          obtain ⟨read, behind⟩ := ahead_byte bytes ahead
          rw [List.all_cons, Bool.and_eq_true] at all
          rw [List.length_cons] at few ends
          rw [readOctal, read, Option.filter_some, if_pos all.1]
          have more := ih (value * 8 + (digit.toNat - 48)) (j + 1) digits (by omega) all.2 behind fun fewer => ends (by omega)
          simp only [more, List.foldl_cons, List.length_cons, Prod.mk.injEq, true_and]
          omega

end Filefacts.Pdf
