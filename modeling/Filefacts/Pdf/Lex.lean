import Filefacts.Bytes
import Filefacts.Lib.Search
import Filefacts.Constraint.Header

set_option autoImplicit false

namespace Filefacts.Pdf

open Bytes (ascii)

def isNameChar (b : UInt8) : Bool := Bytes.isAsciiAlphabetic b || (48 ≤ b && b ≤ 57) || b == 95

def isAsciiWhitespace (b : UInt8) : Bool := b == 32 || b == 9 || b == 10 || b == 12 || b == 13

def isAsciiDigit (b : UInt8) : Bool := 48 ≤ b && b ≤ 57

def byteAt (bytes : List UInt8) (position : Nat) : UInt8 := bytes[position]?.getD 32

def byteBefore (bytes : List UInt8) (position : Nat) : UInt8 := if position = 0 then 32 else byteAt bytes (position - 1)

def occursAt (bytes needle : List UInt8) (position : Nat) : Bool := needle.isPrefixOf (bytes.drop position)

def skipWhile (bytes : List UInt8) (start : Nat) (passes : UInt8 → Bool) : Nat :=
  start + ((bytes.drop start).takeWhile passes).length

def memmemFind (bytes needle : List UInt8) (start : Nat) : Option Nat :=
  Search.first (occursAt bytes needle) (bytes.length + 1) start

def isToken (bytes needle : List UInt8) (position : Nat) : Bool :=
  !isNameChar (byteBefore bytes position) && !isNameChar (byteAt bytes (position + needle.length))

-- None of the needles can overlap itself, so every occurrence is tried.
def findTokenBetween (bytes : List UInt8) (start stop : Nat) (needle : List UInt8) : Option Nat :=
  let stop := min stop bytes.length
  Search.first (fun position => decide (position + needle.length ≤ stop) && occursAt bytes needle position &&
    isToken bytes needle position) stop start

def parseUnsigned (limit : Nat) (text : List Char) : Option Nat :=
  let digits := match text with
    | '+' :: rest => rest
    | _ => text
  if digits = [] ∨ ¬ digits.all Char.isDigit then none
  else
    let number := digits.foldl (fun number c => number * 10 + (c.toNat - 48)) 0
    if number < limit then some number else none

def decodeUtf8 (bytes : List UInt8) : Option (List Char) := (String.fromUTF8? ⟨bytes.toArray⟩).map String.toList

end Filefacts.Pdf
