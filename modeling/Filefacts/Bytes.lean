import Filefacts.Lib.BigEndian

set_option autoImplicit false

namespace Filefacts.Bytes

def maxU64 : Nat := 2 ^ 64 - 1

def checkedAdd (a b : Nat) : Option Nat := if a + b < 2 ^ 64 then some (a + b) else none

def checkedMul (a b : Nat) : Option Nat := if a * b < 2 ^ 64 then some (a * b) else none

def checkedSub (a b : Nat) : Option Nat := if b ≤ a then some (a - b) else none

def saturatingAdd (a b : Nat) : Nat := min (a + b) maxU64

def saturatingMul (a b : Nat) : Nat := min (a * b) maxU64

def divCeil (a b : Nat) : Nat := (a + b - 1) / b

def get (bytes : List UInt8) (start stop : Nat) : Option (List UInt8) :=
  if start ≤ stop ∧ stop ≤ bytes.length then some ((bytes.drop start).take (stop - start)) else none

def arrayAt (bytes : List UInt8) (count offset : Nat) : Option (List UInt8) :=
  if offset + count ≤ bytes.length then some ((bytes.drop offset).take count) else none

def u8 (bytes : List UInt8) (offset : Nat) : Option Nat := bytes[offset]?.map UInt8.toNat

def u16le (bytes : List UInt8) (offset : Nat) : Option Nat :=
  (arrayAt bytes 2 offset).map fun field => BigEndian.value field.reverse

def u32le (bytes : List UInt8) (offset : Nat) : Option Nat :=
  (arrayAt bytes 4 offset).map fun field => BigEndian.value field.reverse

def u32be (bytes : List UInt8) (offset : Nat) : Option Nat := (arrayAt bytes 4 offset).map BigEndian.value

def u64be (bytes : List UInt8) (offset : Nat) : Option Nat := (arrayAt bytes 8 offset).map BigEndian.value

def ascii (text : String) : List UInt8 := text.toList.map fun c => UInt8.ofNat c.toNat

def isAsciiAlphabetic (b : UInt8) : Bool := (65 ≤ b && b ≤ 90) || (97 ≤ b && b ≤ 122)

def toAsciiLower (b : UInt8) : UInt8 := if 65 ≤ b ∧ b ≤ 90 then b + 32 else b

def toAsciiLowercase (bytes : List UInt8) : List UInt8 := bytes.map toAsciiLower

def toAsciiUppercase (bytes : List UInt8) : List UInt8 := bytes.map fun b => if 97 ≤ b ∧ b ≤ 122 then b - 32 else b

def eqIgnoreAsciiCase (left right : List UInt8) : Bool := toAsciiLowercase left = toAsciiLowercase right

def hexByte (number : Nat) : String := String.ofList [Nat.digitChar (number / 16), Nat.digitChar (number % 16)]

-- UTF-8 text is kept as its octets.
def fromUtf8 (bytes : List UInt8) : Option (List UInt8) := (String.fromUTF8? ⟨bytes.toArray⟩).map fun _ => bytes

def encodePoint (point : Nat) : List UInt8 :=
  if point < 0x80 then [UInt8.ofNat point]
  else if point < 0x800 then [UInt8.ofNat (0xC0 + point / 64), UInt8.ofNat (0x80 + point % 64)]
  else if point < 0x10000 then
    [UInt8.ofNat (0xE0 + point / 4096), UInt8.ofNat (0x80 + point / 64 % 64), UInt8.ofNat (0x80 + point % 64)]
  else
    [UInt8.ofNat (0xF0 + point / 262144), UInt8.ofNat (0x80 + point / 4096 % 64), UInt8.ofNat (0x80 + point / 64 % 64),
      UInt8.ofNat (0x80 + point % 64)]

theorem checked_add_some (a b total : Nat) : checkedAdd a b = some total ↔ a + b = total ∧ a + b < 2 ^ 64 := by
  unfold checkedAdd
  rw [Option.ite_none_right_eq_some, Option.some.injEq]
  exact and_comm

variable (front field back text : List UInt8)

theorem array_at_there : arrayAt (front ++ (field ++ back)) field.length front.length = some field := by
  rw [arrayAt, if_pos (by simp only [List.length_append]; omega), List.drop_left, List.take_left]

theorem get_there : get (front ++ (field ++ back)) front.length (front.length + field.length) = some field := by
  rw [get, if_pos ⟨Nat.le_add_right _ _, by simp only [List.length_append]; omega⟩, List.drop_left, Nat.add_sub_cancel_left,
    List.take_left]

theorem ascii_char (b : UInt8) (small : b < 128) : (Char.ofNat b.toNat).val = b.toUInt32 := by
  have below : b.toNat < 128 := UInt8.lt_iff_toNat_lt.mp small
  have valid : b.toNat.isValidChar := Or.inl (by omega)
  apply UInt32.toNat_inj.mp
  rw [UInt8.toNat_toUInt32, Char.ofNat, dif_pos valid]
  rfl

theorem ascii_valid (plain : ∀ b ∈ text, b < 128) : (ByteArray.mk text.toArray).IsValidUTF8 := by
  induction text using List.reverseRecOn with
  | nil => exact ByteArray.isValidUTF8_empty
  | append_singleton text b ih =>
      have before := ih fun other member => plain other (List.mem_append_left _ member)
      have small := plain b (List.mem_append_right _ (List.mem_singleton_self b))
      have below : b.toNat < 128 := UInt8.lt_iff_toNat_lt.mp small
      have size : (Char.ofNat b.toNat).utf8Size = 1 := by
        rw [Char.utf8Size_eq_one_iff, ascii_char b small, UInt32.le_iff_toNat_le, UInt8.toNat_toUInt32]
        exact Nat.le_of_lt_succ below
      have same : (Char.ofNat b.toNat).toUInt8 = b := by
        rw [Char.toUInt8, ascii_char b small, UInt8.toUInt8_toUInt32]
      have pushed := before.push size
      rw [same] at pushed
      rw [← List.push_toArray]
      exact pushed

theorem from_utf8_ascii (plain : ∀ b ∈ text, b < 128) : fromUtf8 text = some text := by
  rw [fromUtf8, String.fromUTF8?, dif_pos (ascii_valid text plain), Option.map_some]

end Filefacts.Bytes
