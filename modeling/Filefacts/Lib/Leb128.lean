import Mathlib.Algebra.Order.Ring.Nat
import Mathlib.Data.UInt

set_option autoImplicit false

namespace Filefacts.Leb128

-- The LEB128 spellings of a number of a given width. Spellings need not be shortest; the bits of the last octet that the
-- width has no room for are zero.
inductive Unsigned : Nat → Nat → List UInt8 → Prop
  | last (width : Nat) (octet : UInt8) (final : octet.toNat < 2 ^ 7) (fits : octet.toNat < 2 ^ width) :
      Unsigned width octet.toNat [octet]
  | more (width : Nat) (octet : UInt8) (high : Nat) (tail : List UInt8) (continued : 2 ^ 7 ≤ octet.toNat) (wide : 7 < width)
      (spelled : Unsigned (width - 7) high tail) : Unsigned width (2 ^ 7 * high + (octet.toNat - 2 ^ 7)) (octet :: tail)

-- The same for two's complement: the bits without room repeat the sign.
inductive Signed : Nat → Int → List UInt8 → Prop
  | positive (width : Nat) (octet : UInt8) (final : octet.toNat < 2 ^ 6) (fits : octet.toNat < 2 ^ (width - 1)) :
      Signed width octet.toNat [octet]
  | negative (width : Nat) (octet : UInt8) (signed : 2 ^ 6 ≤ octet.toNat) (final : octet.toNat < 2 ^ 7)
      (fits : 2 ^ 7 ≤ octet.toNat + 2 ^ (width - 1)) : Signed width ((octet.toNat : Int) - 2 ^ 7) [octet]
  | more (width : Nat) (octet : UInt8) (high : Int) (tail : List UInt8) (continued : 2 ^ 7 ≤ octet.toNat) (wide : 7 < width)
      (spelled : Signed (width - 7) high tail) :
      Signed width (2 ^ 7 * high + ((octet.toNat : Int) - 2 ^ 7)) (octet :: tail)

variable (width value : Nat)

theorem unsigned_ne_nil (spelling : List UInt8) (spelled : Unsigned width value spelling) : spelling ≠ [] := by
  cases spelled with
  | last => exact List.cons_ne_nil _ _
  | more => exact List.cons_ne_nil _ _

theorem signed_ne_nil (value : Int) (spelling : List UInt8) (spelled : Signed width value spelling) : spelling ≠ [] := by
  cases spelled with
  | positive => exact List.cons_ne_nil _ _
  | negative => exact List.cons_ne_nil _ _
  | more => exact List.cons_ne_nil _ _

theorem unsigned_cons (octet : UInt8) (tail : List UInt8) : Unsigned width value (octet :: tail) ↔
    (octet.toNat < 2 ^ 7 ∧ octet.toNat < 2 ^ width ∧ tail = [] ∧ value = octet.toNat) ∨
    (2 ^ 7 ≤ octet.toNat ∧ 7 < width ∧ ∃ high, Unsigned (width - 7) high tail ∧ value = 2 ^ 7 * high + (octet.toNat - 2 ^ 7)) := by
  constructor
  · intro spelled
    cases spelled with
    | last _ _ final fits => exact .inl ⟨final, fits, rfl, rfl⟩
    | more _ _ high _ continued wide spelled => exact .inr ⟨continued, wide, high, spelled, rfl⟩
  · rintro (⟨final, fits, rfl, same⟩ | ⟨continued, wide, high, spelled, same⟩) <;> rw [same]
    · exact .last width octet final fits
    · exact .more width octet high tail continued wide spelled

theorem signed_cons (value : Int) (octet : UInt8) (tail : List UInt8) : Signed width value (octet :: tail) ↔
    (octet.toNat < 2 ^ 6 ∧ octet.toNat < 2 ^ (width - 1) ∧ tail = [] ∧ value = octet.toNat) ∨
    (2 ^ 6 ≤ octet.toNat ∧ octet.toNat < 2 ^ 7 ∧ 2 ^ 7 ≤ octet.toNat + 2 ^ (width - 1) ∧ tail = [] ∧
      value = (octet.toNat : Int) - 2 ^ 7) ∨
    (2 ^ 7 ≤ octet.toNat ∧ 7 < width ∧ ∃ high, Signed (width - 7) high tail ∧
      value = 2 ^ 7 * high + ((octet.toNat : Int) - 2 ^ 7)) := by
  constructor
  · intro spelled
    cases spelled with
    | positive _ _ final fits => exact .inl ⟨final, fits, rfl, rfl⟩
    | negative _ _ signed final fits => exact .inr (.inl ⟨signed, final, fits, rfl, rfl⟩)
    | more _ _ high _ continued wide spelled => exact .inr (.inr ⟨continued, wide, high, spelled, rfl⟩)
  · rintro (⟨final, fits, rfl, same⟩ | ⟨signed, final, fits, rfl, same⟩ | ⟨continued, wide, high, spelled, same⟩) <;> rw [same]
    · exact .positive width octet final fits
    · exact .negative width octet signed final fits
    · exact .more width octet high tail continued wide spelled

end Filefacts.Leb128
