import Mathlib.Data.List.Induction
import Mathlib.Data.Nat.Log
import Mathlib.Algebra.Order.Ring.Nat

set_option autoImplicit false

namespace Filefacts.BigEndian

-- Unsigned integers as runs of octets, most significant octet first.
def value (octets : List UInt8) : Nat :=
  octets.foldl (fun total octet => total * 256 + octet.toNat) 0

def octetsOf : Nat → Nat → List UInt8
  | 0, _ => []
  | width + 1, number => octetsOf width (number / 256) ++ [UInt8.ofNat (number % 256)]

def significant (octets : List UInt8) : List UInt8 :=
  octets.drop (octets.takeWhile (· == 0)).length

@[simp] theorem value_nil : value [] = 0 := rfl

variable (octets : List UInt8) (width : Nat)

@[simp] theorem value_concat (last : UInt8) : value (octets ++ [last]) = value octets * 256 + last.toNat := by
  simp [value]

theorem value_append (front back : List UInt8) :
    value (front ++ back) = value front * 256 ^ back.length + value back := by
  induction back using List.reverseRecOn with
  | nil => simp
  | append_singleton back last ih =>
      rw [← List.append_assoc, value_concat, ih, value_concat, List.length_append, List.length_singleton, Nat.pow_succ,
        Nat.add_mul, Nat.mul_assoc, Nat.add_assoc]

variable (first : UInt8) (number : Nat)

theorem value_cons (octets : List UInt8) : value (first :: octets) = first.toNat * 256 ^ octets.length + value octets := by
  have split := value_append [first] octets
  simpa [value] using split

theorem value_lt : value octets < 256 ^ octets.length := by
  induction octets using List.reverseRecOn with
  | nil => simp
  | append_singleton octets last ih =>
      have bounded := last.toNat_lt
      rw [value_concat, List.length_append, List.length_singleton, Nat.pow_succ]
      omega

theorem octets_of_length : (octetsOf width number).length = width := by
  induction width generalizing number with
  | zero => rfl
  | succ width ih => simp [octetsOf, ih]

theorem value_octets_of (fits : number < 256 ^ width) : value (octetsOf width number) = number := by
  induction width generalizing number with
  | zero =>
      have zero : number = 0 := by simpa using fits
      simp [octetsOf, zero]
  | succ width ih =>
      have shorter : number / 256 < 256 ^ width := by
        rw [Nat.pow_succ] at fits
        omega
      have last : (UInt8.ofNat (number % 256)).toNat = number % 256 := by
        rw [UInt8.toNat_ofNat']
        omega
      rw [octetsOf, value_concat, ih _ shorter, last]
      omega

theorem octets_of_value : octetsOf octets.length (value octets) = octets := by
  induction octets using List.reverseRecOn with
  | nil => rfl
  | append_singleton octets last ih =>
      have small := last.toNat_lt
      have quotient : (value octets * 256 + last.toNat) / 256 = value octets := by omega
      have remainder : (value octets * 256 + last.toNat) % 256 = last.toNat := by omega
      rw [List.length_append, List.length_singleton, value_concat, octetsOf, quotient, remainder, ih, UInt8.ofNat_toNat]

theorem octets_of_take (dropped number : Nat) :
    (octetsOf (width + dropped) number).take width = octetsOf width (number / 256 ^ dropped) := by
  induction dropped generalizing number with
  | zero => rw [Nat.add_zero, Nat.pow_zero, Nat.div_one, List.take_of_length_le (octets_of_length width number).le]
  | succ dropped ih =>
      have within : width ≤ (octetsOf (width + dropped) (number / 256)).length := by
        rw [octets_of_length]
        omega
      rw [← Nat.add_assoc, octetsOf, List.take_append_of_le_length within, ih, Nat.div_div_eq_div_mul, Nat.pow_succ, Nat.mul_comm]

theorem significant_cons_zero : significant (0 :: octets) = significant octets := by
  simp [significant]

theorem significant_cons (octets : List UInt8) (nonzero : first ≠ 0) : significant (first :: octets) = first :: octets := by
  simp [significant, nonzero]

theorem value_significant : value (significant octets) = value octets := by
  induction octets with
  | nil => rfl
  | cons first octets ih =>
      by_cases zero : first = 0
      · subst zero
        rw [significant_cons_zero, ih, value_cons]
        simp
      · rw [significant_cons first octets zero]

theorem significant_length_le : (significant octets).length ≤ octets.length := by
  simp [significant]

-- The leading octet is what pins the length down: it makes the value at least
-- as large as the power of 256 that the other octets stay below.
theorem significant_power_le (positive : 0 < value octets) :
    256 ^ ((significant octets).length - 1) ≤ value octets ∧ 0 < (significant octets).length := by
  induction octets with
  | nil => simp at positive
  | cons first octets ih =>
      by_cases zero : first = 0
      · subst zero
        have same : value (0 :: octets) = value octets := by simp [value_cons]
        rw [significant_cons_zero, same]
        exact ih (same ▸ positive)
      · have leading : 1 ≤ first.toNat := by
          have different : first.toNat ≠ 0 := fun equal => zero (UInt8.toNat_inj.mp equal)
          omega
        rw [significant_cons first octets zero, value_cons]
        have scaled := Nat.mul_le_mul_right (256 ^ octets.length) leading
        simp only [List.length_cons, Nat.add_sub_cancel]
        omega

theorem significant_length (positive : 0 < value octets) : (significant octets).length = Nat.log 256 (value octets) + 1 := by
  obtain ⟨lower, nonempty⟩ := significant_power_le octets positive
  have upper := value_lt (significant octets)
  rw [value_significant] at upper
  have exponent : Nat.log 256 (value octets) = (significant octets).length - 1 := by
    rw [Nat.log_eq_iff (Or.inr ⟨by omega, by omega⟩)]
    exact ⟨lower, by rwa [Nat.sub_add_cancel nonempty]⟩
  omega

theorem significant_zero (zero : value octets = 0) : significant octets = [] := by
  induction octets with
  | nil => rfl
  | cons first octets ih =>
      have power : 0 < 256 ^ octets.length := Nat.pow_pos (by omega)
      rw [value_cons, Nat.add_eq_zero_iff, Nat.mul_eq_zero] at zero
      obtain ⟨leading | impossible, rest⟩ := zero
      · have head : first = 0 := UInt8.toNat_inj.mp leading
        rw [head, significant_cons_zero, ih rest]
      · omega

theorem significant_shortest (others : List UInt8) (same : value others = value octets) :
    (significant octets).length ≤ others.length := by
  by_cases zero : value octets = 0
  · simp [significant_zero octets zero]
  · rw [significant_length octets (by omega), ← same]
    exact Nat.log_lt_of_lt_pow (same ▸ zero) (value_lt others)

end Filefacts.BigEndian
