import Mathlib.Algebra.Order.Ring.Nat
import Mathlib.Data.List.Induction
import Mathlib.Tactic.Ring

set_option autoImplicit false

-- Numbers written in a base, most significant digit first.
namespace Filefacts.Radix

variable (base : Nat)

def value (digits : List Nat) : Nat := digits.foldl (fun total digit => total * base + digit) 0

def digitsOf : Nat → Nat → List Nat
  | 0, _ => []
  | width + 1, number => digitsOf width (number / base) ++ [number % base]

@[simp] theorem value_nil : value base [] = 0 := rfl

variable (digits : List Nat) (width number : Nat)

@[simp] theorem value_concat (last : Nat) : value base (digits ++ [last]) = value base digits * base + last := by
  simp [value]

theorem value_append (front back : List Nat) :
    value base (front ++ back) = value base front * base ^ back.length + value base back := by
  induction back using List.reverseRecOn with
  | nil => simp
  | append_singleton back last ih =>
      rw [← List.append_assoc, value_concat, ih, value_concat, List.length_append, List.length_singleton, Nat.pow_succ]
      ring

theorem value_lt (proper : ∀ digit ∈ digits, digit < base) : value base digits < base ^ digits.length := by
  induction digits using List.reverseRecOn with
  | nil => simp
  | append_singleton digits last ih =>
      have before := ih fun digit member => proper digit (List.mem_append_left _ member)
      have small := proper last (List.mem_append_right _ (List.mem_singleton_self last))
      rw [value_concat, List.length_append, List.length_singleton, Nat.pow_succ]
      calc value base digits * base + last < value base digits * base + base := Nat.add_lt_add_left small _
        _ = (value base digits + 1) * base := by ring
        _ ≤ base ^ digits.length * base := Nat.mul_le_mul_right base before

theorem value_top (positive : 0 < base) (count : Nat) : value base (List.replicate count (base - 1)) + 1 = base ^ count := by
  induction count with
  | zero => rfl
  | succ count ih =>
      rw [List.replicate_succ', value_concat, Nat.pow_succ, ← ih]
      obtain ⟨below, rfl⟩ : ∃ below, base = below + 1 := ⟨base - 1, by omega⟩
      rw [Nat.add_sub_cancel]
      ring

theorem digits_of_length : (digitsOf base width number).length = width := by
  induction width generalizing number with
  | zero => rfl
  | succ width ih => rw [digitsOf, List.length_append, ih, List.length_singleton]

theorem digits_of_lt (positive : 0 < base) (width number digit : Nat) (member : digit ∈ digitsOf base width number) :
    digit < base := by
  induction width generalizing number with
  | zero => cases member
  | succ width ih =>
      rcases List.mem_append.mp member with before | last
      · exact ih _ before
      · rw [List.mem_singleton.mp last]
        exact Nat.mod_lt number positive

theorem value_digits_of (fits : number < base ^ width) : value base (digitsOf base width number) = number := by
  induction width generalizing number with
  | zero =>
      rw [Nat.pow_zero, Nat.lt_one_iff] at fits
      rw [fits]
      rfl
  | succ width ih =>
      have shorter : number / base < base ^ width := by
        rw [Nat.pow_succ] at fits
        exact Nat.div_lt_of_lt_mul (by rwa [Nat.mul_comm])
      rw [digitsOf, value_concat, ih _ shorter, Nat.mul_comm]
      exact Nat.div_add_mod number base

theorem rounded_up (positive : 0 < base) (front back : List Nat) (proper : ∀ digit ∈ back, digit < base) :
    value base (front ++ back) ≤ value base (front ++ List.replicate back.length (base - 1)) ∧
      value base (front ++ List.replicate back.length (base - 1)) < value base (front ++ back) + base ^ back.length := by
  have top := value_top base positive back.length
  have small := value_lt base back proper
  rw [value_append, value_append, List.length_replicate]
  omega

end Filefacts.Radix
