import Mathlib.Algebra.Order.Ring.Nat

set_option autoImplicit false

namespace Filefacts.Extents

variable {α : Type}

def Holds (list : List α) (position : Nat) (items : List α) : Prop :=
  ∃ front back, list = front ++ items ++ back ∧ front.length = position

variable (list : List α) (position : Nat)

variable (items one other : List α)

theorem holds_inside (holds : Holds list position items) : position + items.length ≤ list.length := by
  obtain ⟨front, back, rfl, rfl⟩ := holds
  simp only [List.length_append]
  omega

theorem holds_slice (holds : Holds list position items) : (list.drop position).take items.length = items := by
  obtain ⟨front, back, rfl, rfl⟩ := holds
  rw [List.append_assoc, List.drop_left, List.take_left]

theorem holds_append_left (holds : Holds list position (one ++ other)) : Holds list position one := by
  obtain ⟨front, back, rfl, same⟩ := holds
  exact ⟨front, other ++ back, by simp only [List.append_assoc], same⟩

theorem holds_append_right (holds : Holds list position (one ++ other)) : Holds list (position + one.length) other := by
  obtain ⟨front, back, rfl, rfl⟩ := holds
  exact ⟨front ++ one, back, by simp only [List.append_assoc], List.length_append⟩

theorem holds_agree {count : Nat} {items : List α} (agree : other.take count = list.take count)
    (holds : Holds list position items) (before : position + items.length ≤ count) : Holds other position items := by
  obtain ⟨front, back, rfl, rfl⟩ := holds
  refine ⟨front, other.drop (front.length + items.length), ?_, rfl⟩
  have begins : other.take (front.length + items.length) = front ++ items := by
    calc other.take (front.length + items.length) = (other.take count).take (front.length + items.length) := by
          rw [List.take_take, Nat.min_eq_left before]
      _ = (front ++ items ++ back).take (front.length + items.length) := by
          rw [agree, List.take_take, Nat.min_eq_left before]
      _ = front ++ items := List.take_left' List.length_append
  rw [← begins, List.take_append_drop]

def Closes (list : List α) (position : Nat) (items : List α) : Prop := ∃ front, list = front ++ items ∧ front.length = position

theorem closes_self : Closes list 0 list := ⟨[], rfl, rfl⟩

theorem closes_holds (closes : Closes list position (one ++ other)) : Holds list position one := by
  obtain ⟨front, rfl, same⟩ := closes
  exact ⟨front, other, (List.append_assoc _ _ _).symm, same⟩

theorem closes_append_right (closes : Closes list position (one ++ other)) : Closes list (position + one.length) other := by
  obtain ⟨front, rfl, rfl⟩ := closes
  exact ⟨front ++ one, (List.append_assoc _ _ _).symm, List.length_append⟩

theorem closes_drop (closes : Closes list position items) : list.drop position = items := by
  obtain ⟨front, rfl, rfl⟩ := closes
  exact List.drop_left

end Filefacts.Extents
