import Mathlib.Algebra.Order.Ring.Nat

set_option autoImplicit false

namespace Filefacts.Window

variable {α : Type}

-- One item more, the one a distance back; nothing when the distance is zero or reaches past the front.
def back (distance : Nat) (items : List α) : List α :=
  if distance ≤ items.length then items ++ (items.drop (items.length - distance)).take 1 else items

-- Copying item by item: the copy may run into what it has just written.
def extend (distance : Nat) : Nat → List α → List α
  | 0, items => items
  | count + 1, items => extend distance count (back distance items)

variable {distance : Nat} {items : List α}

theorem back_eq (inside : items.length - distance < items.length)
    (reaches : distance ≤ items.length) : back distance items = items ++ [items[items.length - distance]] := by
  unfold back
  rw [if_pos reaches, List.drop_eq_getElem_cons inside, List.take_succ_cons, List.take_zero]

theorem back_length (positive : 1 ≤ distance) (reaches : distance ≤ items.length) :
    (back distance items).length = items.length + 1 := by
  rw [back_eq (by omega) reaches, List.length_append, List.length_singleton]

theorem extend_length (distance count : Nat) (items : List α) (positive : 1 ≤ distance) (reaches : distance ≤ items.length) :
    (extend distance count items).length = items.length + count := by
  induction count generalizing items with
  | zero => rfl
  | succ count ih =>
      have longer := back_length positive reaches
      rw [extend, ih (back distance items) (by omega), longer]
      omega

theorem back_append (distance : Nat) (front items : List α) (reaches : distance ≤ items.length) :
    back distance (front ++ items) = front ++ back distance items := by
  unfold back
  rw [if_pos reaches, if_pos (by rw [List.length_append]; omega), List.append_assoc, List.drop_append,
    List.drop_eq_nil_of_le (by rw [List.length_append]; omega), List.nil_append, List.length_append,
    show front.length + items.length - distance - front.length = items.length - distance by omega]

theorem extend_append (distance count : Nat) (front items : List α) (positive : 1 ≤ distance)
    (reaches : distance ≤ items.length) :
    extend distance count (front ++ items) = front ++ extend distance count items := by
  induction count generalizing items with
  | zero => rfl
  | succ count ih =>
      have longer := back_length positive reaches
      rw [extend, extend, back_append distance front items reaches, ih (back distance items) (by omega)]

end Filefacts.Window
