import Mathlib.Algebra.Order.BigOperators.Group.List
import Mathlib.Algebra.Order.Ring.Nat

set_option autoImplicit false

namespace Filefacts.Summands

variable {α β : Type}

theorem level (f g : α → Nat) (items : List α) (least : ∀ item ∈ items, g item ≤ f item)
    (same : (items.map f).sum = (items.map g).sum) : ∀ item ∈ items, f item = g item := by
  induction items with
  | nil => exact fun item inside => absurd inside List.not_mem_nil
  | cons first items ih =>
      have one := least first List.mem_cons_self
      have rest := List.sum_le_sum fun item inside => least item (List.mem_cons_of_mem first inside)
      simp only [List.map_cons, List.sum_cons] at same
      intro item inside
      rcases List.mem_cons.mp inside with rfl | inside
      · omega
      · exact ih (fun item inside => least item (List.mem_cons_of_mem _ inside)) (by omega) item inside

theorem lengths_level {left right : α → List β} {items : List α} (least : ∀ item ∈ items, (right item).length ≤ (left item).length)
    (same : items.flatMap left = items.flatMap right) : ∀ item ∈ items, (left item).length = (right item).length := by
  have total := congrArg List.length same
  rw [List.length_flatMap, List.length_flatMap] at total
  exact level (fun item => (left item).length) (fun item => (right item).length) items least total

theorem counts_level [BEq β] (b : β) (left right : α → List β) (items : List α)
    (least : ∀ item ∈ items, (right item).count b ≤ (left item).count b) (same : items.flatMap left = items.flatMap right) :
    ∀ item ∈ items, (left item).count b = (right item).count b := by
  have total := congrArg (List.count b) same
  rw [List.count_flatMap, List.count_flatMap] at total
  exact level (fun item => (left item).count b) (fun item => (right item).count b) items least total

end Filefacts.Summands
