import Mathlib.Data.List.Sort
import Mathlib.Algebra.Order.Ring.Nat

set_option autoImplicit false

-- Ranges that have a position in common, told from a list that is sorted by where they start.
namespace Filefacts.Crossing

abbrev Range := Nat × Nat

def Solid (range : Range) : Prop := range.1 < range.2

def Apart (one other : Range) : Prop := one.2 ≤ other.1 ∨ other.2 ≤ one.1

def Follows (one other : Range) : Prop := one.2 ≤ other.1

instance (one other : Range) : Decidable (Follows one other) := inferInstanceAs (Decidable (_ ≤ _))

variable (one other : Range) (ranges : List Range)

theorem apart_symmetric (apart : Apart one other) : Apart other one := Or.symm apart

theorem apart_iff (first : Solid one) (second : Solid other) :
    Apart one other ↔ ¬ ∃ position, (one.1 ≤ position ∧ position < one.2) ∧ other.1 ≤ position ∧ position < other.2 := by
  rw [Solid] at first second
  rw [Apart]
  constructor
  · rintro ends ⟨position, inside, within⟩
    omega
  · intro never
    by_contra crossing
    exact never ⟨max one.1 other.1, by omega, by omega⟩

theorem follows_of_apart (sorted : ranges.Pairwise fun one other => one.1 ≤ other.1)
    (solid : ∀ range ∈ ranges, Solid range) : ranges.Pairwise Apart ↔ ranges.Pairwise Follows := by
  constructor
  · intro apart
    refine (apart.and sorted).imp_of_mem ?_
    intro one other inside within ⟨ends, starts⟩
    have filled := solid other within
    rw [Solid] at filled
    rcases ends with before | behind
    · exact before
    · omega
  · exact fun follows => follows.imp fun before => Or.inl before

theorem neighbours_follow (sorted : ranges.Pairwise fun one other => one.1 ≤ other.1) :
    (∀ pair ∈ ranges.zip ranges.tail, Follows pair.1 pair.2) ↔ ranges.Pairwise Follows := by
  induction ranges with
  | nil => exact iff_of_true (fun pair member => absurd member List.not_mem_nil) List.Pairwise.nil
  | cons range rest ih =>
      obtain ⟨_, behind⟩ := List.pairwise_cons.mp sorted
      cases rest with
      | nil => exact iff_of_true (fun pair member => absurd member List.not_mem_nil) (List.pairwise_singleton _ _)
      | cons next rest =>
          rw [List.tail_cons, List.zip_cons_cons, List.forall_mem_cons, List.pairwise_cons]
          obtain ⟨after, _⟩ := List.pairwise_cons.mp behind
          constructor
          · intro ⟨first, others⟩
            refine ⟨fun other member => ?_, (ih behind).mp others⟩
            rcases List.mem_cons.mp member with rfl | member
            · exact first
            · exact Nat.le_trans first (after other member)
          · intro ⟨first, others⟩
            exact ⟨first next List.mem_cons_self, (ih behind).mpr others⟩

def sweep : Nat → List Range → Bool
  | _, [] => false
  | far, range :: rest => decide (range.1 < far) || sweep (max far range.2) rest

theorem sweep_false : ∀ far, sweep far ranges = false ↔ (∀ range ∈ ranges, far ≤ range.1) ∧ ranges.Pairwise Follows := by
  induction ranges with
  | nil => exact fun far => iff_of_true rfl ⟨List.forall_mem_nil _, List.Pairwise.nil⟩
  | cons range rest ih =>
      intro far
      rw [sweep, Bool.or_eq_false_iff, ih, decide_eq_false_iff_not, Nat.not_lt, List.forall_mem_cons, List.pairwise_cons]
      constructor
      · intro ⟨above, later, follows⟩
        exact ⟨⟨above, fun other member => Nat.le_trans (Nat.le_max_left _ _) (later other member)⟩,
          fun other member => Nat.le_trans (Nat.le_max_right _ _) (later other member), follows⟩
      · intro ⟨⟨above, later⟩, first, follows⟩
        exact ⟨above, fun other member => Nat.max_le.mpr ⟨later other member, first other member⟩, follows⟩

def Crosses (ranges : List Range) : Prop := ¬ ranges.Pairwise Apart

theorem crosses_perm (others : List Range) (same : ranges.Perm others) : Crosses ranges ↔ Crosses others :=
  not_congr (same.pairwise_iff (fun apart => apart_symmetric _ _ apart))

end Filefacts.Crossing
