import Mathlib.Algebra.GroupWithZero.Nat
import Mathlib.Order.Interval.Finset.Nat

set_option autoImplicit false

namespace Filefacts.Covered

def covered : List (Nat × Nat) → Finset Nat
  | [] => ∅
  | extent :: rest => Finset.Ico extent.1 extent.2 ∪ covered rest

def total (extents : List (Nat × Nat)) : Nat := (extents.map fun extent => extent.2 - extent.1).sum

variable (extents : List (Nat × Nat))

theorem mem_covered (i : Nat) : i ∈ covered extents ↔ ∃ extent ∈ extents, extent.1 ≤ i ∧ i < extent.2 := by
  induction extents with
  | nil => simp [covered]
  | cons extent rest ih => simp [covered, ih]

theorem covered_append (before after : List (Nat × Nat)) : covered (before ++ after) = covered before ∪ covered after := by
  induction before with
  | nil => exact (Finset.empty_union _).symm
  | cons extent rest ih => rw [List.cons_append, covered, covered, ih, Finset.union_assoc]

theorem covered_snoc (start stop : Nat) : covered (extents ++ [(start, stop)]) = covered extents ∪ Finset.Ico start stop := by
  rw [covered_append, covered, covered, Finset.union_empty]

theorem total_snoc (start stop : Nat) : total (extents ++ [(start, stop)]) = total extents + (stop - start) := by
  simp [total]

theorem card_covered (ordered : extents.Pairwise fun earlier later => earlier.2 ≤ later.1) :
    (covered extents).card = total extents := by
  induction extents with
  | nil => rfl
  | cons extent rest ih =>
      obtain ⟨first, others⟩ := List.pairwise_cons.mp ordered
      have apart : Disjoint (Finset.Ico extent.1 extent.2) (covered rest) := by
        rw [Finset.disjoint_left]
        intro i inside later
        obtain ⟨other, listed, after, _⟩ := (mem_covered rest i).mp later
        have before := first other listed
        have under := (Finset.mem_Ico.mp inside).2
        omega
      rw [covered, Finset.card_union_of_disjoint apart, Nat.card_Ico, ih others]
      rfl

def merged : Nat → List (Nat × Nat) → Nat
  | _, [] => 0
  | far, extent :: rest => (extent.2 - max extent.1 far) + merged (max far extent.2) rest

theorem covered_from (extent : Nat × Nat) (rest : List (Nat × Nat)) (far : Nat) (sorted : ∀ other ∈ rest, extent.1 ≤ other.1) :
    (covered (extent :: rest)).filter (far ≤ ·) =
      Finset.Ico (max extent.1 far) extent.2 ∪ (covered rest).filter (max far extent.2 ≤ ·) := by
  have above : ∀ i ∈ covered rest, extent.1 ≤ i := by
    intro i member
    obtain ⟨other, listed, start, _⟩ := (mem_covered rest i).mp member
    exact (sorted other listed).trans start
  ext i
  rw [Finset.mem_filter, Finset.mem_union, Finset.mem_filter, covered, Finset.mem_union, Finset.mem_Ico, Finset.mem_Ico]
  by_cases member : i ∈ covered rest
  · have start := above i member
    simp only [member, or_true, true_and]
    omega
  · simp only [member, or_false, false_and]
    omega

theorem merged_card (sorted : extents.Pairwise fun one other => one.1 ≤ other.1) : ∀ far,
    merged far extents = ((covered extents).filter (far ≤ ·)).card := by
  induction extents with
  | nil => exact fun _ => rfl
  | cons extent rest ih =>
      intro far
      obtain ⟨first, others⟩ := List.pairwise_cons.mp sorted
      have apart : Disjoint (Finset.Ico (max extent.1 far) extent.2) ((covered rest).filter (max far extent.2 ≤ ·)) := by
        rw [Finset.disjoint_left]
        intro i inside later
        have under := (Finset.mem_Ico.mp inside).2
        have past := (Finset.mem_filter.mp later).2
        omega
      rw [covered_from extent rest far first, Finset.card_union_of_disjoint apart, Nat.card_Ico, merged, ih others]

theorem card_le_total : (covered extents).card ≤ total extents := by
  induction extents with
  | nil => exact Nat.le_refl 0
  | cons extent rest ih =>
      have union := Finset.card_union_le (Finset.Ico extent.1 extent.2) (covered rest)
      rw [Nat.card_Ico] at union
      have sum : total (extent :: rest) = extent.2 - extent.1 + total rest := rfl
      rw [covered]
      omega

end Filefacts.Covered
