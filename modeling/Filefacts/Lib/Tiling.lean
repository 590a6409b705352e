import Mathlib.Data.List.Basic
import Mathlib.Data.List.Range

set_option autoImplicit false

namespace Filefacts.Tiling

-- Ranges of positions, start included and stop not.
abbrev Range := Nat × Nat

def positions (range : Range) : List Nat := List.range' range.1 (range.2 - range.1)

-- Ranges in order that hold each wanted position from `low` to `high` once,
-- and no other.
structure Tiles (wanted : Nat → Bool) (low high : Nat) (ranges : List Range) : Prop where
  ordered : ranges.Pairwise fun earlier later => earlier.2 ≤ later.1
  inside : ∀ range ∈ ranges, low ≤ range.1 ∧ range.1 ≤ range.2 ∧ range.2 ≤ high
  covers : ranges.flatMap positions = (positions (low, high)).filter wanted

variable {low middle high : Nat}

theorem positions_split (lower : low ≤ middle) (upper : middle ≤ high) :
    positions (low, high) = positions (low, middle) ++ positions (middle, high) := by
  have whole := @List.range'_append low (middle - low) (high - middle) 1
  simp only [positions]
  rw [show high - low = middle - low + (high - middle) by omega, ← whole]
  simp [show low + (middle - low) = middle by omega]

theorem mem_positions (range : Range) (position : Nat) : position ∈ positions range ↔ range.1 ≤ position ∧ position < range.2 := by
  simp only [positions, List.mem_range'_1]
  omega

variable (wanted : Nat → Bool)

theorem tiles_append {front back : List Range} (first : Tiles wanted low middle front)
    (second : Tiles wanted middle high back) (lower : low ≤ middle) (upper : middle ≤ high) :
    Tiles wanted low high (front ++ back) := by
  refine ⟨List.pairwise_append.mpr ⟨first.ordered, second.ordered, ?_⟩, ?_, ?_⟩
  · intro earlier memberFront later memberBack
    have before := first.inside earlier memberFront
    have after := second.inside later memberBack
    omega
  · intro range member
    rcases List.mem_append.mp member with earlier | later
    · have bounds := first.inside range earlier
      omega
    · have bounds := second.inside range later
      omega
  · rw [List.flatMap_append, first.covers, second.covers, positions_split lower upper, List.filter_append]

theorem tiles_range (bounds : low ≤ high)
    (all : ∀ position, low ≤ position → position < high → wanted position = true) : Tiles wanted low high [(low, high)] := by
  refine ⟨List.pairwise_singleton _ _, by simpa using bounds, ?_⟩
  rw [List.flatMap_singleton, List.filter_eq_self.mpr]
  intro position member
  obtain ⟨above, below⟩ := (mem_positions _ _).mp member
  exact all position above below

theorem tiles_hole (low high : Nat)
    (none : ∀ position, low ≤ position → position < high → wanted position = false) : Tiles wanted low high [] := by
  refine ⟨List.Pairwise.nil, by simp, ?_⟩
  rw [List.flatMap_nil, eq_comm, List.filter_eq_nil_iff]
  intro position member
  obtain ⟨above, below⟩ := (mem_positions _ _).mp member
  simp [none position above below]

theorem tiles_beyond {point : Nat} {ranges : List Range} (tiles : Tiles wanted low high ranges)
    (lower : low ≤ point) (upper : point ≤ high) (all : ∀ position, point ≤ position → wanted position = true) :
    ((ranges.flatMap positions).filter fun position => decide (point ≤ position)).length = high - point := by
  have before : (positions (low, point)).filter (fun position => decide (point ≤ position) && wanted position) = [] := by
    rw [List.filter_eq_nil_iff]
    intro position member
    have below := ((mem_positions _ _).mp member).2
    simp only [Bool.and_eq_true, decide_eq_true_eq, not_and]
    omega
  have after : (positions (point, high)).filter (fun position => decide (point ≤ position) && wanted position) = positions (point, high) := by
    rw [List.filter_eq_self]
    intro position member
    have above := ((mem_positions _ _).mp member).1
    simp [above, all position above]
  rw [tiles.covers, positions_split lower upper, List.filter_filter, List.filter_append, before, after]
  simp [positions]

end Filefacts.Tiling
