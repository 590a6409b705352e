import Mathlib.Data.List.Sort
import Mathlib.Data.List.Perm.Subperm
import Mathlib.Algebra.Order.Ring.Nat

set_option autoImplicit false

-- The few largest entries of a list.
namespace Filefacts.Largest

variable {α : Type} (key : α → Nat)

def byKey (list : List α) : List α := list.insertionSort fun first second => key second ≤ key first

def largest (count : Nat) (list : List α) : List α := (byKey key list).take count

theorem mem_by_key (list : List α) (entry : α) : entry ∈ byKey key list ↔ entry ∈ list := List.mem_insertionSort _

theorem by_key_sorted (list : List α) : (byKey key list).Pairwise fun first second => key second ≤ key first := by
  exact List.pairwise_insertionSort _ list

variable {count : Nat} {list : List α}

theorem mem_of_largest {entry : α} (member : entry ∈ largest key count list) : entry ∈ list :=
  (mem_by_key key list entry).mp (List.mem_of_mem_take member)

theorem largest_nodup (count : Nat) (list : List α) (nodup : list.Nodup) : (largest key count list).Nodup :=
  ((List.perm_insertionSort _ list).nodup_iff.mpr nodup).sublist (List.take_sublist count _)

theorem largest_above {kept left : α} (front : kept ∈ largest key count list)
    (back : left ∈ (byKey key list).drop count) : key left ≤ key kept := by
  have sorted := by_key_sorted key list
  rw [← List.take_append_drop count (byKey key list)] at sorted
  exact (List.pairwise_append.mp sorted).2.2 kept front left back

theorem largest_or_full (count : Nat) (list : List α) (entry : α) (member : entry ∈ list) :
    entry ∈ largest key count list ∨
      (largest key count list).length = count ∧ ∀ kept ∈ largest key count list, key entry ≤ key kept := by
  have sorted := (mem_by_key key list entry).mpr member
  rw [← List.take_append_drop count (byKey key list)] at sorted
  rcases List.mem_append.mp sorted with front | back
  · exact Or.inl front
  · right
    have more : 0 < ((byKey key list).drop count).length := List.length_pos_of_mem back
    rw [List.length_drop] at more
    refine ⟨?_, fun kept front => largest_above key front back⟩
    rw [largest, List.length_take]
    omega

theorem largest_full {bound : Nat} {some_ : List α} (nodup : some_.Nodup) (enough : some_.length = count)
    (inside : ∀ entry ∈ some_, entry ∈ list ∧ bound ≤ key entry) :
    (largest key count list).length = count ∧ ∀ kept ∈ largest key count list, bound ≤ key kept := by
  have subset : some_ ⊆ byKey key list := fun entry member => (mem_by_key key list entry).mpr (inside entry member).1
  have room : count ≤ (byKey key list).length := by
    rw [← enough]
    exact (List.subperm_of_subset nodup subset).length_le
  refine ⟨by rw [largest, List.length_take, Nat.min_eq_left room], ?_⟩
  intro kept front
  by_contra small
  -- Were one of the largest below the bound, all of those entries would stand before it, and there is no room for that.
  have before : kept :: some_ ⊆ largest key count list := by
    intro entry member
    rcases List.mem_cons.mp member with rfl | member
    · exact front
    · have present := subset member
      rw [← List.take_append_drop count (byKey key list)] at present
      rcases List.mem_append.mp present with early | late
      · exact early
      · have above := largest_above key front late
        have large := (inside entry member).2
        omega
  have apart : kept ∉ some_ := fun member => small (inside kept member).2
  have length := (List.subperm_of_subset (List.nodup_cons.mpr ⟨apart, nodup⟩) before).length_le
  rw [List.length_cons, enough, largest, List.length_take] at length
  omega

end Filefacts.Largest
