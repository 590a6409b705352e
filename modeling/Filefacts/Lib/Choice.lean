import Mathlib.Data.List.Sort
import Mathlib.Data.List.Perm.Lattice
import Mathlib.Algebra.Order.Ring.Nat

set_option autoImplicit false

-- What is picked from a list, and what the pick owes to the order of the list.
namespace Filefacts.Choice

variable {α β : Type}

theorem find_perm (test : α → Bool) (first second : List α) (perm : first.Perm second)
    (single : ∀ one ∈ first, ∀ other ∈ first, test one = true → test other = true → one = other) :
    first.find? test = second.find? test := by
  cases found : second.find? test with
  | none =>
      rw [List.find?_eq_none] at found ⊢
      exact fun entry member => found entry (perm.mem_iff.mp member)
  | some entry =>
      have member := perm.mem_iff.mpr (List.mem_of_find?_eq_some found)
      have matched := List.find?_some found
      cases other : first.find? test with
      | none => exact absurd matched (List.find?_eq_none.mp other entry member)
      | some pick =>
          rw [single pick (List.mem_of_find?_eq_some other) entry member (List.find?_some other) matched]

section Largest

variable (key : α → Nat)

def maxByKey : List α → Option α
  | [] => none
  | entry :: rest =>
      match maxByKey rest with
      | none => some entry
      | some best => if key best < key entry then some entry else some best

structure Tops (list : List α) (entry : α) : Prop where
  mem : entry ∈ list
  above : ∀ other ∈ list, key other ≤ key entry

variable (list first second : List α)

theorem max_by_key_none (none_ : maxByKey key list = none) : list = [] := by
  cases list with
  | nil => rfl
  | cons entry rest =>
      rw [maxByKey] at none_
      cases best : maxByKey key rest with
      | none =>
          rw [best] at none_
          cases none_
      | some top =>
          rw [best] at none_
          dsimp only at none_
          split at none_ <;> cases none_

theorem max_by_key_tops : ∀ best, maxByKey key list = some best → Tops key list best := by
  induction list with
  | nil =>
      intro best picked
      cases picked
  | cons entry rest hypothesis =>
      intro best picked
      rw [maxByKey] at picked
      cases other : maxByKey key rest with
      | none =>
          rw [other] at picked
          cases picked
          rw [max_by_key_none key rest other]
          refine ⟨List.mem_singleton_self _, fun other member => ?_⟩
          rw [List.mem_singleton.mp member]
      | some top =>
          have tops := hypothesis top other
          rw [other] at picked
          by_cases more : key top < key entry
          · simp only [if_pos more] at picked
            cases picked
            refine ⟨List.mem_cons_self, fun other member => ?_⟩
            rcases List.mem_cons.mp member with rfl | inside
            · exact Nat.le_refl _
            · exact Nat.le_trans (tops.above other inside) (Nat.le_of_lt more)
          · simp only [if_neg more] at picked
            cases picked
            refine ⟨List.mem_cons_of_mem _ tops.mem, fun other member => ?_⟩
            rcases List.mem_cons.mp member with rfl | inside
            · exact Nat.le_of_not_lt more
            · exact tops.above other inside

theorem tops_perm (perm : first.Perm second) (entry : α) (tops : Tops key first entry) : Tops key second entry :=
  ⟨perm.mem_iff.mp tops.mem, fun other member => tops.above other (perm.mem_iff.mpr member)⟩

theorem max_by_key_perm (perm : first.Perm second)
    (single : ∀ one other, Tops key first one → Tops key first other → one = other) :
    maxByKey key first = maxByKey key second := by
  cases left : maxByKey key first with
  | none =>
      have empty := max_by_key_none key first left
      rw [empty] at perm
      rw [← perm.nil_eq, maxByKey]
  | some one =>
      cases right : maxByKey key second with
      | none =>
          have empty := max_by_key_none key second right
          rw [empty] at perm
          rw [perm.eq_nil, maxByKey] at left
          cases left
      | some other =>
          rw [single one other (max_by_key_tops key first one left)
            (tops_perm key second first perm.symm other (max_by_key_tops key second other right))]

theorem max_by_key_last (rest : List α) (entry : α) (above : ∀ other ∈ rest, key other ≤ key entry) :
    maxByKey key (rest ++ [entry]) = some entry := by
  induction rest with
  | nil => rfl
  | cons head rest hypothesis =>
      rw [List.cons_append, maxByKey, hypothesis fun other member => above other (List.mem_cons_of_mem _ member)]
      exact if_neg (Nat.not_lt_of_le (above head List.mem_cons_self))

def sortByKey (list : List α) : List α := list.insertionSort fun first second => key first ≤ key second

theorem sort_by_key_perm : (sortByKey key list).Perm list := List.perm_insertionSort _ list

theorem sort_by_key_last {list : List α} {last : α} (ends : (sortByKey key list).getLast? = some last) :
    Tops key list last := by
  have sorted : (sortByKey key list).Pairwise fun first second => key first ≤ key second := List.pairwise_insertionSort _ list
  obtain ⟨init, split⟩ := List.getLast?_eq_some_iff.mp ends
  rw [split] at sorted
  have perm := sort_by_key_perm key list
  rw [split] at perm
  refine ⟨perm.mem_iff.mp (by simp), fun other member => ?_⟩
  rcases List.mem_append.mp (perm.mem_iff.mpr member) with inside | same
  · exact (List.pairwise_append.mp sorted).2.2 other inside last (List.mem_singleton_self _)
  · rw [List.mem_singleton.mp same]

end Largest

section Agreement

variable [BEq β] [LawfulBEq β] (value : α → β)

theorem disagree_perm {first second : List α} (perm : first.Perm second) {one other : α} (left : one ∈ first)
    (right : other ∈ second) :
    (first.any fun entry => value entry != value one) = second.any fun entry => value entry != value other := by
  rw [Bool.eq_iff_iff, List.any_eq_true, List.any_eq_true]
  constructor
  · intro differs
    obtain ⟨entry, member, apart⟩ := differs
    by_cases same : value one = value other
    · exact ⟨entry, perm.mem_iff.mp member, by rw [← same]; exact apart⟩
    · exact ⟨one, perm.mem_iff.mp left, bne_iff_ne.mpr same⟩
  · intro differs
    obtain ⟨entry, member, apart⟩ := differs
    by_cases same : value one = value other
    · exact ⟨entry, perm.mem_iff.mpr member, by rw [same]; exact apart⟩
    · exact ⟨other, perm.mem_iff.mpr right, bne_iff_ne.mpr (Ne.symm same)⟩

theorem agree_of_any (list : List α) (one entry : α) (agree : (list.any fun entry => value entry != value one) = false)
    (member : entry ∈ list) : value entry = value one := by
  have same := List.any_eq_false.mp agree entry member
  by_contra apart
  exact same (bne_iff_ne.mpr apart)

end Agreement

end Filefacts.Choice
