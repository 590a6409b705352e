import Mathlib.Data.List.MinMax
import Mathlib.Data.List.Sort
import Mathlib.Data.List.TakeWhile

set_option autoImplicit false

-- Items in the order of a rank, searched from a lower bound on.
namespace Filefacts.Ranked

universe u

variable {Item : Type u} (rank : Item → Nat)

def partitionPoint (below : Item → Bool) (items : List Item) : Nat := (items.takeWhile below).length

def sortByKey (items : List Item) : List Item := items.insertionSort fun left right => rank left ≤ rank right

-- An interval of ranks: it has no gap above its lower bound.
structure StartsAt (keep : Nat → Bool) (start : Nat) : Prop where
  above : ∀ n, keep n = true → start ≤ n
  filled : ∀ n m, keep n = true → start ≤ m → m ≤ n → keep m = true

theorem get_partition_point (below : Item → Bool) (items : List Item) :
    items[partitionPoint below items]? = items.find? fun item => !below item := by
  induction items with
  | nil => rfl
  | cons item rest ih =>
      unfold partitionPoint at ih ⊢
      cases passed : below item with
      | true => simpa [List.takeWhile_cons, List.find?_cons, passed] using ih
      | false => simp [passed]

theorem sort_by_key_sorted (items : List Item) :
    (sortByKey rank items).Pairwise fun left right => rank left ≤ rank right :=
  List.pairwise_insertionSort (fun left right => rank left ≤ rank right) items

theorem mem_sort_by_key (items : List Item) (item : Item) : item ∈ sortByKey rank items ↔ item ∈ items :=
  List.mem_insertionSort _

variable (keep : Nat → Bool) (start : Nat)

theorem first_past_bound (starts : StartsAt keep start) (items : List Item)
    (sorted : items.Pairwise fun left right => rank left ≤ rank right) :
    (items.find? fun item => !decide (rank item < start)).filter (fun item => keep (rank item)) =
      items.find? fun item => keep (rank item) := by
  induction items with
  | nil => rfl
  | cons item rest ih =>
      rw [List.pairwise_cons] at sorted
      obtain ⟨least, sorted⟩ := sorted
      by_cases early : rank item < start
      · have out : keep (rank item) = false := by
          by_contra kept
          have := starts.above (rank item) (by simpa using kept)
          omega
        simpa [List.find?_cons, early, out] using ih sorted
      · cases kept : keep (rank item) with
        | true => simp [early, kept]
        | false =>
            have none_kept : rest.find? (fun other => keep (rank other)) = none := by
              rw [List.find?_eq_none]
              intro other member keeps
              have inside := starts.filled (rank other) (rank item) keeps (Nat.le_of_not_lt early) (least other member)
              rw [inside] at kept
              cases kept
            simp [early, kept, none_kept]

def earlier (item : Item) : Option Item → Option Item
  | none => some item
  | some other => if rank other < rank item then some other else some item

theorem find_ordered_insert (keep : Item → Bool) (item : Item) {items : List Item}
    (sorted : items.Pairwise fun left right => rank left ≤ rank right) :
    (items.orderedInsert (fun left right => rank left ≤ rank right) item).find? keep =
      if keep item then earlier rank item (items.find? keep) else items.find? keep := by
  induction items with
  | nil =>
      cases kept : keep item with
      | true => simp [kept, earlier]
      | false => simp [kept]
  | cons head rest ih =>
      rw [List.pairwise_cons] at sorted
      obtain ⟨least, sorted⟩ := sorted
      rw [List.orderedInsert_cons]
      by_cases before : rank item ≤ rank head
      · rw [if_pos before, List.find?_cons]
        cases kept : keep item with
        | false => rfl
        | true =>
            have later : ∀ other, (head :: rest).find? keep = some other → rank item ≤ rank other := by
              intro other chosen
              rcases List.mem_cons.mp (List.mem_of_find?_eq_some chosen) with rfl | member
              · exact before
              · exact before.trans (least other member)
            cases chosen : (head :: rest).find? keep with
            | none => rfl
            | some other => rw [if_pos rfl, earlier, if_neg (Nat.not_lt_of_le (later other chosen))]
      · rw [if_neg before, List.find?_cons, List.find?_cons]
        cases kept : keep head with
        | false => exact ih sorted
        | true => rw [earlier, if_pos (Nat.lt_of_not_le before), ite_self]

def lowest (keep : Item → Bool) (items : List Item) : Option Item := (items.filter keep).argmin rank

theorem lowest_cons (keep : Item → Bool) (item : Item) (items : List Item) :
    lowest rank keep (item :: items) = if keep item then earlier rank item (lowest rank keep items) else lowest rank keep items := by
  unfold lowest
  rw [List.filter_cons]
  split
  · rw [List.argmin_cons]
    cases (items.filter keep).argmin rank with
    | none => rfl
    | some other => rfl
  · rfl

theorem find_sort_by_key (keep : Item → Bool) (items : List Item) :
    (sortByKey rank items).find? keep = lowest rank keep items := by
  induction items with
  | nil => rfl
  | cons item rest ih =>
      rw [lowest_cons, ← ih]
      exact find_ordered_insert rank keep item (sort_by_key_sorted rank rest)

theorem probe_lowest (starts : StartsAt keep start) (items : List Item) :
    ((sortByKey rank items)[partitionPoint (fun item => rank item < start) (sortByKey rank items)]?).filter
        (fun item => keep (rank item)) = lowest rank (fun item => keep (rank item)) items := by
  rw [get_partition_point, first_past_bound rank keep start starts _ (sort_by_key_sorted rank items), find_sort_by_key]

theorem probe_any (starts : StartsAt keep start) (items : List Item) :
    ((sortByKey rank items)[partitionPoint (fun item => rank item < start) (sortByKey rank items)]?).any
        (fun item => keep (rank item)) = items.any fun item => keep (rank item) := by
  have probed := probe_lowest rank keep start starts items
  rw [← find_sort_by_key] at probed
  rw [← Option.isSome_filter, probed, Bool.eq_iff_iff, List.find?_isSome, List.any_eq_true]
  simp only [mem_sort_by_key]

end Filefacts.Ranked
