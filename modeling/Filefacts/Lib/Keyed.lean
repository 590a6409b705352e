import Mathlib.Order.Defs.LinearOrder
import Mathlib.Data.List.Basic
import Mathlib.Algebra.Order.Ring.Nat

set_option autoImplicit false

namespace Filefacts.Keyed

universe u v

variable {Key : Type u} {Value : Type v} [LinearOrder Key]

-- A map as the list of its entries in the order of their keys.
def Sorted (entries : List (Key × Value)) : Prop := (entries.map Prod.fst).Pairwise (· < ·)

def put (key : Key) (value : Value) : List (Key × Value) → List (Key × Value)
  | [] => [(key, value)]
  | (other, old) :: rest =>
      if key < other then (key, value) :: (other, old) :: rest
      else if key = other then (key, value) :: rest
      else (other, old) :: put key value rest

def find (key : Key) : List (Key × Value) → Option Value
  | [] => none
  | (other, value) :: rest => if key = other then some value else find key rest

variable (key : Key) (value : Value) (other : Key) (entries : List (Key × Value))

theorem put_nil : put key value [] = [(key, value)] := rfl

theorem put_before (value old : Value) (rest : List (Key × Value)) (before : key < other) :
    put key value ((other, old) :: rest) = (key, value) :: (other, old) :: rest := by
  rw [put, if_pos before]

theorem put_same (old : Value) (rest : List (Key × Value)) : put key value ((key, old) :: rest) = (key, value) :: rest := by
  rw [put, if_neg (lt_irrefl key), if_pos rfl]

theorem put_after (value old : Value) (rest : List (Key × Value)) (after : other < key) :
    put key value ((other, old) :: rest) = (other, old) :: put key value rest := by
  rw [put, if_neg (not_lt_of_gt after), if_neg (ne_of_gt after)]

theorem find_head (rest : List (Key × Value)) : find key ((key, value) :: rest) = some value := by
  rw [find, if_pos rfl]

theorem find_tail (value : Value) (rest : List (Key × Value)) (apart : key ≠ other) :
    find key ((other, value) :: rest) = find key rest := by
  rw [find, if_neg apart]

theorem find_put_same : find key (put key value entries) = some value := by
  induction entries with
  | nil => exact find_head key value []
  | cons entry rest ih =>
      obtain ⟨other, old⟩ := entry
      rcases lt_trichotomy key other with before | rfl | after
      · rw [put_before key other value old rest before, find_head]
      · rw [put_same, find_head]
      · rw [put_after key other value old rest after, find_tail key other old _ (ne_of_gt after), ih]

theorem find_put_other {query : Key} (value : Value) (entries : List (Key × Value)) (apart : query ≠ key) :
    find query (put key value entries) = find query entries := by
  induction entries with
  | nil => exact find_tail query key value [] apart
  | cons entry rest ih =>
      obtain ⟨other, old⟩ := entry
      rcases lt_trichotomy key other with before | rfl | after
      · rw [put_before key other value old rest before, find_tail query key value _ apart]
      · rw [put_same, find_tail query key value rest apart, find_tail query key old rest apart]
      · rw [put_after key other value old rest after, find, find, ih]

theorem put_put (first second : Value) (entries : List (Key × Value)) :
    put key second (put key first entries) = put key second entries := by
  induction entries with
  | nil => rw [put_nil, put_same, put_nil]
  | cons entry rest ih =>
      obtain ⟨other, old⟩ := entry
      rcases lt_trichotomy key other with before | rfl | after
      · rw [put_before key other first old rest before, put_same, put_before key other second old rest before]
      · rw [put_same, put_same, put_same]
      · rw [put_after key other first old rest after, put_after key other second old _ after, ih,
          put_after key other second old rest after]

theorem put_comm_lt (low high : Key) (lower higher : Value) (entries : List (Key × Value)) (ordered : low < high) :
    put low lower (put high higher entries) = put high higher (put low lower entries) := by
  induction entries with
  | nil => rw [put_nil, put_nil, put_before low high lower higher [] ordered, put_after high low higher lower [] ordered, put_nil]
  | cons entry rest ih =>
      obtain ⟨other, old⟩ := entry
      rcases lt_trichotomy low other with before | rfl | after
      · rw [put_before low other lower old rest before, put_after high low higher lower _ ordered]
        rcases lt_trichotomy high other with wide | rfl | past
        · rw [put_before high other higher old rest wide, put_before low high lower higher _ ordered]
        · rw [put_same, put_before low high lower higher _ ordered]
        · rw [put_after high other higher old rest past, put_before low other lower old _ before]
      · rw [put_after high low higher old rest ordered, put_same, put_same, put_after high low higher lower rest ordered]
      · have past := lt_trans after ordered
        rw [put_after high other higher old rest past, put_after low other lower old _ after,
          put_after low other lower old rest after, put_after high other higher old _ past, ih]

theorem put_comm (a b : Key) (x y : Value) (entries : List (Key × Value)) (apart : a ≠ b) :
    put a x (put b y entries) = put b y (put a x entries) := by
  rcases lt_or_gt_of_ne apart with before | after
  · exact put_comm_lt a b x y entries before
  · exact (put_comm_lt b a y x entries after).symm

theorem mem_put (entry : Key × Value) (member : entry ∈ put key value entries) : entry = (key, value) ∨ entry ∈ entries := by
  induction entries with
  | nil => exact Or.inl (List.mem_singleton.mp member)
  | cons head rest ih =>
      obtain ⟨other, old⟩ := head
      rw [put] at member
      split_ifs at member
      · exact List.mem_cons.mp member
      · exact (List.mem_cons.mp member).imp_right (List.mem_cons_of_mem _)
      · rcases List.mem_cons.mp member with head | tail
        · exact Or.inr (List.mem_cons.mpr (Or.inl head))
        · exact (ih tail).imp_right (List.mem_cons_of_mem _)

theorem find_mem (found : find key entries = some value) : (key, value) ∈ entries := by
  induction entries with
  | nil => cases found
  | cons entry rest ih =>
      obtain ⟨other, old⟩ := entry
      rw [find] at found
      by_cases same : key = other
      · rw [if_pos same] at found
        rw [same, Option.some.inj found]
        exact List.mem_cons_self
      · rw [if_neg same] at found
        exact List.mem_cons_of_mem _ (ih found)

theorem put_sorted (sorted : Sorted entries) : Sorted (put key value entries) := by
  induction entries with
  | nil => exact List.pairwise_singleton _ _
  | cons entry rest ih =>
      obtain ⟨other, old⟩ := entry
      have parts := List.pairwise_cons.mp sorted
      rw [put]
      split_ifs with before same
      · refine List.pairwise_cons.mpr ⟨fun name listed => ?_, sorted⟩
        rcases List.mem_cons.mp listed with rfl | later
        · exact before
        · exact lt_trans before (parts.1 name later)
      · exact same ▸ sorted
      · refine List.pairwise_cons.mpr ⟨fun name listed => ?_, ih parts.2⟩
        obtain ⟨found, member, rfl⟩ := List.mem_map.mp listed
        rcases mem_put key value rest found member with rfl | older
        · exact lt_of_le_of_ne (not_lt.mp before) (Ne.symm same)
        · exact parts.1 _ (List.mem_map.mpr ⟨found, older, rfl⟩)

def erase (key : Key) (entries : List (Key × Value)) : List (Key × Value) :=
  entries.filter fun entry => ¬entry.1 = key

theorem find_erase_same : find key (erase key entries) = none := by
  induction entries with
  | nil => rfl
  | cons entry rest ih =>
      obtain ⟨other, old⟩ := entry
      by_cases same : other = key
      · rw [erase, List.filter_cons_of_neg (by simp [same])]
        exact ih
      · rw [erase, List.filter_cons_of_pos (by simp [same]), find_tail key other old _ (Ne.symm same)]
        exact ih

theorem find_erase_other (query : Key) (entries : List (Key × Value)) (apart : query ≠ key) :
    find query (erase key entries) = find query entries := by
  induction entries with
  | nil => rfl
  | cons entry rest ih =>
      obtain ⟨other, old⟩ := entry
      by_cases same : other = key
      · rw [erase, List.filter_cons_of_neg (by simp [same]), find_tail query other old rest (same ▸ apart)]
        exact ih
      · rw [erase, List.filter_cons_of_pos (by simp [same]), find, find]
        rw [erase] at ih
        rw [ih]

theorem erase_sorted (sorted : Sorted entries) : Sorted (erase key entries) :=
  sorted.sublist (List.filter_sublist.map Prod.fst)

theorem find_listed (found : find key entries = some value) : key ∈ entries.map Prod.fst :=
  List.mem_map.mpr ⟨(key, value), find_mem key value entries found, rfl⟩

variable (Key Value) in
structure Map where
  entries : List (Key × Value)
  sorted : Sorted entries

namespace Map

def empty : Map Key Value := ⟨[], List.Pairwise.nil⟩

def get (map : Map Key Value) (key : Key) : Option Value := find key map.entries

def insert (map : Map Key Value) (key : Key) (value : Value) : Map Key Value :=
  ⟨put key value map.entries, put_sorted key value map.entries map.sorted⟩

def remove (map : Map Key Value) (key : Key) : Map Key Value :=
  ⟨erase key map.entries, erase_sorted key map.entries map.sorted⟩

def keys (map : Map Key Value) : List Key := map.entries.map Prod.fst

variable (map : Map Key Value) (key : Key) (value : Value) (query : Key)

theorem get_insert_same : (map.insert key value).get key = some value :=
  find_put_same key value map.entries

theorem get_insert_other (value : Value) (apart : query ≠ key) : (map.insert key value).get query = map.get query :=
  find_put_other key value map.entries apart

theorem get_remove_same : (map.remove key).get key = none :=
  find_erase_same key map.entries

theorem get_remove_other (apart : query ≠ key) : (map.remove key).get query = map.get query :=
  find_erase_other key query map.entries apart

-- `entry(key).or_insert(value)`.
def orInsert (map : Map Key Value) (key : Key) (value : Value) : Map Key Value :=
  if (map.get key).isSome then map else map.insert key value

theorem get_or_insert_same : (map.orInsert key value).get key = (map.get key).or (some value) := by
  rw [orInsert]
  cases found : map.get key with
  | none =>
      rw [Option.isSome_none, if_neg Bool.false_ne_true, get_insert_same]
      rfl
  | some old =>
      rw [Option.isSome_some, if_pos rfl, found]
      rfl

theorem get_or_insert_other (value : Value) (apart : query ≠ key) : (map.orInsert key value).get query = map.get query := by
  rw [orInsert]
  split_ifs
  · rfl
  · exact get_insert_other map key query value apart

theorem get_listed (found : map.get key = some value) : key ∈ map.keys :=
  find_listed key value map.entries found

end Map

end Filefacts.Keyed
