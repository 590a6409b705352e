import Mathlib.Data.List.Induction
import Mathlib.Algebra.Order.Ring.Nat

set_option autoImplicit false

-- One word written over a list at several positions.
namespace Filefacts.Patch

variable {α : Type}

def overwrite (word list : List α) (position : Nat) : List α :=
  list.take position ++ word ++ list.drop (position + word.length)

def overwriteAll (word : List α) (positions : List Nat) (list : List α) : List α := positions.foldl (overwrite word) list

def Stands (word list : List α) (position : Nat) : Prop := ∀ offset, offset < word.length → list[position + offset]? = word[offset]?

def Fits (word list : List α) (position : Nat) : Prop := position + word.length ≤ list.length

def Apart (word : List α) (one other : Nat) : Prop := one + word.length ≤ other ∨ other + word.length ≤ one

-- No proper end of the word is also its beginning.
def Unbordered (word : List α) : Prop :=
  ∀ shift, 0 < shift → shift < word.length → ∃ offset, shift + offset < word.length ∧ word[shift + offset]? ≠ word[offset]?

variable (word : List α)

theorem overwrite_length {list : List α} {position : Nat} (fits : Fits word list position) :
    (overwrite word list position).length = list.length := by
  rw [Fits] at fits
  simp only [overwrite, List.length_append, List.length_take, List.length_drop]
  omega

theorem overwrite_inside (list : List α) (position offset : Nat) (fits : Fits word list position) (inside : offset < word.length) :
    (overwrite word list position)[position + offset]? = word[offset]? := by
  rw [Fits] at fits
  have front : (list.take position).length = position := by
    rw [List.length_take]
    omega
  rw [overwrite, List.append_assoc, List.getElem?_append_right (by omega), front, Nat.add_sub_cancel_left,
    List.getElem?_append_left inside]

theorem overwrite_outside {list : List α} {position index : Nat} (fits : Fits word list position)
    (outside : index < position ∨ position + word.length ≤ index) : (overwrite word list position)[index]? = list[index]? := by
  rw [Fits] at fits
  have front : (list.take position).length = position := by
    rw [List.length_take]
    omega
  rw [overwrite, List.append_assoc]
  rcases outside with before | after
  · rw [List.getElem?_append_left (by omega), List.getElem?_take_of_lt before]
  · rw [List.getElem?_append_right (by omega), front, List.getElem?_append_right (by omega), List.getElem?_drop]
    congr 1
    omega

section All

variable (list : List α) (positions : List Nat) (fits : ∀ position ∈ positions, Fits word list position)

include fits

theorem overwrite_all_length : (overwriteAll word positions list).length = list.length := by
  induction positions generalizing list with
  | nil => rfl
  | cons first rest hypothesis =>
      have length := overwrite_length word (fits first List.mem_cons_self)
      rw [overwriteAll, List.foldl_cons]
      refine (hypothesis (overwrite word list first) fun position member => ?_).trans length
      rw [Fits, length]
      exact fits position (List.mem_cons_of_mem _ member)

theorem overwrite_all_outside (index : Nat)
    (outside : ∀ position ∈ positions, index < position ∨ position + word.length ≤ index) :
    (overwriteAll word positions list)[index]? = list[index]? := by
  induction positions generalizing list with
  | nil => rfl
  | cons first rest hypothesis =>
      have fitsFirst := fits first List.mem_cons_self
      rw [overwriteAll, List.foldl_cons]
      refine (hypothesis (overwrite word list first) (fun position member => ?_) fun position member =>
        outside position (List.mem_cons_of_mem _ member)).trans
          (overwrite_outside word fitsFirst (outside first List.mem_cons_self))
      rw [Fits, overwrite_length word fitsFirst]
      exact fits position (List.mem_cons_of_mem _ member)

theorem overwrite_all_stands (position : Nat) (written : position ∈ positions)
    (apart : ∀ other ∈ positions, other = position ∨ Apart word other position) :
    Stands word (overwriteAll word positions list) position := by
  induction positions using List.reverseRecOn with
  | nil => cases written
  | append_singleton rest last hypothesis =>
      have fitsRest : ∀ other ∈ rest, Fits word list other := fun other member => fits other (List.mem_append_left _ member)
      have fitsLast := fits last (List.mem_append_right _ (List.mem_singleton_self last))
      have length := overwrite_all_length word list rest fitsRest
      have fitsNow : Fits word (overwriteAll word rest list) last := by
        rw [Fits, length]
        exact fitsLast
      have split : overwriteAll word (rest ++ [last]) list = overwrite word (overwriteAll word rest list) last := by
        rw [overwriteAll, List.foldl_append]
        rfl
      intro offset inside
      rw [split]
      by_cases same : last = position
      · rw [← same]
        exact overwrite_inside word _ last offset fitsNow inside
      · have before : position ∈ rest := by
          rcases List.mem_append.mp written with early | late
          · exact early
          · exact absurd (List.mem_singleton.mp late).symm same
        have away := (apart last (List.mem_append_right _ (List.mem_singleton_self last))).resolve_left same
        rw [Apart] at away
        rw [overwrite_outside word fitsNow (by omega)]
        exact hypothesis fitsRest before (fun other member => apart other (List.mem_append_left _ member)) offset inside

end All

theorem apart_of_stands (unbordered : Unbordered word) (list : List α) (one other : Nat) (first : Stands word list one)
    (second : Stands word list other) : one = other ∨ Apart word one other := by
  have later : ∀ low high, Stands word list low → Stands word list high → low < high → low + word.length ≤ high := by
    intro low high front back less
    by_contra near
    obtain ⟨offset, inside, differs⟩ := unbordered (high - low) (by omega) (by omega)
    have shifted := front (high - low + offset) inside
    have again := back offset (by omega)
    rw [show low + (high - low + offset) = high + offset by omega, again] at shifted
    exact differs shifted.symm
  rcases Nat.lt_trichotomy one other with less | same | more
  · exact .inr (.inl (later one other first second less))
  · exact .inl same
  · exact .inr (.inr (later other one second first more))

theorem stands_iff_apart (unbordered : Unbordered word) {list : List α} {positions marks : List Nat}
    (fits : ∀ position ∈ positions, Fits word list position) (marked : positions ⊆ marks)
    (others : ∀ mark ∈ marks, mark ∈ positions ∨ Stands word list mark) :
    (∀ mark ∈ marks, Stands word (overwriteAll word positions list) mark) ↔
      ∀ position ∈ positions, ∀ mark ∈ marks, position = mark ∨ Apart word position mark := by
  constructor
  · intro all position written mark member
    exact apart_of_stands word unbordered _ position mark (all position (marked written)) (all mark member)
  · intro apart mark member
    by_cases written : mark ∈ positions
    · exact overwrite_all_stands word list positions fits mark written fun other inside => apart other inside mark member
    · have stands := (others mark member).resolve_left written
      intro offset inside
      rw [overwrite_all_outside word list positions fits (mark + offset) fun position inPositions => ?_]
      · exact stands offset inside
      · rcases apart position inPositions mark member with same | away
        · exact absurd (same ▸ inPositions) written
        · rw [Apart] at away
          omega

end Filefacts.Patch
