import Mathlib.Algebra.Order.BigOperators.Group.Finset
import Mathlib.Algebra.Order.Ring.Nat

set_option autoImplicit false

namespace Filefacts.Traversal

-- Objects that refer to others, taken depth first and left to right. A shared object is taken at its first reference only,
-- any other at each of its references.
section Order

variable {Object : Type} (children : Object → List Object) (shared : Object → Bool)

-- The references still to come in the objects that are open, the innermost object first.
def opened (object : Object) (frames : List (List Object)) : List (List Object) :=
  if children object = [] then frames else children object :: frames

-- The rounds an object costs: one for each of its references, and one to close it if it has any.
def weight (object : Object) : Nat := (children object).length + if children object = [] then 0 else 1

def load (frames : List (List Object)) : Nat := frames.flatten.length + frames.length

variable (object : Object)

theorem opened_flatten (frames : List (List Object)) :
    (opened children object frames).flatten = children object ++ frames.flatten := by
  by_cases none_left : children object = []
  · rw [opened, if_pos none_left, none_left, List.nil_append]
  · rw [opened, if_neg none_left, List.flatten_cons]

theorem opened_load (frames : List (List Object)) :
    load (opened children object frames) = weight children object + load frames := by
  by_cases none_left : children object = []
  · simp [load, weight, opened, none_left]
  · simp only [load, weight, opened, if_neg none_left, List.flatten_cons, List.length_append, List.length_cons]
    omega

theorem weight_le : weight children object ≤ 2 * (children object).length := by
  by_cases none_left : children object = []
  · simp [weight, none_left]
  · have positive := List.length_pos_of_ne_nil none_left
    rw [weight, if_neg none_left]
    omega

variable [DecidableEq Object]

-- The objects in the order they are taken, each with the number of open objects around it.
def order : Nat → List Object → List (List Object) → List (Object × Nat)
  | 0, _, _ => []
  | _, _, [] => []
  | fuel + 1, taken, [] :: frames => order fuel taken frames
  | fuel + 1, taken, (object :: siblings) :: frames =>
      if shared object ∧ object ∈ taken then order fuel taken (siblings :: frames)
      else (object, frames.length + 1) :: order fuel (object :: taken) (opened children object (siblings :: frames))

variable [Fintype Object]

def allReferences : Nat := ∑ object : Object, ((children object).length + 1)

def traversal (root : Object) : List (Object × Nat) :=
  (root, 0) :: order children shared (allReferences children + 1) [root] (opened children root [])

def remaining (measure : Object → Nat) (taken : List Object) : Nat := ∑ object with object ∉ taken, measure object

theorem remaining_take (measure : Object → Nat) (taken : List Object) (object : Object) (fresh : object ∉ taken) :
    remaining measure taken = measure object + remaining measure (object :: taken) := by
  have others : Finset.univ.filter (fun other => other ∉ object :: taken) =
      (Finset.univ.filter fun other => other ∉ taken).erase object := by
    ext other
    simp [not_or]
  rw [remaining, remaining, others, Finset.add_sum_erase]
  simpa using fresh

def Enough (fuel : Nat) (taken : List Object) (frames : List (List Object)) : Prop :=
  remaining (weight children) taken + load frames < fuel

theorem enough_start (root : Object) : Enough children (allReferences children + 1) [root] (opened children root []) := by
  have all : remaining (weight children) [] ≤ allReferences children := by
    simp only [remaining, allReferences, List.not_mem_nil, not_false_eq_true, Finset.filter_true]
    apply Finset.sum_le_sum
    intro object _
    rw [weight]
    split <;> omega
  have taken := remaining_take (weight children) [] root List.not_mem_nil
  simp only [Enough, opened_load]
  simp only [load, List.flatten_nil, List.length_nil]
  omega

variable (fuel : Nat) (taken siblings : List Object)

theorem enough_close (frames : List (List Object))
    (enough : Enough children (fuel + 1) taken ([] :: frames)) : Enough children fuel taken frames := by
  simp only [Enough, load, List.flatten_cons, List.nil_append, List.length_cons] at enough ⊢
  omega

theorem enough_skip (object : Object) (frames : List (List Object))
    (enough : Enough children (fuel + 1) taken ((object :: siblings) :: frames)) :
    Enough children fuel taken (siblings :: frames) := by
  simp only [Enough, load, List.flatten_cons, List.length_append, List.length_cons] at enough ⊢
  omega

theorem enough_take (object : Object) (frames : List (List Object))
    (fresh : object ∉ taken) (enough : Enough children (fuel + 1) taken ((object :: siblings) :: frames)) :
    Enough children fuel (object :: taken) (opened children object (siblings :: frames)) := by
  have apart := remaining_take (weight children) taken object fresh
  simp only [Enough, opened_load] at enough ⊢
  simp only [load, List.flatten_cons, List.length_append, List.length_cons] at enough ⊢
  omega

def Once (taken : List Object) (frames : List (List Object)) : Prop :=
  ∀ object, shared object = false →
    remaining (fun source => (children source).count object) taken + frames.flatten.count object +
      (if object ∈ taken then 1 else 0) ≤ 1

theorem once_start (root : Object) (named : shared root = true)
    (single : ∀ object, shared object = false → ∑ source, (children source).count object ≤ 1) :
    Once children shared [root] (opened children root []) := by
  intro object unshared
  have differ : object ≠ root := by
    intro same
    rw [same, named] at unshared
    cases unshared
  have all : remaining (fun source => (children source).count object) [] = ∑ source, (children source).count object := by
    simp [remaining]
  have taken := remaining_take (fun source => (children source).count object) [] root List.not_mem_nil
  have bound := single object unshared
  rw [opened_flatten, List.flatten_nil, List.append_nil, if_neg (by simpa using differ)]
  omega

theorem once_close (frames : List (List Object)) (once : Once children shared taken ([] :: frames)) :
    Once children shared taken frames := by
  simpa [Once] using once

theorem once_fresh (object : Object) (frames : List (List Object))
    (once : Once children shared taken ((object :: siblings) :: frames)) (unlisted : ¬ (shared object ∧ object ∈ taken)) :
    object ∉ taken := by
  intro listed
  cases named : shared object with
  | true => exact unlisted ⟨named, listed⟩
  | false =>
      have bound := once object named
      rw [if_pos listed, List.flatten_cons, List.count_append, List.count_cons_self] at bound
      omega

theorem once_skip (object : Object) (frames : List (List Object))
    (once : Once children shared taken ((object :: siblings) :: frames)) : Once children shared taken (siblings :: frames) := by
  intro other unshared
  have bound := once other unshared
  simp only [List.flatten_cons, List.count_append, List.count_cons] at bound ⊢
  omega

theorem once_take (object : Object) (frames : List (List Object)) (fresh : object ∉ taken)
    (once : Once children shared taken ((object :: siblings) :: frames)) :
    Once children shared (object :: taken) (opened children object (siblings :: frames)) := by
  intro other unshared
  have bound := once other unshared
  have apart := remaining_take (fun source => (children source).count other) taken object fresh
  simp only [List.flatten_cons, List.count_append, List.count_cons, opened_flatten] at bound ⊢
  by_cases same : object = other
  · subst same
    rw [if_neg fresh] at bound
    simp only [BEq.rfl, if_true, List.mem_cons_self] at bound ⊢
    omega
  · have differ : (object == other) = false := by simpa using same
    have member : other ∈ object :: taken ↔ other ∈ taken := by simp [Ne.symm same]
    simp only [differ, member] at bound ⊢
    omega

end Order

end Filefacts.Traversal
