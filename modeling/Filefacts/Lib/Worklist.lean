import Mathlib.Logic.Relation
import Mathlib.Data.List.Perm.Subperm

set_option autoImplicit false

namespace Filefacts.Worklist

universe u v

-- Search over an arbitrary step relation: a visited list, and a stack of
-- states still to be expanded. Nothing here knows what a state is.
section Search

variable {State : Type u} (step : State → State → Prop)

def Closed (seen waiting : List State) : Prop :=
  ∀ state next, state ∈ seen → step state next → next ∈ seen ∨ next ∈ waiting

inductive Chain (start : State) : Nat → State → Prop where
  | start : Chain start 0 start
  | next (length : Nat) (state next : State) (previous : Chain start length state) (edge : step state next) :
      Chain start (length + 1) next

theorem closed_initial (waiting : List State) : Closed step [] waiting := by
  intro state next member
  simp at member

theorem closed_skip (seen waiting : List State) (state : State)
    (closed : Closed step seen (state :: waiting)) (visited : state ∈ seen) : Closed step seen waiting := by
  intro source next member edge
  rcases closed source next member edge with here | later
  · exact Or.inl here
  · rcases List.mem_cons.mp later with same | rest
    · exact Or.inl (same ▸ visited)
    · exact Or.inr rest

theorem closed_expand {seen waiting fresh : List State} {state : State}
    (closed : Closed step seen (state :: waiting)) (complete : ∀ next, step state next → next ∈ fresh) :
    Closed step (state :: seen) (fresh ++ waiting) := by
  intro source next member edge
  rcases List.mem_cons.mp member with same | older
  · subst same
    exact Or.inr (List.mem_append_left _ (complete next edge))
  · rcases closed source next older edge with here | later
    · exact Or.inl (List.mem_cons_of_mem _ here)
    · rcases List.mem_cons.mp later with top | rest
      · exact Or.inl (top ▸ List.mem_cons_self)
      · exact Or.inr (List.mem_append_right _ rest)

theorem closed_reach {seen : List State} {start target : State} (closed : Closed step seen [])
    (visited : start ∈ seen) (reach : Relation.ReflTransGen step start target) : target ∈ seen := by
  induction reach with
  | refl => exact visited
  | tail _ edge ih =>
      rcases closed _ _ ih edge with here | later
      · exact here
      · simp at later

theorem chain_reach (start target : State) (length : Nat) (chain : Chain step start length target) :
    Relation.ReflTransGen step start target := by
  induction chain with
  | start => exact .refl
  | next _ _ _ _ edge ih => exact ih.tail edge

end Search

theorem reach_map {Source : Type u} {Target : Type v} (sourceStep : Source → Source → Prop)
    (targetStep : Target → Target → Prop) (image : Source → Target) (start target : Source)
    (simulates : ∀ state next, Relation.ReflTransGen sourceStep start state → sourceStep state next →
      targetStep (image state) (image next))
    (reach : Relation.ReflTransGen sourceStep start target) :
    Relation.ReflTransGen targetStep (image start) (image target) := by
  induction reach with
  | refl => exact .refl
  | tail earlier edge ih => exact ih.tail (simulates _ _ earlier edge)

theorem distinct_length_bound {State : Type u} (states seen : List State) (distinct : states.Nodup)
    (included : ∀ state ∈ states, state ∈ seen) : states.length ≤ seen.length :=
  (List.subperm_of_subset distinct included).length_le

end Filefacts.Worklist
