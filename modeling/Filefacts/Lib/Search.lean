import Mathlib.Algebra.Order.Ring.Nat

set_option autoImplicit false

-- The first position of a range that passes a test.
namespace Filefacts.Search

variable (test : Nat → Bool)

def first (stop start : Nat) : Option Nat := (List.range' start (stop - start)).find? test

structure IsFirst (stop start found : Nat) : Prop where
  from_ : start ≤ found
  before : found < stop
  passes : test found = true
  least : ∀ other, start ≤ other → other < found → test other = false

variable (stop start later : Nat)

theorem first_eq_some (found : Nat) : first test stop start = some found ↔ IsFirst test stop start found := by
  rw [first, List.find?_range'_eq_some, List.mem_range'_1]
  constructor
  · rintro ⟨passes, inside, least⟩
    exact ⟨inside.1, by omega, passes, fun other above below => by simpa using least other above below⟩
  · intro isFirst
    have after := isFirst.from_
    have before := isFirst.before
    exact ⟨isFirst.passes, ⟨after, by omega⟩, fun other above below => by simpa using isFirst.least other above below⟩

theorem first_eq_none : first test stop start = none ↔ ∀ other, start ≤ other → other < stop → test other = false := by
  rw [first, List.find?_range'_eq_none]
  constructor
  · intro all other above below
    simpa using all other above (by omega)
  · intro all other above below
    simpa using all other above (by omega)

theorem first_exists (other : Nat) (above : start ≤ other) (below : other < stop) (passes : test other = true) :
    ∃ found, first test stop start = some found ∧ found ≤ other := by
  cases search : first test stop start with
  | none =>
      rw [(first_eq_none test stop start).mp search other above below] at passes
      cases passes
  | some found =>
      have isFirst := (first_eq_some test stop start found).mp search
      refine ⟨found, rfl, ?_⟩
      by_contra later
      rw [isFirst.least other above (Nat.lt_of_not_le later)] at passes
      cases passes

theorem first_later (found : Nat) (search : first test stop start = some found) (above : start ≤ later)
    (below : later ≤ found) : first test stop later = some found := by
  have isFirst := (first_eq_some test stop start found).mp search
  exact (first_eq_some test stop later found).mpr
    ⟨below, isFirst.before, isFirst.passes, fun other atLeast under => isFirst.least other (Nat.le_trans above atLeast) under⟩

theorem find_last (count found : Nat) (above : start ≤ found) (below : found < start + count) (passes : test found = true)
    (last : ∀ other, found < other → test other = false) : (List.range' start count).reverse.find? test = some found := by
  rw [List.find?_eq_some_iff_append]
  refine ⟨passes, (List.range' (found + 1) (start + count - (found + 1))).reverse, (List.range' start (found - start)).reverse, ?_, ?_⟩
  · have after : List.range' found (start + count - found) = found :: List.range' (found + 1) (start + count - (found + 1)) := by
      rw [← List.range'_succ]
      congr 1
      omega
    have whole : List.range' start count = List.range' start (found - start) ++ List.range' found (start + count - found) := by
      have joined := List.range'_append_1 (s := start) (m := found - start) (n := start + count - found)
      rw [show start + (found - start) = found by omega, show found - start + (start + count - found) = count by omega] at joined
      exact joined.symm
    rw [whole, after, List.reverse_append, List.reverse_cons, List.append_assoc, List.singleton_append]
  · intro other member
    rw [List.mem_reverse, List.mem_range'_1] at member
    rw [last other member.1]
    rfl

theorem first_none_later (search : first test stop start = none) (above : start ≤ later) : first test stop later = none :=
  (first_eq_none test stop later).mpr fun other atLeast under =>
    (first_eq_none test stop start).mp search other (Nat.le_trans above atLeast) under

theorem first_skip (fails : ∀ other, start ≤ other → other < later → test other = false)
    (above : start ≤ later) : first test stop start = first test stop later := by
  cases search : first test stop later with
  | none =>
      rw [first_eq_none] at search ⊢
      intro other atLeast under
      by_cases early : other < later
      · exact fails other atLeast early
      · exact search other (Nat.le_of_not_lt early) under
  | some found =>
      have isFirst := (first_eq_some test stop later found).mp search
      refine (first_eq_some test stop start found).mpr
        ⟨Nat.le_trans above isFirst.from_, isFirst.before, isFirst.passes, fun other atLeast under => ?_⟩
      by_cases early : other < later
      · exact fails other atLeast early
      · exact isFirst.least other (Nat.le_of_not_lt early) under

inductive Memory where
  | notStarted
  | found (position : Nat)
  | exhausted
deriving DecidableEq, Repr

def Memory.ofAnswer : Option Nat → Memory
  | some position => .found position
  | none => .exhausted

def Memory.Holds (stop floor : Nat) : Memory → Prop
  | .notStarted => True
  | .found position => ∀ start, floor ≤ start → start ≤ position → first test stop start = some position
  | .exhausted => ∀ start, floor ≤ start → first test stop start = none

theorem of_answer_holds : (Memory.ofAnswer (first test stop start)).Holds test stop start := by
  cases search : first test stop start with
  | none => exact fun later above => first_none_later test stop start later search above
  | some found => exact fun later above below => first_later test stop start later found search above below

theorem holds_later {floor later : Nat} {memory : Memory} (holds : memory.Holds test stop floor) (above : floor ≤ later) :
    memory.Holds test stop later := by
  cases memory with
  | notStarted => trivial
  | found position => exact fun start atLeast under => holds start (Nat.le_trans above atLeast) under
  | exhausted => exact fun start atLeast => holds start (Nat.le_trans above atLeast)

end Filefacts.Search
