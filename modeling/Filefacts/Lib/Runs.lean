import Mathlib.Data.List.Basic
import Mathlib.Algebra.Order.Ring.Nat

set_option autoImplicit false

-- Maximal runs of positions, and the gaps that a list of ranges leaves, found in one sweep.
namespace Filefacts.Runs

abbrev Range := Nat × Nat

structure Maximal (holds : Nat → Prop) (low high : Nat) : Prop where
  filled : low < high
  within : ∀ position, low ≤ position → position < high → holds position
  before : low = 0 ∨ ¬ holds (low - 1)
  behind : ¬ holds high

theorem maximal_apart (holds rest : Nat → Prop) {start stop : Nat} (low high : Nat)
    (parts : ∀ position, holds position ↔ (start ≤ position ∧ position < stop) ∨ rest position)
    (apart : ∀ position, rest position → stop < position) :
    Maximal holds low high ↔ (start < stop ∧ low = start ∧ high = stop) ∨ Maximal rest low high := by
  have gap : ¬ holds stop := by
    rw [parts]
    rintro (inside | behind)
    · omega
    · exact Nat.lt_irrefl stop (apart stop behind)
  constructor
  · intro run
    by_cases early : low < stop
    · left
      have first := (parts low).mp (run.within low (Nat.le_refl _) run.filled)
      have inside : start ≤ low := by
        rcases first with inside | behind
        · exact inside.1
        · have := apart low behind
          omega
      have ends : high ≤ stop := by
        by_contra over_
        exact gap (run.within stop (by omega) (by omega))
      have starts : low = start := by
        rcases run.before with zero | stopped
        · omega
        · by_contra differ
          exact stopped ((parts _).mpr (Or.inl (by omega)))
      refine ⟨by omega, starts, ?_⟩
      by_contra differ
      exact run.behind ((parts high).mpr (Or.inl (by have := run.filled; omega)))
    · right
      have only : ∀ position, low ≤ position → position < high → rest position := by
        intro position above below
        rcases (parts position).mp (run.within position above below) with inside | behind
        · omega
        · exact behind
      refine ⟨run.filled, only, ?_, fun behind => run.behind ((parts high).mpr (Or.inr behind))⟩
      rcases run.before with zero | stopped
      · exact Or.inl zero
      · exact Or.inr fun behind => stopped ((parts _).mpr (Or.inr behind))
  · rintro (⟨filled, rfl, rfl⟩ | run)
    · refine ⟨filled, fun position above below => (parts position).mpr (Or.inl ⟨above, below⟩), ?_, gap⟩
      by_cases zero : low = 0
      · exact Or.inl zero
      · right
        rw [parts]
        rintro (inside | behind)
        · omega
        · have := apart _ behind
          omega
    · have later := apart low (run.within low (Nat.le_refl _) run.filled)
      have filled := run.filled
      refine ⟨filled, fun position above below => (parts position).mpr (Or.inr (run.within position above below)), ?_, ?_⟩
      · rcases run.before with zero | stopped
        · exact Or.inl zero
        · right
          rw [parts]
          rintro (inside | behind)
          · omega
          · exact stopped behind
      · rw [parts]
        rintro (inside | behind)
        · omega
        · exact run.behind behind

def Covered (ranges : List Range) (position : Nat) : Prop := ∃ range ∈ ranges, range.1 ≤ position ∧ position < range.2

-- The positions from the cursor on that no range covers, up to the limit or as far as a range still begins.
def Open (limit cursor : Nat) (ranges : List Range) (position : Nat) : Prop :=
  cursor ≤ position ∧ ¬ Covered ranges position ∧ (position < limit ∨ ∃ range ∈ ranges, position < range.1)

def gaps (limit : Nat) : Nat → List Range → List Range
  | cursor, [] => if cursor < limit then [(cursor, limit)] else []
  | cursor, (start, stop) :: rest =>
      if cursor < start then (cursor, start) :: gaps limit (max cursor stop) rest else gaps limit (max cursor stop) rest

variable (limit : Nat) (ranges : List Range)

variable (cursor start stop : Nat) (rest : List Range)

theorem gaps_cons : gaps limit cursor ((start, stop) :: rest) =
    if cursor < start then (cursor, start) :: gaps limit (max cursor stop) rest else gaps limit (max cursor stop) rest := rfl

theorem open_cons (sorted : ∀ range ∈ rest, start ≤ range.1) (position : Nat) :
    Open limit cursor ((start, stop) :: rest) position ↔
      (cursor ≤ position ∧ position < start) ∨ Open limit (max cursor stop) rest position := by
  constructor
  · rintro ⟨above, uncovered, reach⟩
    by_cases early : position < start
    · exact Or.inl ⟨above, early⟩
    · right
      have beyond : stop ≤ position := by
        by_contra inside
        exact uncovered ⟨(start, stop), List.mem_cons_self, Nat.not_lt.mp early, Nat.not_le.mp inside⟩
      refine ⟨by omega, ?_, ?_⟩
      · rintro ⟨range, member, covers⟩
        exact uncovered ⟨range, List.mem_cons_of_mem _ member, covers⟩
      · rcases reach with below | ⟨range, member, later⟩
        · exact Or.inl below
        · rcases List.mem_cons.mp member with rfl | member
          · exact absurd later early
          · exact Or.inr ⟨range, member, later⟩
  · rintro (⟨above, early⟩ | ⟨above, uncovered, reach⟩)
    · refine ⟨above, ?_, Or.inr ⟨(start, stop), List.mem_cons_self, early⟩⟩
      rintro ⟨range, member, covers⟩
      rcases List.mem_cons.mp member with rfl | member
      · exact Nat.not_le.mpr early covers.1
      · have := sorted range member
        omega
    · refine ⟨by omega, ?_, ?_⟩
      · rintro ⟨range, member, covers⟩
        rcases List.mem_cons.mp member with rfl | member
        · have : position < stop := covers.2
          omega
        · exact uncovered ⟨range, member, covers⟩
      · rcases reach with below | ⟨range, member, later⟩
        · exact Or.inl below
        · exact Or.inr ⟨range, List.mem_cons_of_mem _ member, later⟩

theorem mem_gaps (sorted : ranges.Pairwise fun earlier later => earlier.1 ≤ later.1)
    (solid : ∀ range ∈ ranges, range.1 < range.2) :
    ∀ cursor low high, (low, high) ∈ gaps limit cursor ranges ↔ Maximal (Open limit cursor ranges) low high := by
  induction ranges with
  | nil =>
      intro cursor low high
      have parts : ∀ position, Open limit cursor [] position ↔ (cursor ≤ position ∧ position < limit) ∨ False := by
        intro position
        constructor
        · rintro ⟨above, _, below | ⟨range, member, _⟩⟩
          · exact Or.inl ⟨above, below⟩
          · cases member
        · rintro (⟨above, below⟩ | impossible)
          · refine ⟨above, ?_, Or.inl below⟩
            rintro ⟨range, member, _⟩
            cases member
          · exact impossible.elim
      rw [maximal_apart _ (fun _ => False) low high parts (fun _ impossible => impossible.elim), gaps]
      have none_ : ¬ Maximal (fun _ => False) low high := fun run => run.within low (Nat.le_refl _) run.filled
      split
      · next room =>
          rw [List.mem_singleton, Prod.mk.injEq]
          constructor
          · rintro ⟨rfl, rfl⟩
            exact Or.inl ⟨room, rfl, rfl⟩
          · rintro (⟨_, rfl, rfl⟩ | run)
            · exact ⟨rfl, rfl⟩
            · exact absurd run none_
      · next full =>
          constructor
          · intro member
            cases member
          · rintro (⟨room, _⟩ | run)
            · exact absurd room full
            · exact absurd run none_
  | cons range rest ih =>
      intro cursor low high
      obtain ⟨start, stop⟩ := range
      obtain ⟨after, behind⟩ := List.pairwise_cons.mp sorted
      have filled : start < stop := solid (start, stop) List.mem_cons_self
      have apart : ∀ position, Open limit (max cursor stop) rest position → start < position := by
        intro position open_
        have := open_.1
        omega
      rw [maximal_apart _ _ low high (open_cons limit cursor start stop rest after) apart,
        ← ih behind (fun range member => solid range (List.mem_cons_of_mem _ member)), gaps]
      split
      · next room =>
          rw [List.mem_cons, Prod.mk.injEq]
          exact or_congr_left ⟨fun same => ⟨room, same⟩, And.right⟩
      · next full => exact ⟨Or.inr, fun either => either.resolve_left fun first => full first.1⟩

theorem gaps_from : ∀ cursor, ∀ gap ∈ gaps limit cursor ranges, cursor ≤ gap.1 := by
  induction ranges with
  | nil =>
      intro cursor gap member
      rw [gaps] at member
      split at member
      · rw [List.mem_singleton.mp member]
      · cases member
  | cons range rest ih =>
      intro cursor gap member
      obtain ⟨start, stop⟩ := range
      have later := fun member => Nat.le_trans (Nat.le_max_left cursor stop) (ih (max cursor stop) gap member)
      rw [gaps] at member
      split at member
      · rcases List.mem_cons.mp member with rfl | member
        · exact Nat.le_refl _
        · exact later member
      · exact later member

theorem gaps_apart (solid : ∀ range ∈ ranges, range.1 < range.2) :
    ∀ cursor, (gaps limit cursor ranges).Pairwise fun earlier later => earlier.1 < later.1 ∧ earlier.2 ≤ later.1 := by
  induction ranges with
  | nil =>
      intro cursor
      rw [gaps]
      split
      · exact List.pairwise_singleton _ _
      · exact List.Pairwise.nil
  | cons range rest ih =>
      intro cursor
      obtain ⟨start, stop⟩ := range
      have filled : start < stop := solid (start, stop) List.mem_cons_self
      have behind := ih (fun range member => solid range (List.mem_cons_of_mem _ member)) (max cursor stop)
      rw [gaps_cons]
      split
      · refine List.pairwise_cons.mpr ⟨fun gap member => ?_, behind⟩
        have reach := gaps_from limit rest (max cursor stop) gap member
        omega
      · exact behind

end Filefacts.Runs
