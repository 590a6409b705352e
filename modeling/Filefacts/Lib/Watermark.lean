import Mathlib.Algebra.Order.Ring.Nat

set_option autoImplicit false

-- A walk over offsets that notes how far it has come only at some of its steps.
namespace Filefacts.Watermark

structure Step where
  stop : Nat
  moves : Bool
  deriving DecidableEq, Repr

def markOf (mark : Nat) : List Step → Nat
  | [] => mark
  | step :: rest => markOf (if step.moves then step.stop else mark) rest

def Rising (pos : Nat) : List Step → Prop
  | [] => True
  | step :: rest => pos < step.stop ∧ Rising step.stop rest

variable (steps : List Step) (mark : Nat)

theorem rising_above (pos : Nat) (rising : Rising pos steps) (step : Step) (member : step ∈ steps) : pos < step.stop := by
  induction steps generalizing pos with
  | nil => cases member
  | cons first rest hypothesis =>
      rcases List.mem_cons.mp member with rfl | later
      · exact rising.1
      · exact Nat.lt_trans rising.1 (hypothesis first.stop rising.2 later)

theorem rising_last (pos : Nat) (rising : Rising pos steps) (step last : Step) (member : step ∈ steps)
    (ends : steps.getLast? = some last) : step.stop ≤ last.stop := by
  induction steps generalizing pos with
  | nil => cases member
  | cons first rest hypothesis =>
      cases rest with
      | nil =>
          cases ends
          exact Nat.le_of_eq (congrArg Step.stop (List.mem_singleton.mp member))
      | cons second rest =>
          rw [List.getLast?_cons_cons] at ends
          rcases List.mem_cons.mp member with rfl | later
          · exact Nat.le_of_lt (rising_above _ step.stop rising.2 last (List.mem_of_getLast? ends))
          · exact hypothesis first.stop rising.2 later ends

theorem mark_moved {last : Step} (ends : steps.getLast? = some last) (moves : last.moves = true) :
    markOf mark steps = last.stop := by
  induction steps generalizing mark with
  | nil => cases ends
  | cons first rest hypothesis =>
      cases rest with
      | nil =>
          have only : first = last := Option.some.inj ends
          subst only
          rw [markOf, if_pos moves, markOf]
      | cons second rest =>
          rw [List.getLast?_cons_cons] at ends
          exact hypothesis _ ends

theorem mark_unmoved (pos : Nat) (below : mark ≤ pos) (rising : Rising pos steps) (last : Step)
    (ends : steps.getLast? = some last) (stays : last.moves = false) : markOf mark steps < last.stop := by
  induction steps generalizing mark pos with
  | nil => cases ends
  | cons first rest hypothesis =>
      have moved : (if first.moves then first.stop else mark) ≤ first.stop := by
        split
        · exact Nat.le_refl _
        · exact Nat.le_of_lt (Nat.lt_of_le_of_lt below rising.1)
      cases rest with
      | nil =>
          have only : first = last := Option.some.inj ends
          subst only
          rw [markOf, if_neg (Bool.eq_false_iff.mp stays), markOf]
          exact Nat.lt_of_le_of_lt below rising.1
      | cons second rest =>
          rw [List.getLast?_cons_cons] at ends
          exact hypothesis _ first.stop moved rising.2 ends

theorem covers_iff (pos : Nat) (below : mark ≤ pos) (rising : Rising pos steps) :
    (∀ step ∈ steps, step.stop ≤ markOf mark steps) ↔ ∀ last, steps.getLast? = some last → last.moves = true := by
  constructor
  · intro covers last ends
    by_contra stays
    have short := mark_unmoved steps mark pos below rising last ends (Bool.eq_false_iff.mpr stays)
    exact absurd (covers last (List.mem_of_getLast? ends)) (Nat.not_le_of_lt short)
  · intro moves step member
    cases ends : steps.getLast? with
    | none =>
        rw [List.getLast?_eq_none_iff.mp ends] at member
        cases member
    | some last =>
        rw [mark_moved steps mark ends (moves last ends)]
        exact rising_last steps pos rising step last member ends

theorem rising_weaken {pos later : Nat} (onward : pos ≤ later) (rising : Rising later steps) : Rising pos steps := by
  cases steps with
  | nil => trivial
  | cons first rest => exact ⟨Nat.lt_of_le_of_lt onward rising.1, rising.2⟩

theorem mark_grows (rising : Rising mark steps) : mark ≤ markOf mark steps := by
  induction steps generalizing mark with
  | nil => exact Nat.le_refl _
  | cons first rest hypothesis =>
      rw [markOf]
      split
      · exact Nat.le_of_lt (Nat.lt_of_lt_of_le rising.1 (hypothesis first.stop rising.2))
      · exact hypothesis mark (rising_weaken rest (Nat.le_of_lt rising.1) rising.2)

theorem mark_floor (pos : Nat) (below : mark ≤ pos) (rising : Rising pos steps) :
    max (markOf mark steps) pos = markOf pos steps := by
  induction steps with
  | nil => exact Nat.max_eq_right below
  | cons first rest hypothesis =>
      rw [markOf, markOf]
      by_cases moves : first.moves = true
      · rw [if_pos moves, if_pos moves]
        exact Nat.max_eq_left (Nat.le_of_lt (Nat.lt_of_lt_of_le rising.1 (mark_grows rest first.stop rising.2)))
      · rw [if_neg moves, if_neg moves]
        exact hypothesis (rising_weaken rest (Nat.le_of_lt rising.1) rising.2)

end Filefacts.Watermark
