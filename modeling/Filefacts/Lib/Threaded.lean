import Mathlib.Logic.Basic

set_option autoImplicit false

-- Computations that hand a state on when they succeed and leave one behind when they fail.
namespace Filefacts.Threaded

section Moves

variable {State Failure α β : Type} (left : Failure → State) (moved : State → State → Prop)

structure Moves (start : State) (run : Except Failure (α × State)) : Prop where
  done : ∀ result state, run = .ok (result, state) → moved start state
  failed : ∀ failure, run = .error failure → moved start (left failure)

theorem moves_ok (start state : State) (result : α) (move : moved start state) :
    Moves left moved start (.ok (result, state)) := by
  constructor
  · rintro _ _ ⟨⟩
    exact move
  · rintro _ ⟨⟩

theorem moves_error (start : State) (failure : Failure) (move : moved start (left failure)) :
    Moves (α := α) left moved start (.error failure) := by
  constructor
  · rintro _ _ ⟨⟩
  · rintro _ ⟨⟩
    exact move

theorem moves_from (first second : State) (run : Except Failure (α × State)) (trans : ∀ a b c, moved a b → moved b c → moved a c)
    (move : moved first second) (moves : Moves left moved second run) : Moves left moved first run where
  done result state ran := trans first second state move (moves.done result state ran)
  failed failure ran := trans first second (left failure) move (moves.failed failure ran)

theorem moves_bind (start : State) (run : Except Failure (α × State)) (next : α × State → Except Failure (β × State))
    (trans : ∀ a b c, moved a b → moved b c → moved a c) (moves : Moves left moved start run)
    (rest : ∀ result state, run = .ok (result, state) → Moves left moved state (next (result, state))) :
    Moves left moved start (run >>= next) := by
  cases ran : run with
  | ok pair => exact moves_from left moved start pair.2 _ trans (moves.done pair.1 pair.2 ran) (rest pair.1 pair.2 ran)
  | error failure => exact moves_error left moved start failure (moves.failed failure ran)

end Moves

theorem bind_done {Failure α β : Type} (run : Except Failure α) (next : α → Except Failure β) (result : β) :
    (run >>= next) = .ok result ↔ ∃ first, run = .ok first ∧ next first = .ok result := by
  cases run with
  | error failure =>
      constructor
      · rintro ⟨⟩
      · rintro ⟨_, ⟨⟩, _⟩
  | ok first =>
      constructor
      · intro ran
        exact ⟨first, rfl, ran⟩
      · rintro ⟨_, ⟨⟩, ran⟩
        exact ran

end Filefacts.Threaded
