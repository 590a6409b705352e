import Mathlib.Logic.Function.Basic

set_option autoImplicit false

-- What is known of a state, place by place, beside the state itself.
namespace Filefacts.Known

variable {κ α β : Type} (value : β → α)

def Agrees (known : κ → Option β) (actual : κ → α) : Prop :=
  ∀ place held, known place = some held → value held = actual place

theorem agrees_nothing (actual : κ → α) : Agrees value (fun _ => none) actual :=
  fun _ _ nothing => by cases nothing

theorem agrees_forget {known : κ → Option β} (known' : κ → Option β) {actual : κ → α} (actual' : κ → α) (agrees : Agrees value known actual)
    (kept : ∀ place held, known' place = some held → known place = some held ∧ actual' place = actual place) :
    Agrees value known' actual' := by
  intro place held remains
  obtain ⟨before, same⟩ := kept place held remains
  rw [same]
  exact agrees place held before

theorem agrees_learn [DecidableEq κ] (known : κ → Option β) (actual : κ → α) (agrees : Agrees value known actual) (place : κ)
    (learnt : Option β) (content : α) (right : ∀ held, learnt = some held → value held = content) :
    Agrees value (Function.update known place learnt) (Function.update actual place content) := by
  intro other held now
  by_cases same : other = place
  · rw [same, Function.update_self] at now
    rw [same, Function.update_self]
    exact right held now
  · rw [Function.update_of_ne same] at now
    rw [Function.update_of_ne same]
    exact agrees other held now

end Filefacts.Known
