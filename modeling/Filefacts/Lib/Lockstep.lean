import Mathlib.Data.List.Nodup

set_option autoImplicit false

-- An analysis that walks a list of units in the order a program runs them, and records facts about what happens there.
namespace Filefacts.Lockstep

universe u

variable {Part Known World Event Fact : Type u}

-- A part of the program: where its sites are, what the analysis records of it and knows after it, and how it runs.
-- A run that has no last world was stopped.
structure Level (Part Known World Event Fact : Type u) where
  sites : Part → List Nat
  facts : Part → Known → List Fact
  after : Part → Known → Known
  Runs : Part → Known → World → List Event → Option World → Prop

namespace Level

variable (level : Level Part Known World Event Fact)

def allFacts : List Part → Known → List Fact
  | [], _ => []
  | part :: rest, known => level.facts part known ++ allFacts rest (level.after part known)

inductive RunsAll : List Part → Known → World → List Event → Option World → Prop
  | done (known : Known) (world : World) : RunsAll [] known world [] (some world)
  | stopped (part : Part) (rest : List Part) (known : Known) (world : World) (events : List Event)
      (runs : level.Runs part known world events none) : RunsAll (part :: rest) known world events none
  | next (part : Part) (rest : List Part) (known : Known) (world middle : World) (events more : List Event) (last : Option World)
      (runs : level.Runs part known world events (some middle)) (others : RunsAll rest (level.after part known) middle more last) :
      RunsAll (part :: rest) known world (events ++ more) last

-- The parts one behind the other are a part again.
def all : Level (List Part) Known World Event Fact where
  sites := fun parts => parts.flatMap level.sites
  facts := level.allFacts
  after := fun parts known => parts.foldl (fun known part => level.after part known) known
  Runs := level.RunsAll

end Level

variable (site : Event → Nat) (offset : Fact → Nat) (Agrees : Known → World → Prop) (Right : Fact → Event → Prop)

structure Sound (level : Level Part Known World Event Fact) : Prop where
  events : ∀ part known world events last, level.Runs part known world events last → ∀ event ∈ events, site event ∈ level.sites part
  facts : ∀ part known, ∀ fact ∈ level.facts part known, offset fact ∈ level.sites part
  agrees : ∀ part known world events later, Agrees known world → level.Runs part known world events (some later) →
    Agrees (level.after part known) later
  right : ∀ part known world events last, Agrees known world → (level.sites part).Nodup → level.Runs part known world events last →
    ∀ event ∈ events, ∀ fact ∈ level.facts part known, offset fact = site event → Right fact event

variable (level : Level Part Known World Event Fact)

theorem all_events (sound : Sound site offset Agrees Right level) (parts : List Part)
    (known : Known) (world : World) (events : List Event) (last : Option World) (runs : level.RunsAll parts known world events last) :
    ∀ event ∈ events, site event ∈ parts.flatMap level.sites := by
  induction runs with
  | done known world => exact List.forall_mem_nil _
  | stopped part rest known world events runs =>
      intro event member
      rw [List.flatMap_cons]
      exact List.mem_append_left _ (sound.events part known world events none runs event member)
  | next part rest known world middle events more last runs others ih =>
      intro event member
      rw [List.flatMap_cons]
      rcases List.mem_append.mp member with here | later
      · exact List.mem_append_left _ (sound.events part known world events _ runs event here)
      · exact List.mem_append_right _ (ih event later)

theorem all_facts (sound : Sound site offset Agrees Right level) (parts : List Part) :
    ∀ (known : Known), ∀ fact ∈ level.allFacts parts known, offset fact ∈ parts.flatMap level.sites := by
  induction parts with
  | nil => exact fun known => List.forall_mem_nil _
  | cons part rest ih =>
      intro known fact member
      rw [List.flatMap_cons]
      rcases List.mem_append.mp member with here | later
      · exact List.mem_append_left _ (sound.facts part known fact here)
      · exact List.mem_append_right _ (ih _ fact later)

theorem all_agrees (sound : Sound site offset Agrees Right level) {parts : List Part}
    {known : Known} {world later : World} {events : List Event} (agrees : Agrees known world)
    (runs : level.RunsAll parts known world events (some later)) : Agrees (level.all.after parts known) later := by
  generalize finished : some later = last at runs
  induction runs with
  | done known world =>
      obtain rfl := Option.some.inj finished
      exact agrees
  | stopped part rest known world events runs => cases finished
  | next part rest known world middle events more last runs others ih =>
      exact ih (sound.agrees part known world events middle agrees runs) finished

-- A site belongs to one part only, so an event and a fact of one site come from the same part.
theorem all_right (sound : Sound site offset Agrees Right level) (parts : List Part)
    (known : Known) (world : World) (events : List Event) (last : Option World) (agrees : Agrees known world)
    (distinct : (parts.flatMap level.sites).Nodup) (runs : level.RunsAll parts known world events last) :
    ∀ event ∈ events, ∀ fact ∈ level.allFacts parts known, offset fact = site event → Right fact event := by
  induction runs with
  | done known world => exact List.forall_mem_nil _
  | stopped part rest known world events runs =>
      intro event member fact recorded same
      rw [List.flatMap_cons] at distinct
      rcases List.mem_append.mp recorded with here | later
      · exact sound.right part known world events none agrees distinct.of_append_left runs event member fact here same
      · have inside := all_facts site offset Agrees Right level sound rest _ fact later
        rw [same] at inside
        exact absurd inside (List.disjoint_of_nodup_append distinct (sound.events part known world events none runs event member))
  | next part rest known world middle events more last runs others ih =>
      intro event member fact recorded same
      rw [List.flatMap_cons] at distinct
      have apart := List.disjoint_of_nodup_append distinct
      have kept := sound.agrees part known world events middle agrees runs
      rcases List.mem_append.mp member with eventHere | eventLater
      · have eventIn := sound.events part known world events _ runs event eventHere
        rcases List.mem_append.mp recorded with factHere | factLater
        · exact sound.right part known world events _ agrees distinct.of_append_left runs event eventHere fact factHere same
        · have inside := all_facts site offset Agrees Right level sound rest _ fact factLater
          rw [same] at inside
          exact absurd inside (apart eventIn)
      · have eventIn := all_events site offset Agrees Right level sound rest _ middle more last others event eventLater
        rcases List.mem_append.mp recorded with factHere | factLater
        · have inside := sound.facts part known fact factHere
          rw [same] at inside
          exact absurd eventIn (apart inside)
        · exact ih kept distinct.of_append_right event eventLater fact factLater same

theorem all_sound {level : Level Part Known World Event Fact} (sound : Sound site offset Agrees Right level) :
    Sound site offset Agrees Right level.all where
  events := all_events site offset Agrees Right level sound
  facts := all_facts site offset Agrees Right level sound
  agrees := fun parts known world events later agrees runs =>
    all_agrees site offset Agrees Right level sound agrees runs
  right := all_right site offset Agrees Right level sound

end Filefacts.Lockstep
