import Filefacts.Structured.Composed

set_option autoImplicit false

namespace Filefacts.Structured

open Filefacts.Output (Text)

def Outcome.Meets {Value : Type} (outcome : Outcome Value) (failed : Composer → Prop) (done : Value → Nat → Composer → Prop) : Prop :=
  match outcome with
  | .spent => False
  | .failed _ _ composer => failed composer
  | .done value pos composer => done value pos composer

variable {Value : Type}

theorem meets_bind {Next : Type} (outcome : Outcome Value) (next : Value → Nat → Composer → Outcome Next)
    (failed : Composer → Prop) (middle : Value → Nat → Composer → Prop) (done : Next → Nat → Composer → Prop)
    (first : outcome.Meets failed middle)
    (later : ∀ value pos composer, middle value pos composer → (next value pos composer).Meets failed done) :
    (outcome.bind next).Meets failed done := by
  cases outcome with
  | spent => exact first
  | failed message pos composer => exact first
  | done value pos composer => exact later value pos composer first

theorem meets_weaken (outcome : Outcome Value) (failed : Composer → Prop) (done weaker : Value → Nat → Composer → Prop)
    (meets : outcome.Meets failed done) (weaken : ∀ value pos composer, done value pos composer → weaker value pos composer) :
    outcome.Meets failed weaker := by
  cases outcome with
  | spent => exact meets
  | failed message pos composer => exact meets
  | done value pos composer => exact weaken value pos composer meets

def Event.begins (event : Event) : Bool :=
  match event with
  | .scalar _ _ _ _ => true
  | .sequenceStart _ _ => true
  | .mappingStart _ _ => true
  | _ => false

variable {F : Type} (std : Std F) (events : List (Event × Span))

structure Within (composer : Composer) : Prop where
  made : composer.made ≤ events.length + yamlMaxReplayedEvents
  copied : composer.copied ≤ yamlMaxReplayedBytes

def Composer.read (composer : Composer) (outer pos : Nat) : Nat := if composer.replaying = 0 then pos else outer

-- While a run goes on: every node built has its own event, with some to spare,
-- and every byte copied is charged.
structure Holds (outer spare pos : Nat) (composer : Composer) : Prop where
  anchors : ∀ id start, composer.anchored id = some start → events[start]?.any (fun entry => entry.1.begins) = true
  made : composer.made + spare ≤ composer.read outer pos + composer.replayed
  replayed : composer.replayed ≤ yamlMaxReplayedEvents
  copied : composer.copied ≤ composer.replayedBytes
  bytes : composer.replayedBytes ≤ yamlMaxReplayedBytes
  inside : composer.read outer pos ≤ events.length

theorem holds_within {outer spare pos : Nat} {composer : Composer} (holds : Holds events outer spare pos composer) :
    Within events composer := by
  have made := holds.made
  have replayed := holds.replayed
  have inside := holds.inside
  exact ⟨by omega, Nat.le_trans holds.copied holds.bytes⟩

structure Taken (outer spare pos : Nat) (before : Composer) (entry : Event × Span) (after : Nat) (composer : Composer) : Prop where
  read : events[pos]? = some entry
  next : after = pos + 1
  replaying : composer.replaying = before.replaying
  holds : Holds events outer (spare + 1) after composer
  charged : composer.replaying ≠ 0 → entry.1.isScalar = true → composer.copied + entry.1.bytes ≤ composer.replayedBytes

variable (outer spare pos : Nat) (composer : Composer) (id : Nat)

theorem take_meets (holds : Holds events outer spare pos composer) :
    (take events pos composer).Meets (Within events) (Taken events outer spare pos composer) := by
  have within := holds_within events holds
  have made := holds.made
  have replayed := holds.replayed
  have copied := holds.copied
  have bytes := holds.bytes
  have inside := holds.inside
  unfold take
  cases read : events[pos]? with
  | none => exact within
  | some entry =>
      have further := (List.getElem?_eq_some_iff.mp read).choose
      simp only
      split
      · next outermost =>
          rw [Composer.read, if_pos outermost] at made inside
          refine ⟨read, rfl, rfl, ⟨holds.anchors, ?_, replayed, copied, bytes, ?_⟩, fun replays => absurd outermost replays⟩
          · rw [Composer.read, if_pos outermost]
            omega
          · rw [Composer.read, if_pos outermost]
            omega
      · next inner =>
          rw [Composer.read, if_neg inner] at made inside
          split
          · exact ⟨within.made, within.copied⟩
          · next room =>
              split
              · split
                · exact ⟨within.made, within.copied⟩
                · next roomBytes =>
                    unfold yamlMaxReplayedBytes at bytes roomBytes
                    refine ⟨read, rfl, rfl, ⟨holds.anchors, ?_, ?_, ?_, ?_, ?_⟩, fun _ _ => ?_⟩
                    · rw [Composer.read, if_neg inner]
                      simp only
                      omega
                    · simp only
                      omega
                    · simp only
                      omega
                    · unfold yamlMaxReplayedBytes
                      simp only
                      omega
                    · rw [Composer.read, if_neg inner]
                      exact inside
                    · simp only
                      omega
              · next plain =>
                  refine ⟨read, rfl, rfl, ⟨holds.anchors, ?_, ?_, copied, bytes, ?_⟩, fun _ isScalar => absurd isScalar plain⟩
                  · rw [Composer.read, if_neg inner]
                    simp only
                    omega
                  · simp only
                    omega
                  · rw [Composer.read, if_neg inner]
                    exact inside

structure Advances (outer spare pos : Nat) (before : Composer) (after : Nat) (composer : Composer) : Prop where
  further : pos < after
  inside : after ≤ events.length
  replaying : composer.replaying = before.replaying
  holds : Holds events outer spare after composer

variable {middle after : Nat} {before between : Composer}

theorem advances_trans {composer : Composer}
    (first : Advances events outer spare pos before middle between) (second : Advances events outer spare middle between after composer) :
    Advances events outer spare pos before after composer :=
  ⟨Nat.lt_trans first.further second.further, second.inside, second.replaying.trans first.replaying, second.holds⟩

theorem holds_spare {less pos : Nat} {composer : Composer} (fewer : less ≤ spare)
    (holds : Holds events outer spare pos composer) : Holds events outer less pos composer :=
  ⟨holds.anchors, Nat.le_trans (Nat.add_le_add_left fewer _) holds.made, holds.replayed, holds.copied, holds.bytes, holds.inside⟩

def Keeps (node : Nat → Composer → Outcome (Yaml F)) : Prop :=
  ∀ outer spare pos composer, Holds events outer spare pos composer →
    (node pos composer).Meets (Within events) fun _ after composer' => Advances events outer spare pos composer after composer'

structure Passes (outer spare pos : Nat) (before : Composer) (after : Nat) (composer : Composer) : Prop where
  further : pos ≤ after
  inside : after ≤ events.length
  replaying : composer.replaying = before.replaying
  holds : Holds events outer spare after composer

theorem advances_passes {composer : Composer}
    (first : Advances events outer spare pos before middle between) (second : Passes events outer spare middle between after composer) :
    Passes events outer spare pos before after composer :=
  ⟨Nat.le_trans (Nat.le_of_lt first.further) second.further, second.inside, second.replaying.trans first.replaying, second.holds⟩

theorem items_meets (node : Nat → Composer → Outcome (Yaml F)) (keeps : Keeps events node) (turns : Nat) :
    ∀ (held : List (Yaml F)) (outer spare pos : Nat) (composer : Composer), Holds events outer spare pos composer →
      pos ≤ events.length → events.length < turns + pos →
      (items events node turns held pos composer).Meets (Within events) fun _ after composer' =>
        Passes events outer spare pos composer after composer' := by
  induction turns with
  | zero =>
      intro held outer spare pos composer holds inside enough
      omega
  | succ turns hypothesis =>
      intro held outer spare pos composer holds inside enough
      rw [items]
      split
      · exact ⟨Nat.le_refl pos, inside, rfl, holds⟩
      · refine meets_bind _ _ _ _ _ (keeps outer spare pos composer holds) fun item after composer' advances => ?_
        have further := advances.further
        refine meets_weaken _ _ _ _ (hypothesis _ outer spare after composer' advances.holds advances.inside (by omega)) ?_
        exact fun _ last composer'' passes => advances_passes events outer spare pos advances passes

theorem entries_meets (node : Nat → Composer → Outcome (Yaml F)) (keeps : Keeps events node) (turns : Nat) :
    ∀ (held : List (Yaml F × Yaml F)) (seen : List Text) (outer spare pos : Nat) (composer : Composer),
      Holds events outer spare pos composer → pos ≤ events.length → events.length < turns + pos →
      (entries std events node turns held seen pos composer).Meets (Within events) fun _ after composer' =>
        Passes events outer spare pos composer after composer' := by
  induction turns with
  | zero =>
      intro held seen outer spare pos composer holds inside enough
      omega
  | succ turns hypothesis =>
      intro held seen outer spare pos composer holds inside enough
      rw [entries]
      split
      · exact ⟨Nat.le_refl pos, inside, rfl, holds⟩
      · refine meets_bind _ _ _ _ _ (keeps outer spare pos composer holds) fun key middle between first => ?_
        split
        · exact holds_within events first.holds
        · refine meets_bind _ _ _ _ _ (keeps outer spare middle between first.holds) fun value after composer' second => ?_
          have advances := advances_trans events outer spare pos first second
          have further := advances.further
          refine meets_weaken _ _ _ _ (hypothesis _ _ outer spare after composer' advances.holds advances.inside (by omega)) ?_
          exact fun _ last composer'' passes =>
            advances_passes events outer spare pos advances passes

theorem holds_anchor {start : Nat} (id : Nat) {composer : Composer}
    (begins : events[start]?.any (fun entry => entry.1.begins) = true) (holds : Holds events outer spare pos composer) :
    Holds events outer spare pos (composer.anchor id start) := by
  unfold Composer.anchor
  split
  · refine ⟨fun other found here => ?_, holds.made, holds.replayed, holds.copied, holds.bytes, holds.inside⟩
    simp only [Composer.anchored, anchored_insert] at here
    by_cases same : id = other
    · rw [if_pos same] at here
      have equal : start = found := Option.some.inj here
      exact equal ▸ begins
    · rw [if_neg same] at here
      exact holds.anchors other found here
  · exact holds

theorem holds_builds {bytes : Nat} {composer : Composer} (holds : Holds events outer (spare + 1) pos composer)
    (charged : composer.replaying ≠ 0 → composer.copied + bytes ≤ composer.replayedBytes) :
    Holds events outer spare pos (composer.builds bytes) := by
  have made := holds.made
  refine ⟨holds.anchors, ?_, holds.replayed, ?_, holds.bytes, holds.inside⟩
  · have same : (composer.builds bytes).read outer pos = composer.read outer pos := rfl
    rw [same]
    simp only [Composer.builds]
    omega
  · simp only [Composer.builds]
    split
    · exact holds.copied
    · next replays => exact charged replays

theorem anchor_replaying (start : Nat) : (composer.anchor id start).replaying = composer.replaying := by
  unfold Composer.anchor
  split <;> rfl

theorem anchor_copied (start : Nat) : (composer.anchor id start).copied = composer.copied := by
  unfold Composer.anchor
  split <;> rfl

theorem anchor_bytes (start : Nat) : (composer.anchor id start).replayedBytes = composer.replayedBytes := by
  unfold Composer.anchor
  split <;> rfl

theorem holds_replay (start : Nat) (composer : Composer) (holds : Holds events outer spare pos composer) :
    Holds events (composer.read outer pos) spare start { composer with replaying := composer.replaying + 1 } := by
  have inside : ({ composer with replaying := composer.replaying + 1 } : Composer).read (composer.read outer pos) start =
      composer.read outer pos := if_neg (Nat.succ_ne_zero _)
  refine ⟨holds.anchors, ?_, holds.replayed, holds.copied, holds.bytes, ?_⟩
  · rw [inside]
    exact holds.made
  · rw [inside]
    exact holds.inside

theorem holds_return {last : Nat} {composer : Composer} (replaying : composer.replaying = before.replaying + 1)
    (holds : Holds events (before.read outer pos) (spare + 1) last composer) (inside : before.read outer pos ≤ events.length) :
    Holds events outer spare pos { composer with replaying := composer.replaying - 1 } := by
  have same : ({ composer with replaying := composer.replaying - 1 } : Composer).read outer pos = before.read outer pos := by
    rw [Composer.read, Composer.read, replaying]
    rfl
  have made := holds.made
  have replayed : composer.read (before.read outer pos) last = before.read outer pos := if_neg (by omega)
  rw [replayed] at made
  refine ⟨holds.anchors, ?_, holds.replayed, holds.copied, holds.bytes, ?_⟩
  · rw [same]
    simp only
    omega
  · rw [same]
    exact inside

theorem collection_meets {composer : Composer} (value : Yaml F)
    (passes : Passes events outer (spare + 1) pos before after composer) :
    ((take events after composer).bind fun _ last composer => .done value last (composer.builds 0)).Meets (Within events)
      fun _ last composer' => Advances events outer spare pos before last composer' := by
  refine meets_bind _ _ _ _ _ (take_meets events outer (spare + 1) after composer passes.holds) fun entry last composer' taken => ?_
  have further := passes.further
  have next := taken.next
  have inside := (List.getElem?_eq_some_iff.mp taken.read).choose
  refine ⟨by omega, by omega, taken.replaying.trans passes.replaying, ?_⟩
  apply holds_builds events outer spare last (holds_spare events outer (spare + 1 + 1)
    (Nat.le_succ _) taken.holds)
  exact fun _ => taken.holds.copied

theorem node_meets (levels : Nat) : ∀ (depth outer spare pos : Nat) (composer : Composer), depth ≤ yamlMaxDepth →
    2 * (yamlMaxDepth - depth) + 1 ≤ levels →
    (events[pos]?.any (fun entry => entry.1.begins) = true ∨ 2 * (yamlMaxDepth - depth) + 2 ≤ levels) →
    Holds events outer spare pos composer →
    (node std events levels depth pos composer).Meets (Within events) fun _ after composer' =>
      Advances events outer spare pos composer after composer' := by
  induction levels with
  | zero =>
      intro depth outer spare pos composer shallow enough
      omega
  | succ levels hypothesis =>
      intro depth outer spare pos composer shallow enough orAlias holds
      rw [node]
      refine meets_bind _ _ _ _ _ (take_meets events outer spare pos composer holds) ?_
      rintro ⟨event, span⟩ after composer' taken
      have within := holds_within events taken.holds
      have read := taken.read
      have next := taken.next
      have inside := (List.getElem?_eq_some_iff.mp read).choose
      have deeper : depth < yamlMaxDepth → Keeps events (node std events levels (depth + 1)) := by
        intro less outer' spare' pos' composer'' holds'
        exact hypothesis (depth + 1) outer' spare' pos' composer'' less (by omega) (.inr (by omega)) holds'
      cases event with
      | aliasOf id =>
          have isAlias : events[pos]?.any (fun entry => entry.1.begins) = false := by
            rw [read]
            rfl
          rw [isAlias] at orAlias
          have room : 2 * (yamlMaxDepth - depth) + 2 ≤ levels + 1 := orAlias.resolve_left Bool.false_ne_true
          simp only
          cases found : composer'.anchored id with
          | none => exact within
          | some start =>
              simp only
              have replays := holds_replay events outer (spare + 1) after start composer' taken.holds
              have meets := hypothesis depth (composer'.read outer after) (spare + 1) start _ shallow (by omega)
                (.inl (taken.holds.anchors id start found)) replays
              cases ran : node std events levels depth start { composer' with replaying := composer'.replaying + 1 } with
              | spent =>
                  rw [ran] at meets
                  exact meets
              | failed message _ last =>
                  rw [ran] at meets
                  exact ⟨meets.made, meets.copied⟩
              | done value last composer'' =>
                  rw [ran] at meets
                  have back : composer''.replaying - 1 = composer'.replaying := by
                    rw [meets.replaying]
                    rfl
                  refine ⟨by omega, by omega, back.trans taken.replaying, ?_⟩
                  exact holds_return events outer spare after meets.replaying meets.holds taken.holds.inside
      | scalar value style anchor tag =>
          simp only
          have anchored := holds_anchor events outer (spare + 1) after anchor (by rw [read]; rfl) taken.holds
          split
          · exact holds_within events anchored
          · refine ⟨by omega, by omega, (anchor_replaying composer' anchor pos).trans taken.replaying, ?_⟩
            refine holds_builds events outer spare after anchored fun replays => ?_
            rw [anchor_replaying] at replays
            have charged := taken.charged replays rfl
            rw [anchor_copied, anchor_bytes]
            exact charged
      | sequenceStart anchor tag =>
          simp only
          have anchored := holds_anchor events outer (spare + 1) after anchor (by rw [read]; rfl) taken.holds
          split
          · exact holds_within events anchored
          · next shallower =>
              refine meets_bind _ _ _ _ _ (items_meets events _ (deeper (by omega)) _ [] outer (spare + 1) after _ anchored (by omega)
                (by omega)) fun held last composer'' passes => ?_
              refine meets_weaken _ _ _ _ (collection_meets events outer spare after _ passes) ?_
              intro _ final composer3 advances
              have further := advances.further
              exact ⟨by omega, advances.inside,
                (advances.replaying.trans (anchor_replaying composer' anchor pos)).trans taken.replaying, advances.holds⟩
      | mappingStart anchor tag =>
          simp only
          have anchored := holds_anchor events outer (spare + 1) after anchor (by rw [read]; rfl) taken.holds
          split
          · exact holds_within events anchored
          · next shallower =>
              refine meets_bind _ _ _ _ _ (entries_meets std events _ (deeper (by omega)) _ [] [] outer (spare + 1) after _ anchored
                (by omega) (by omega)) fun held last composer'' passes => ?_
              refine meets_weaken _ _ _ _ (collection_meets events outer spare after _ passes) ?_
              intro _ final composer3 advances
              have further := advances.further
              exact ⟨by omega, advances.inside,
                (advances.replaying.trans (anchor_replaying composer' anchor pos)).trans taken.replaying, advances.holds⟩
      | sequenceEnd => exact within
      | mappingEnd => exact within
      | nothing => exact within

theorem holds_empty : Holds events 0 0 0 .empty :=
  ⟨fun _ _ found => (by cases found), Nat.le_refl 0, Nat.zero_le _, Nat.le_refl 0, Nat.zero_le _, Nat.zero_le _⟩

theorem compose_meets : (compose std events).Meets (Within events) fun _ after composer => Advances events 0 0 0 .empty after composer :=
  node_meets std events allLevels 0 0 0 0 .empty (Nat.zero_le _) (by decide) (.inr (by decide)) (holds_empty events)

end Filefacts.Structured
