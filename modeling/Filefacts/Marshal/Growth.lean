import Filefacts.Marshal.Walker

set_option autoImplicit false

namespace Filefacts.Marshal.Loader

-- What a read does to the state: it moves on inside the stream, what is written down is only added to, and the
-- objects before the bound stay as they are.
structure Grows (data : List UInt8) (bound : Nat) (st next : State) : Prop where
  pos : st.pos ≤ next.pos
  fits : st.pos ≤ data.length → next.pos ≤ data.length
  steps : st.steps ≤ next.steps
  deepest : st.deepest ≤ next.deepest
  references : st.references <+: next.references
  singletons : st.singletons <+: next.singletons
  strays : st.strays ≤ next.strays
  heap : ∀ object, object < bound → next.heap object = st.heap object

variable (data : List UInt8) (bound : Nat) (st : State) (pos : Nat) (child : State → Result Nat)

theorem grows_refl : Grows data bound st st :=
  ⟨Nat.le_refl _, id, Nat.le_refl _, Nat.le_refl _, List.prefix_rfl, List.prefix_rfl, Nat.le_refl _, fun _ _ => rfl⟩

theorem grows_trans (first middle last : State) (before : Grows data bound first middle)
    (after : Grows data bound middle last) : Grows data bound first last :=
  ⟨Nat.le_trans before.pos after.pos, fun inside => after.fits (before.fits inside),
    Nat.le_trans before.steps after.steps, Nat.le_trans before.deepest after.deepest,
    before.references.trans after.references, before.singletons.trans after.singletons,
    Nat.le_trans before.strays after.strays,
    fun object early => (after.heap object early).trans (before.heap object early)⟩

theorem grows_moved (onward : st.pos ≤ pos) (inside : pos ≤ data.length) : Grows data bound st { st with pos := pos } :=
  ⟨onward, fun _ => inside, Nat.le_refl _, Nat.le_refl _, List.prefix_rfl, List.prefix_rfl, Nat.le_refl _, fun _ _ => rfl⟩

theorem grows_refer (flag : Bool) (object : Nat) (there : Bool) : Grows data bound st (st.refer flag object there) := by
  cases flag with
  | false => exact grows_refl data bound st
  | true =>
      exact ⟨Nat.le_refl _, id, Nat.le_refl _, Nat.le_refl _, List.prefix_rfl, List.prefix_rfl, Nat.le_refl _, fun _ _ => rfl⟩

theorem grows_insert (object : Nat) : Grows data bound st (st.insert object) :=
  ⟨Nat.le_refl _, id, Nat.le_refl _, Nat.le_refl _, List.prefix_rfl, List.prefix_rfl, Nat.le_refl _, fun _ _ => rfl⟩

-- Every outcome of a read but an exception is a growth of the state.
def Growing {α : Type} (data : List UInt8) (bound : Nat) (st : State) (result : Result α) : Prop :=
  ∀ value next, result = some (value, next) → Grows data bound st next

theorem growing_and_then {α β : Type} (data : List UInt8) (bound : Nat) (st : State) (result : Result α)
    (continue_ : α → State → Result β) (first : Growing data bound st result)
    (rest : ∀ value next, result = some (some value, next) → Grows data bound st next →
      Growing data bound st (continue_ value next)) :
    Growing data bound st (Result.andThen result continue_) := by
  intro value next done
  match result, first, rest, done with
  | some (none, middle), first, _, done =>
      obtain ⟨-, rfl⟩ := Prod.mk.inj (Option.some.inj done)
      exact first none middle rfl
  | some (some found, middle), first, rest, done =>
      exact rest found middle rfl (first (some found) middle rfl) value next done

theorem growing_strict {α : Type} (data : List UInt8) (bound : Nat) (st : State) (result : Result α)
    (first : Growing data bound st result) : Growing data bound st (Result.strict result) := by
  intro value next done
  match result, first, done with
  | some (some found, middle), first, done =>
      obtain ⟨-, rfl⟩ := Prod.mk.inj (Option.some.inj done)
      exact first (some found) middle rfl

theorem growing_ending {α : Type} (data : List UInt8) (bound : Nat) (st : State) (result : Result (List α))
    (first : Growing data bound st result) : Growing data bound st (Result.ending result) := by
  intro value next done
  match result, first, done with
  | some (none, middle), first, done =>
      obtain ⟨-, rfl⟩ := Prod.mk.inj (Option.some.inj done)
      exact first none middle rfl
  | some (some found, middle), first, done =>
      obtain ⟨-, rfl⟩ := Prod.mk.inj (Option.some.inj done)
      exact first (some found) middle rfl

theorem growing_after {α : Type} (data : List UInt8) (bound : Nat) (st middle : State) (result : Result α)
    (before : Grows data bound st middle) (after : Growing data bound middle result) : Growing data bound st result := by
  intro value next done
  exact grows_trans data bound st middle next before (after value next done)

def Counted {α : Type} (st : State) (result : Result α) : Prop :=
  ∀ next, result = some (none, next) → st.strays < next.strays

structure Advances (data : List UInt8) (child : State → Result Nat) : Prop where
  grows : ∀ bound st, bound ≤ st.pos → Growing data bound st (child st)
  octet : ∀ st object next, child st = some (some object, next) → st.pos + 1 ≤ next.pos
  step : ∀ st object next, child st = some (some object, next) → st.steps + 1 ≤ next.steps
  counted : ∀ st, Counted st (child st)

theorem counted_and_then {α β : Type} (data : List UInt8) (st : State) (result : Result α)
    (continue_ : α → State → Result β) (grown : Growing data 0 st result) (first : Counted st result)
    (rest : ∀ value next, result = some (some value, next) → Counted next (continue_ value next)) :
    Counted st (Result.andThen result continue_) := by
  intro next done
  match result, grown, first, rest, done with
  | some (none, middle), _, first, _, done =>
      obtain ⟨-, rfl⟩ := Prod.mk.inj (Option.some.inj done)
      exact first middle rfl
  | some (some found, middle), grown, _, rest, done =>
      exact Nat.lt_of_le_of_lt (grown (some found) middle rfl).strays (rest found middle rfl next done)

theorem done_counted {α : Type} (st next : State) (value : α) : Counted st (some (some value, next)) := by
  intro last done
  cases (Prod.mk.inj (Option.some.inj done)).1

theorem u8_inside {octet : Nat} (there : Bytes.u8 data pos = some octet) : pos + 1 ≤ data.length := by
  obtain ⟨b, present, _⟩ := Option.map_eq_some_iff.mp there
  exact (List.getElem?_eq_some_iff.mp present).1

theorem u32_inside (number : Nat) (there : Bytes.u32le data pos = some number) : pos + 4 ≤ data.length := by
  obtain ⟨field, present, _⟩ := Option.map_eq_some_iff.mp there
  unfold Bytes.arrayAt at present
  split at present
  · assumption
  · cases present

theorem within_some (stop found : Nat) (there : within data stop = some found) : found = stop ∧ stop ≤ data.length := by
  unfold within at there
  split at there
  · exact ⟨(Option.some.inj there).symm, by assumption⟩
  · cases there

theorem size_inside {small : Bool} {count stop : Nat}
    (there : size data pos small = some (count, stop)) : pos ≤ stop ∧ stop ≤ data.length := by
  cases small with
  | true =>
      obtain ⟨octet, present, found⟩ := Option.map_eq_some_iff.mp there
      obtain ⟨-, rfl⟩ := Prod.mk.inj found
      exact ⟨Nat.le_succ pos, u8_inside data pos present⟩
  | false =>
      obtain ⟨number, present, found⟩ := Option.bind_eq_some_iff.mp there
      obtain ⟨raw, read, _⟩ := Option.map_eq_some_iff.mp present
      have inside := u32_inside data pos raw read
      split at found
      · cases found
      · obtain ⟨-, rfl⟩ := Prod.mk.inj (Option.some.inj found)
        exact ⟨Nat.le_add_right pos 4, inside⟩

theorem float_text_inside (stop : Nat) (there : floatText data pos = some stop) : pos ≤ stop ∧ stop ≤ data.length := by
  obtain ⟨⟨count, start⟩, sized, found⟩ := Option.bind_eq_some_iff.mp there
  have onward := size_inside data pos sized
  obtain ⟨rfl, inside⟩ := within_some data _ stop found
  omega

theorem payload_inside {type : TypeCode} {range : Nat × Nat} (inside : pos ≤ data.length)
    (there : payload data pos type = some range) : pos ≤ range.2 ∧ range.2 ≤ data.length := by
  have fixed : ∀ width, (within data (pos + width)).map (pos, ·) = some range → pos ≤ range.2 ∧ range.2 ≤ data.length := by
    intro width found
    obtain ⟨stop, fits, rfl⟩ := Option.map_eq_some_iff.mp found
    obtain ⟨rfl, room⟩ := within_some data _ stop fits
    exact ⟨Nat.le_add_right pos width, room⟩
  have sized : ∀ small, ((size data pos small).bind fun found => (within data (found.2 + found.1)).map (found.2, ·)) =
      some range → pos ≤ range.2 ∧ range.2 ≤ data.length := by
    intro small found
    obtain ⟨⟨count, start⟩, read, found⟩ := Option.bind_eq_some_iff.mp found
    have onward := size_inside data pos read
    obtain ⟨stop, fits, rfl⟩ := Option.map_eq_some_iff.mp found
    obtain ⟨rfl, room⟩ := within_some data _ stop fits
    omega
  cases type with
  | singleton =>
      obtain rfl := Option.some.inj there
      exact ⟨Nat.le_refl pos, inside⟩
  | int => exact fixed 4 there
  | int64 => exact fixed 8 there
  | binaryFloat => exact fixed 8 there
  | binaryComplex => exact fixed 16 there
  | long =>
      obtain ⟨digits, _, found⟩ := Option.bind_eq_some_iff.mp there
      split at found
      · cases found
      · rw [Nat.add_assoc] at found
        exact fixed _ found
  | float =>
      obtain ⟨stop, read, rfl⟩ := Option.map_eq_some_iff.mp there
      exact float_text_inside data pos stop read
  | complex =>
      obtain ⟨stop, both, rfl⟩ := Option.map_eq_some_iff.mp there
      obtain ⟨middle, real, imaginary⟩ := Option.bind_eq_some_iff.mp both
      have first := float_text_inside data pos middle real
      have second := float_text_inside data middle stop imaginary
      exact ⟨Nat.le_trans first.1 second.1, second.2⟩
  | string => exact sized false there
  | unicode small => exact sized small there
  | null => cases there
  | tuple small => cases there
  | list => cases there
  | dict => cases there
  | set frozen => cases there
  | slice => cases there
  | code => cases there
  | ref => cases there

theorem objects_grow (advances : Advances data child)
    (count : Nat) : ∀ st, bound ≤ st.pos → Growing data bound st (objects child count st) := by
  induction count with
  | zero =>
      intro st _ value next done
      obtain ⟨-, rfl⟩ := Prod.mk.inj (Option.some.inj done)
      exact grows_refl data bound st
  | succ count ih =>
      intro st early
      apply growing_and_then data bound st _ _ (advances.grows bound st early)
      intro object next _ first
      have behind := ih next (Nat.le_trans early first.pos)
      apply growing_and_then data bound st _ _ (growing_after data bound st next _ first behind)
      intro rest last _ second value final done
      obtain ⟨-, rfl⟩ := Prod.mk.inj (Option.some.inj done)
      exact second

theorem objects_counted {data : List UInt8} {child : State → Result Nat} (advances : Advances data child) (count : Nat) :
    ∀ st, Counted st (objects child count st) := by
  induction count with
  | zero =>
      intro st
      exact done_counted st st []
  | succ count ih =>
      intro st
      apply counted_and_then data st _ _ (advances.grows 0 st (Nat.zero_le _)) (advances.counted st)
      intro object next _
      apply counted_and_then data next _ _ (objects_grow data 0 child advances count next (Nat.zero_le _)) (ih next)
      intro rest last _
      exact done_counted last last (object :: rest)

theorem and_then_some {α β : Type} (result : Result α) (continue_ : α → State → Result β) (value : β) (next : State)
    (done : Result.andThen result continue_ = some (some value, next)) :
    ∃ first middle, result = some (some first, middle) ∧ continue_ first middle = some (some value, next) := by
  match result, done with
  | some (some first, middle), done => exact ⟨first, middle, rfl, done⟩

theorem objects_advance (data : List UInt8) (child : State → Result Nat) (advances : Advances data child) (count : Nat) :
    ∀ st list next, objects child count st = some (some list, next) →
      st.pos + count ≤ next.pos ∧ st.steps + count ≤ next.steps := by
  induction count with
  | zero =>
      intro st list next done
      obtain ⟨-, rfl⟩ := Prod.mk.inj (Option.some.inj done)
      exact ⟨Nat.le_refl _, Nat.le_refl _⟩
  | succ count ih =>
      intro st list next done
      obtain ⟨object, middle, first, done⟩ := and_then_some _ _ list next done
      obtain ⟨rest, last, second, done⟩ := and_then_some _ _ list next done
      obtain ⟨-, rfl⟩ := Prod.mk.inj (Option.some.inj done)
      have octet := advances.octet st object middle first
      have step := advances.step st object middle first
      have behind := ih middle rest last second
      omega

theorem sized_grows (small : Bool) (child : State → Result Nat)
    (advances : Advances data child) (st : State) (early : bound ≤ st.pos) :
    Growing data bound st (sized data small child st) := by
  unfold sized
  split
  · intro value next done
    cases done
  · next count pos found =>
      have onward := size_inside data st.pos found
      have list := objects_grow data bound child advances count { st with pos := pos } (Nat.le_trans early onward.1)
      apply growing_after data bound st { st with pos := pos } _ (grows_moved data bound st pos onward.1 onward.2)
      exact growing_strict data bound _ _ list

theorem pairs_grow (advances : Advances data child)
    (budget : Nat) : ∀ st, bound ≤ st.pos → Growing data bound st (pairs data child budget st) := by
  induction budget with
  | zero =>
      intro st _ value next done
      cases done
  | succ budget ih =>
      intro st early
      rw [pairs]
      split
      · next ends =>
          intro value next done
          obtain ⟨-, rfl⟩ := Prod.mk.inj (Option.some.inj done)
          exact grows_moved data bound st _ (Nat.le_succ _) (u8_inside data st.pos ends)
      · apply growing_ending
        apply growing_and_then data bound st _ _ (advances.grows bound st early)
        intro key first _ keyed
        have object := advances.grows bound first (Nat.le_trans early keyed.pos)
        apply growing_and_then data bound st _ _ (growing_after data bound st first _ keyed object)
        intro found second _ valued
        have behind := ih second (Nat.le_trans early valued.pos)
        apply growing_and_then data bound st _ _ (growing_after data bound st second _ valued behind)
        intro rest third _ grown value next done
        obtain ⟨-, rfl⟩ := Prod.mk.inj (Option.some.inj done)
        exact grown

theorem words_length (count : Nat) : ∀ pos list, words data count pos = some list → list.length = count := by
  induction count with
  | zero =>
      intro pos list found
      obtain rfl := Option.some.inj found
      rfl
  | succ count ih =>
      intro pos list found
      obtain ⟨number, _, more⟩ := Option.bind_eq_some_iff.mp found
      obtain ⟨rest, behind, rfl⟩ := Option.map_eq_some_iff.mp more
      exact congrArg Nat.succ (ih (pos + 4) rest behind)

theorem words_inside (count : Nat) : ∀ pos list, pos ≤ data.length → words data count pos = some list →
    pos + 4 * count ≤ data.length := by
  induction count with
  | zero =>
      intro pos list inside _
      exact inside
  | succ count ih =>
      intro pos list inside found
      obtain ⟨number, read, more⟩ := Option.bind_eq_some_iff.mp found
      obtain ⟨rest, behind, _⟩ := Option.map_eq_some_iff.mp more
      have room := ih (pos + 4) rest (u32_inside data pos number read) behind
      omega

-- What a chain of reads keeps, from its last link on.
structure Steady {α : Type} (data : List UInt8) (bound : Nat) (st : State) (result : Result α) : Prop where
  grows : Growing data bound st result
  counted : Counted st result

theorem steady_and_then {α β : Type} (data : List UInt8) (bound : Nat) (st : State) (result : Result α)
    (continue_ : α → State → Result β) (early : bound ≤ st.pos) (first : Steady data bound st result)
    (rest : ∀ value next, bound ≤ next.pos → Steady data bound next (continue_ value next)) :
    Steady data bound st (Result.andThen result continue_) := by
  constructor
  · apply growing_and_then data bound st result continue_ first.grows
    intro value next _ before
    exact growing_after data bound st next _ before (rest value next (Nat.le_trans early before.pos)).grows
  · intro next done
    match result, first, done with
    | some (none, middle), first, done =>
        obtain ⟨-, rfl⟩ := Prod.mk.inj (Option.some.inj done)
        exact first.counted middle rfl
    | some (some found, middle), first, done =>
        have before := first.grows (some found) middle rfl
        exact Nat.lt_of_le_of_lt before.strays ((rest found middle (Nat.le_trans early before.pos)).counted next done)

theorem record_steady (fields : CodeFields) (st : State) : Steady data bound st (fields.record st) := by
  refine ⟨?_, done_counted st _ fields⟩
  intro value next done
  obtain ⟨-, rfl⟩ := Prod.mk.inj (Option.some.inj done)
  exact ⟨Nat.le_refl _, id, Nat.le_refl _, Nat.le_refl _, List.prefix_rfl, List.prefix_rfl, Nat.le_refl _, fun _ _ => rfl⟩

section
variable {α : Type} (data : List UInt8) (bound : Nat) (child : State → Result Nat) (advances : Advances data child)

include advances

theorem steady_object (continue_ : Nat → State → Result α)
    (rest : ∀ value next, bound ≤ next.pos → Steady data bound next (continue_ value next)) (st : State)
    (early : bound ≤ st.pos) : Steady data bound st (Result.andThen (child st) continue_) :=
  steady_and_then data bound st _ continue_ early ⟨advances.grows bound st early, advances.counted st⟩ rest

theorem steady_objects (count : Nat) (continue_ : List Nat → State → Result α)
    (rest : ∀ value next, bound ≤ next.pos → Steady data bound next (continue_ value next)) (st : State)
    (early : bound ≤ st.pos) : Steady data bound st (Result.andThen (objects child count st) continue_) :=
  steady_and_then data bound st _ continue_ early
    ⟨objects_grow data bound child advances count st early, objects_counted advances count st⟩ rest

end

theorem steady_moved {α : Type} (data : List UInt8) (bound width : Nat) (continue_ : State → Result α)
    (rest : ∀ next, bound ≤ next.pos → Steady data bound next (continue_ next)) (st : State) (early : bound ≤ st.pos) :
    Steady data bound st ((within data (st.pos + width)).bind fun stop => continue_ { st with pos := stop }) := by
  have bounded : ∀ value next, ((within data (st.pos + width)).bind fun stop => continue_ { st with pos := stop }) =
      some (value, next) → Grows data bound st next ∧ (value = none → st.strays < next.strays) := by
    intro value next done
    obtain ⟨stop, fits, done⟩ := Option.bind_eq_some_iff.mp done
    obtain ⟨rfl, room⟩ := within_some data _ stop fits
    have moved := grows_moved data bound st _ (Nat.le_add_right _ width) room
    have steady := rest { st with pos := st.pos + width } (Nat.le_trans early moved.pos)
    refine ⟨grows_trans data bound st _ next moved (steady.grows value next done), ?_⟩
    rintro rfl
    exact steady.counted next done
  exact ⟨fun value next done => (bounded value next done).1, fun next done => (bounded none next done).2 rfl⟩

section
variable (data : List UInt8) (bound minor : Nat) (child : State → Result Nat) (advances : Advances data child)

include advances

theorem exceptions_steady (fields : List Nat → CodeFields) (st : State) (early : bound ≤ st.pos) :
    Steady data bound st (Result.andThen (objects child (if minor ≤ 10 then 0 else 1) st) fun exceptions st =>
      (fields exceptions).record st) :=
  steady_objects data bound child advances _ _ (fun exceptions next _ => record_steady data bound (fields exceptions) next) st early

theorem line_table_steady (fields : Nat → List Nat → CodeFields) (st : State) (early : bound ≤ st.pos) :
    Steady data bound st (Result.andThen (child st) fun lineTable st =>
      Result.andThen (objects child (if minor ≤ 10 then 0 else 1) st) fun exceptions st =>
        (fields lineTable exceptions).record st) :=
  steady_object data bound child advances _ (fun lineTable => exceptions_steady data bound minor child advances (fields lineTable))
    st early

theorem first_line_steady (fields : Nat → List Nat → CodeFields) (st : State) (early : bound ≤ st.pos) :
    Steady data bound st ((within data (st.pos + 4)).bind fun stop =>
      Result.andThen (child { st with pos := stop }) fun lineTable st =>
      Result.andThen (objects child (if minor ≤ 10 then 0 else 1) st) fun exceptions st =>
        (fields lineTable exceptions).record st) :=
  steady_moved data bound 4 _ (line_table_steady data bound minor child advances fields) st early

theorem qualified_steady (fields : List Nat → Nat → List Nat → CodeFields) (st : State) (early : bound ≤ st.pos) :
    Steady data bound st (Result.andThen (objects child (if minor ≤ 10 then 0 else 1) st) fun qualified st =>
      (within data (st.pos + 4)).bind fun stop =>
      Result.andThen (child { st with pos := stop }) fun lineTable st =>
      Result.andThen (objects child (if minor ≤ 10 then 0 else 1) st) fun exceptions st =>
        (fields qualified lineTable exceptions).record st) :=
  steady_objects data bound child advances _ _
    (fun qualified => first_line_steady data bound minor child advances (fields qualified)) st early

theorem name_steady (fields : Nat → List Nat → Nat → List Nat → CodeFields) (st : State) (early : bound ≤ st.pos) :
    Steady data bound st (Result.andThen (child st) fun name st =>
      Result.andThen (objects child (if minor ≤ 10 then 0 else 1) st) fun qualified st =>
      (within data (st.pos + 4)).bind fun stop =>
      Result.andThen (child { st with pos := stop }) fun lineTable st =>
      Result.andThen (objects child (if minor ≤ 10 then 0 else 1) st) fun exceptions st =>
        (fields name qualified lineTable exceptions).record st) :=
  steady_object data bound child advances _ (fun name => qualified_steady data bound minor child advances (fields name)) st early

theorem filename_steady (fields : Nat → Nat → List Nat → Nat → List Nat → CodeFields) (st : State) (early : bound ≤ st.pos) :
    Steady data bound st (Result.andThen (child st) fun filename st =>
      Result.andThen (child st) fun name st =>
      Result.andThen (objects child (if minor ≤ 10 then 0 else 1) st) fun qualified st =>
      (within data (st.pos + 4)).bind fun stop =>
      Result.andThen (child { st with pos := stop }) fun lineTable st =>
      Result.andThen (objects child (if minor ≤ 10 then 0 else 1) st) fun exceptions st =>
        (fields filename name qualified lineTable exceptions).record st) :=
  steady_object data bound child advances _ (fun filename => name_steady data bound minor child advances (fields filename)) st early

theorem locals_steady (fields : List Nat → Nat → Nat → List Nat → Nat → List Nat → CodeFields) (st : State)
    (early : bound ≤ st.pos) :
    Steady data bound st (Result.andThen (objects child (if minor ≤ 10 then 3 else 2) st) fun locals st =>
      Result.andThen (child st) fun filename st =>
      Result.andThen (child st) fun name st =>
      Result.andThen (objects child (if minor ≤ 10 then 0 else 1) st) fun qualified st =>
      (within data (st.pos + 4)).bind fun stop =>
      Result.andThen (child { st with pos := stop }) fun lineTable st =>
      Result.andThen (objects child (if minor ≤ 10 then 0 else 1) st) fun exceptions st =>
        (fields locals filename name qualified lineTable exceptions).record st) :=
  steady_objects data bound child advances _ _ (fun locals => filename_steady data bound minor child advances (fields locals))
    st early

theorem code_tail_steady (header : List Nat) (code constants : Nat) (st : State) (early : bound ≤ st.pos) :
    Steady data bound st (codeTail data minor child header code constants st) :=
  steady_object data bound child advances _ (fun names => locals_steady data bound minor child advances _) st early

end

variable (minor : Nat) (constructors : Constructors)

theorem code_tail_parts {child : State → Result Nat} {header : List Nat}
    {code constants : Nat} {st : State} {fields : CodeFields} {next : State}
    (done : codeTail data minor child header code constants st = some (some fields, next)) :
    fields.code = code ∧ fields.constants = constants ∧ fields.words = header := by
  obtain ⟨names, first, _, done⟩ := and_then_some _ _ fields next done
  obtain ⟨locals, second, _, done⟩ := and_then_some _ _ fields next done
  obtain ⟨filename, third, _, done⟩ := and_then_some _ _ fields next done
  obtain ⟨name, fourth, _, done⟩ := and_then_some _ _ fields next done
  obtain ⟨qualified, fifth, _, done⟩ := and_then_some _ _ fields next done
  obtain ⟨stop, _, done⟩ := Option.bind_eq_some_iff.mp done
  obtain ⟨lineTable, sixth, _, done⟩ := and_then_some _ _ fields next done
  obtain ⟨exceptions, last, _, done⟩ := and_then_some _ _ fields next done
  obtain ⟨made, -⟩ := Prod.mk.inj (Option.some.inj done)
  obtain rfl := Option.some.inj made
  exact ⟨rfl, rfl, rfl⟩

theorem code_fields_grow {child : State → Result Nat}
    (advances : Advances data child) {st : State} (early : bound ≤ st.pos) (inside : st.pos ≤ data.length) :
    Growing data bound st (codeFields data minor child st) := by
  unfold codeFields
  split
  · intro value next done
    cases done
  · next header found =>
      have room := words_inside data _ st.pos header inside found
      rw [← words_length data _ st.pos header found] at room
      have moved := grows_moved data bound st _ (Nat.le_add_right _ (4 * header.length)) room
      have object := advances.grows bound { st with pos := st.pos + 4 * header.length } (Nat.le_trans early moved.pos)
      apply growing_and_then data bound st _ _ (growing_after data bound st _ _ moved object)
      intro code first _ coded
      have object := advances.grows bound first (Nat.le_trans early coded.pos)
      apply growing_and_then data bound st _ _ (growing_after data bound st first _ coded object)
      intro constants second _ held
      have behind := (code_tail_steady data bound minor child advances header code constants second (Nat.le_trans early held.pos)).grows
      exact growing_after data bound st second _ held behind

theorem code_fields_counted (child : State → Result Nat) (advances : Advances data child)
    (st : State) : Counted st (codeFields data minor child st) := by
  unfold codeFields
  split
  · intro next done
    cases done
  · next header found =>
      have grown := advances.grows 0 { st with pos := st.pos + 4 * header.length } (Nat.zero_le _)
      have counted := advances.counted { st with pos := st.pos + 4 * header.length }
      apply counted_and_then data { st with pos := st.pos + 4 * header.length } _ _ grown counted
      intro code first _
      apply counted_and_then data first _ _ (advances.grows 0 first (Nat.zero_le _)) (advances.counted first)
      intro constants second _
      exact (code_tail_steady data 0 minor child advances header code constants second (Nat.zero_le _)).counted

theorem make_grows {data : List UInt8} {bound object : Nat} (made : Made) {st middle : State}
    (before : Grows data bound st middle) (behind : bound ≤ object) :
    Growing data bound st (make constructors data object made middle) := by
  intro value next done
  unfold make at done
  split at done
  · obtain ⟨-, rfl⟩ := Prod.mk.inj (Option.some.inj done)
    refine ⟨before.pos, before.fits, before.steps, before.deepest, before.references, before.singletons, before.strays, ?_⟩
    intro other early
    have differ : (other == object) = false := beq_false_of_ne (by omega)
    have looked : ((object, made) :: middle.objects).lookup other = middle.objects.lookup other := by
      rw [List.lookup_cons, differ]
    exact looked.trans (before.heap other early)
  · cases done

theorem make_counted (data : List UInt8) (object : Nat) (made : Made) (st middle : State) :
    Counted st (make constructors data object made middle) := by
  intro next done
  unfold make at done
  split at done
  · cases (Prod.mk.inj (Option.some.inj done)).1
  · cases done

theorem build_grows {data : List UInt8} {bound : Nat} (minor : Nat) {child : State → Result Nat}
    (advances : Advances data child) (type : TypeCode) (flag : Bool) {object : Nat} {st : State}
    (early : bound ≤ st.pos) (behind : bound ≤ object) (inside : st.pos ≤ data.length) :
    Growing data bound st (build constructors data minor child type flag object st) := by
  have referred : ∀ there, Grows data bound st (st.refer flag object there) := grows_refer data bound st flag object
  have early : ∀ there, bound ≤ (st.refer flag object there).pos := fun there => Nat.le_trans early (referred there).pos
  have inserted := fun next => grows_insert data bound next object
  have plain : Growing data bound st ((payload data st.pos type).bind fun range =>
      make constructors data object (.plain type range.1 range.2)
        { st.refer flag object true with pos := range.2 }) := by
    intro value next done
    obtain ⟨range, found, done⟩ := Option.bind_eq_some_iff.mp done
    have onward := payload_inside data st.pos inside found
    refine make_grows constructors _ ?_ behind value next done
    apply grows_trans data bound st _ _ (referred true)
    apply grows_moved data bound _ range.2 _ onward.2
    cases flag <;> exact onward.1
  have filled : ∀ small there (made : List Nat → Made) (post : State → State), (∀ next, Grows data bound next (post next)) →
      Growing data bound st (Result.andThen (sized data small child (st.refer flag object there)) fun list st =>
        make constructors data object (made list) (post st)) := by
    intro small there made post kept
    have list := sized_grows data bound small child advances _ (early there)
    apply growing_and_then data bound st _ _ (growing_after data bound st _ _ (referred there) list)
    intro list next _ grown
    exact make_grows constructors _ (grows_trans data bound st next _ grown (kept next)) behind
  cases type with
  | null =>
      intro value next done
      cases done
  | ref =>
      intro value next done
      obtain ⟨⟨index, pos⟩, sized, done⟩ := Option.bind_eq_some_iff.mp done
      have onward := size_inside data st.pos sized
      split at done
      · obtain ⟨-, rfl⟩ := Prod.mk.inj (Option.some.inj done)
        exact ⟨onward.1, fun _ => onward.2, Nat.le_refl _, Nat.le_refl _, List.prefix_append _ _, List.prefix_rfl,
          Nat.le_refl _, fun _ _ => rfl⟩
      · cases done
  | singleton =>
      refine make_grows constructors _ ?_ behind
      cases flag with
      | false => exact grows_refl data bound st
      | true =>
          exact ⟨Nat.le_refl _, id, Nat.le_refl _, Nat.le_refl _, List.prefix_rfl, List.prefix_append _ _, Nat.le_refl _,
            fun _ _ => rfl⟩
  | tuple small => exact filled small true .tuple id (grows_refl data bound)
  | list => exact filled false true .list id (grows_refl data bound)
  | dict =>
      have entries := pairs_grow data bound child advances (data.length - st.pos + 1) _ (early true)
      apply growing_and_then data bound st _ _ (growing_after data bound st _ _ (referred true) entries)
      intro entries next _ grown
      exact make_grows constructors _ grown behind
  | set frozen => exact filled false (!frozen) (.set frozen) (fun next => next.insert object) inserted
  | slice =>
      have parts := objects_grow data bound child advances 3 _ (early false)
      apply growing_and_then data bound st _ _ (growing_after data bound st _ _ (referred false) parts)
      intro parts next _ grown
      exact make_grows constructors _ (grows_trans data bound st next _ grown (inserted next)) behind
  | code =>
      have fields := code_fields_grow data bound minor advances (early false)
        ((referred false).fits inside)
      apply growing_and_then data bound st _ _ (growing_after data bound st _ _ (referred false) fields)
      intro made next _ grown
      exact make_grows constructors _ (grows_trans data bound st next _ grown (inserted next)) behind
  | int => exact plain
  | int64 => exact plain
  | long => exact plain
  | float => exact plain
  | binaryFloat => exact plain
  | complex => exact plain
  | binaryComplex => exact plain
  | string => exact plain
  | unicode small => exact plain

theorem strict_counted {α : Type} (st : State) (result : Result α) : Counted st (Result.strict result) := by
  intro next done
  match result, done with
  | some (some _, _), done => cases (Prod.mk.inj (Option.some.inj done)).1

theorem pairs_counted (budget : Nat) (st base : State) : Counted base (pairs data child budget st) := by
  intro next done
  cases budget with
  | zero => cases done
  | succ budget =>
      rw [pairs] at done
      split at done
      · cases (Prod.mk.inj (Option.some.inj done)).1
      · unfold Result.ending at done
        split at done
        · cases (Prod.mk.inj (Option.some.inj done)).1
        · next other => exact absurd done (other next)

theorem build_counted {data : List UInt8} (minor : Nat) {child : State → Result Nat}
    (advances : Advances data child) (type : TypeCode) (flag : Bool) (object : Nat) {st : State}
    (inside : st.pos ≤ data.length) : Counted st (build constructors data minor child type flag object st) := by
  have plain : Counted st ((payload data st.pos type).bind fun range =>
      make constructors data object (.plain type range.1 range.2)
        { st.refer flag object true with pos := range.2 }) := by
    intro next done
    obtain ⟨range, _, done⟩ := Option.bind_eq_some_iff.mp done
    exact make_counted constructors data object _ st _ next done
  have compound : ∀ {α : Type} there (first : State → Result α) (made : α → Made) (post : State → State),
      Growing data 0 (st.refer flag object there) (first (st.refer flag object there)) →
      Counted (st.refer flag object there) (first (st.refer flag object there)) →
      Counted st (Result.andThen (first (st.refer flag object there)) fun parts st =>
        make constructors data object (made parts) (post st)) := by
    intro α there first made post grown counted next done
    apply Nat.lt_of_le_of_lt (grows_refer data 0 st flag object there).strays
    refine counted_and_then data (st.refer flag object there) _ _ grown counted ?_ next done
    intro parts middle _
    exact make_counted constructors data object _ middle _
  have filled : ∀ small there (made : List Nat → Made) (post : State → State), Counted st
      (Result.andThen (sized data small child (st.refer flag object there)) fun list st =>
        make constructors data object (made list) (post st)) := by
    intro small there made post
    apply compound there (sized data small child) made post (sized_grows data 0 small child advances _ (Nat.zero_le _))
    unfold sized
    split
    · intro next done
      cases done
    · exact strict_counted _ _
  cases type with
  | null =>
      intro next done
      cases done
  | ref =>
      intro next done
      obtain ⟨⟨index, pos⟩, _, done⟩ := Option.bind_eq_some_iff.mp done
      split at done
      · cases (Prod.mk.inj (Option.some.inj done)).1
      · cases done
  | singleton => exact make_counted constructors data object _ st _
  | tuple small => exact filled small true .tuple id
  | list => exact filled false true .list id
  | dict =>
      exact compound true (pairs data child (data.length - st.pos + 1)) .dict id
        (pairs_grow data 0 child advances _ _ (Nat.zero_le _)) (pairs_counted data child _ _ _)
  | set frozen => exact filled false (!frozen) (.set frozen) fun st => st.insert object
  | slice =>
      exact compound false (objects child 3) .slice (fun st => st.insert object)
        (objects_grow data 0 child advances 3 _ (Nat.zero_le _)) (objects_counted advances 3 _)
  | code =>
      have room := (grows_refer data 0 st flag object false).fits inside
      exact compound false (codeFields data minor child) .code (fun st => st.insert object)
        (code_fields_grow data 0 minor advances (Nat.zero_le _) room) (code_fields_counted data minor child advances _)
  | int => exact plain
  | int64 => exact plain
  | long => exact plain
  | float => exact plain
  | binaryFloat => exact plain
  | complex => exact plain
  | binaryComplex => exact plain
  | string => exact plain
  | unicode small => exact plain

def State.met (st : State) (depth : Nat) : State :=
  { st with pos := st.pos + 1, steps := st.steps + 1, deepest := max st.deepest depth }

theorem r_object_cases {data : List UInt8} {minor levels depth : Nat} {st : State}
    {value : Option Nat} {next : State} (done : rObject constructors data minor (levels + 1) depth st = some (value, next)) :
    ∃ octet type, Bytes.u8 data st.pos = some octet ∧ typeCode minor (octet % 128) = some type ∧
      ((type = .null ∧ value = none ∧ next = { st with pos := st.pos + 1, strays := st.strays + 1 }) ∨
        type ≠ .null ∧ build constructors data minor (rObject constructors data minor levels (depth + 1)) type
          (128 ≤ octet) st.pos (st.met depth) = some (value, next)) := by
  obtain ⟨octet, there, done⟩ := Option.bind_eq_some_iff.mp done
  obtain ⟨type, known, done⟩ := Option.bind_eq_some_iff.mp done
  refine ⟨octet, type, there, known, ?_⟩
  split at done
  · next null =>
      obtain ⟨rfl, rfl⟩ := Prod.mk.inj (Option.some.inj done)
      exact Or.inl ⟨null, rfl, rfl⟩
  · next other => exact Or.inr ⟨other, done⟩

theorem met_grows (depth : Nat) (inside : st.pos + 1 ≤ data.length) : Grows data bound st (st.met depth) :=
  ⟨Nat.le_succ _, fun _ => inside, Nat.le_succ _, Nat.le_max_left _ _, List.prefix_rfl, List.prefix_rfl,
    Nat.le_refl _, fun _ _ => rfl⟩

theorem r_object_advances (data : List UInt8) (minor levels : Nat) :
    ∀ depth, Advances data (rObject constructors data minor levels depth) := by
  induction levels with
  | zero =>
      intro depth
      refine ⟨?_, ?_, ?_, ?_⟩
      · intro bound st early value next done
        cases done
      · intro st object next done
        cases done
      · intro st object next done
        cases done
      · intro st next done
        cases done
  | succ levels ih =>
      intro depth
      have object : ∀ st object next, rObject constructors data minor (levels + 1) depth st = some (some object, next) →
          Grows data st.pos (st.met depth) next := by
        intro st object next done
        obtain ⟨octet, type, there, _, null | built⟩ := r_object_cases constructors done
        · cases null.2.1
        · have inside : (st.met depth).pos ≤ data.length := u8_inside data st.pos there
          exact build_grows constructors minor (ih (depth + 1)) type _
            (Nat.le_succ _) (Nat.le_refl _) inside _ next built.2
      refine ⟨?_, ?_, ?_, ?_⟩
      · intro bound st early value next done
        obtain ⟨octet, type, there, _, null | built⟩ := r_object_cases constructors done
        · obtain ⟨-, -, rfl⟩ := null
          have inside := u8_inside data st.pos there
          exact ⟨Nat.le_succ _, fun _ => inside, Nat.le_refl _, Nat.le_refl _, List.prefix_rfl, List.prefix_rfl,
            Nat.le_succ _, fun _ _ => rfl⟩
        · have inside : (st.met depth).pos ≤ data.length := u8_inside data st.pos there
          apply grows_trans data bound st (st.met depth) next (met_grows data bound st depth inside)
          exact build_grows constructors minor (ih (depth + 1)) type _
            (Nat.le_succ_of_le early) early inside _ next built.2
      · intro st found next done
        exact (object st found next done).pos
      · intro st found next done
        exact (object st found next done).steps
      · intro st next done
        obtain ⟨octet, type, there, _, null | built⟩ := r_object_cases constructors done
        · obtain ⟨-, -, rfl⟩ := null
          exact Nat.lt_succ_self _
        · have inside : (st.met depth).pos ≤ data.length := u8_inside data st.pos there
          exact build_counted constructors minor (ih (depth + 1)) type _ st.pos inside next built.2

end Filefacts.Marshal.Loader
