import Filefacts.Scpt.Shows

set_option autoImplicit false

namespace Filefacts.Scpt

open Filefacts.Bytes (ascii)

variable (ctx : Context) (i : Instruction) (state : State) (offset : Nat) (values : List Known)
  (arguments : Option (List Known)) (warned : Bool)

theorem decoder_call_shown {after : State} {m : Machine} {values : List Known}
    {decoder : Decoder} {text : Text} (shows : state.Shows m) (positional : i.op = 43)
    (called : callArguments 43 state = (some values, .receiver, after))
    (decodes : ((ctx.nameAt i.operand).bind fun name => ctx.decoders.lookup name) = some decoder)
    (recovered : recover decoder values = some text) :
    ∃ below, m.decoderCall ctx i = some (text, below) ∧ Covers after.stack below ∧ after.locals = state.locals := by
  obtain ⟨n, rest, stack, nonnegative, bounded, enough, same, popped_receiver⟩ := positional_arguments _ _ _ _ called
  obtain ⟨below, top, covers⟩ := number_top _ shows stack
  have operands := recover_operands recovered
  have knows : ∀ value ∈ rest.take n.toNat, value ≠ .unknown := by
    intro value found unknown
    have listed : value ∈ values := by rw [same]; exact List.mem_reverse.mpr found
    have operand := List.all_eq_true.mp operands value listed
    rw [unknown] at operand
    cases operand
  obtain ⟨machine_counted, shown⟩ := counted_shows top covers nonnegative bounded enough knows
  have dropped := covers_drop n.toNat rest below covers
  rw [← same] at shown
  cases deeper : rest.drop n.toNat with
  | nil =>
      rw [deeper] at popped_receiver
      cases congrArg Prod.fst popped_receiver
  | cons value deeper_values =>
      rw [deeper] at popped_receiver dropped
      simp only [State.pop, Prod.mk.injEq] at popped_receiver
      obtain ⟨receiver, left⟩ := popped_receiver
      rw [receiver] at dropped
      cases machine : below.drop n.toNat with
      | nil =>
          rw [machine] at dropped
          cases dropped.1
      | cons datum deeper_data =>
          rw [machine] at dropped machine_counted
          have receiver_datum : datum = .receiver := dropped.1
          rw [receiver_datum] at machine_counted
          refine ⟨deeper_data, ?_, by rw [← left]; exact dropped.2, by rw [← left]⟩
          simp only [Machine.decoderCall, if_pos positional, machine_counted, decodes, Option.bind_some,
            operands_exact values _ shown operands, recovered, Option.map_some]

theorem recover_arguments_state (walk : Walk) :
    (recoverArguments offset values walk).state = walk.state ∧ (recoverArguments offset values walk).tellDepth = walk.tellDepth := by
  fun_induction recoverArguments offset values walk with
  | case1 walk => exact ⟨rfl, rfl⟩
  | case2 rest walk text ih =>
      by_cases affordable : text.length ≤ walk.work
      · rw [if_pos affordable] at ih ⊢
        exact ih
      · rw [if_neg affordable] at ih ⊢
        exact ih
  | case3 rest walk value _ ih => exact ih

theorem record_call_state (walk : Walk) : (recordCall ctx i offset arguments walk).state = walk.state ∧
      (recordCall ctx i offset arguments walk).tellDepth = walk.tellDepth := by
  cases arguments with
  | none => cases named : ctx.nameAt i.operand <;> simp [recordCall, named, Walk.limit]
  | some values =>
      have kept := recover_arguments_state offset values walk
      cases named : ctx.nameAt i.operand <;> simpa [recordCall, named, Walk.limit] using kept

theorem call_shows (walk : Walk) (m after : Machine) (shows : walk.state.Shows m)
    (kind : kindOf i.op = .call) (changes : Effect ctx i m after) : (call ctx i offset walk).Shows after := by
  simp only [Effect, kind] at changes
  rcases called : callArguments i.op walk.state with ⟨arguments, receiving, state⟩
  simp only [call, called]
  split
  · rename_i text recovers
    obtain ⟨decoder, decodes, recovers⟩ := Option.bind_eq_some_iff.mp recovers
    obtain ⟨values, same, recovers⟩ := Option.bind_eq_some_iff.mp recovers
    rw [same] at called ⊢
    by_cases own : i.op = 43 ∧ receiving = .receiver
    · rw [if_pos own] at decodes
      rw [own.1, own.2] at called
      obtain ⟨below, machine_call, covers, locals⟩ :=
        decoder_call_shown ctx i walk.state shows own.1 called decodes recovers
      rw [machine_call] at changes
      split
      · trivial
      · rw [changes]
        have kept := (record_call_state ctx i offset (some values) { walk with state := state }).1
        refine ⟨⟨rfl, ?_⟩, ?_⟩
        · show Covers (recordCall ctx i offset (some values) { walk with state := state }).state.stack below
          rw [kept]
          exact covers
        · show ∀ index value, (recordCall ctx i offset (some values) { walk with state := state }).state.locals.lookup index =
            some value → value.Shows (m.locals index)
          rw [kept, locals]
          exact shows.locals
    · rw [if_neg own] at decodes
      cases decodes
  · exact unknown_shows after rfl

theorem binary_shows (walk : Walk) (m after : Machine)
    (shows : walk.state.Shows m) (kind : kindOf i.op = .binary) (changes : Effect ctx i m after) :
    (binary walk i.op offset).Shows after := by
  simp only [Effect, kind] at changes
  obtain ⟨right, middle, left, rest, datum, pops_right, pops_left, agrees, same⟩ := changes
  obtain ⟨right_shows, middle_shows⟩ := pop_shows _ shows pops_right
  obtain ⟨left_shows, rest_shows⟩ := pop_shows _ middle_shows pops_left
  have value_shows := calculate_shows i.op _ _ _ _ datum left_shows right_shows agrees
  have pushed := push_shows _ rest_shows value_shows
  rw [same]
  simp only [binary]
  split
  · by_cases concatenates : i.op = 37
    · rw [if_pos concatenates]
      split
      · trivial
      · exact pushed
    · rw [if_neg concatenates]
      exact pushed
  · exact pushed

theorem effect_shows (walk : Walk) (m after : Machine) (shows : walk.state.Shows m) (inside : walk.state.Inside)
    (outside : kindOf i.op = .it → walk.tellDepth = 0 → m.tells = 0) (changes : Effect ctx i m after) :
    (effect ctx i offset walk).Shows after := by
  have step := changes
  cases kind : kindOf i.op <;> simp only [effect, kind] <;> simp only [Effect, kind] at step
  case literal =>
    obtain ⟨datum, shown, same⟩ := step
    rw [same]
    exact push_shows _ shows shown
  case load =>
    rw [step]
    apply push_shows _ shows
    cases known : walk.state.locals.lookup (indexOf i) with
    | none => trivial
    | some value => exact shows.locals _ _ known
  case store =>
    obtain ⟨datum, rest, pops, same⟩ := step
    obtain ⟨value_shows, rest_shows⟩ := pop_shows _ shows pops
    rw [same]
    by_cases recorded : indexOf i < maxLocals
    · rw [if_pos recorded]
      exact insert_shows _ _ _ _ _ rest_shows value_shows
    · rw [if_neg recorded]
      apply dropped_shows _ _ _ _ rest_shows _ recorded
      intro index found
      rw [pop_locals]
      exact inside index found
  case global | undefined | pushResult =>
    obtain ⟨datum, same⟩ := step
    rw [same]
    exact push_shows _ shows trivial
  case bool value =>
    rw [step]
    exact push_shows _ shows rfl
  case small | me =>
    rw [step]
    exact push_shows _ shows rfl
  case it =>
    obtain ⟨datum, receives, same⟩ := step
    rw [same]
    apply push_shows _ shows
    by_cases depth : walk.tellDepth = 0
    · rw [if_pos depth]
      exact receives (outside kind depth)
    · rw [if_neg depth]
      trivial
  case dereference =>
    rcases step with same | ⟨id, datum, rest, top, same⟩
    · rw [same]
      exact shows
    · rw [same]
      refine ⟨?_, shows.locals⟩
      have covers := shows.stack
      rw [top] at covers
      show Covers walk.state.stack (datum :: rest)
      cases known : walk.state.stack with
      | nil => trivial
      | cons value others =>
          rw [known] at covers
          have unknown : value = .unknown := by
            cases value with
            | unknown => rfl
            | _ => cases covers.1
          rw [unknown]
          exact ⟨trivial, covers.2⟩
  case discard | storeResult =>
    obtain ⟨datum, pops⟩ := step
    exact (pop_shows _ shows pops).2
  case duplicate =>
    obtain ⟨datum, doubles, same⟩ := step
    rw [same]
    apply push_shows _ shows
    have covers := shows.stack
    cases known : walk.state.stack with
    | nil => trivial
    | cons value others =>
        rw [known] at covers
        cases machine : m.stack with
        | nil =>
            rw [machine] at covers
            rw [covers.1]
            trivial
        | cons top rest =>
            rw [machine] at covers
            rw [doubles top rest machine]
            exact covers.1
  case makeVector => exact vector_shows ctx i walk m after shows kind changes
  case binary => exact binary_shows ctx i offset walk m after shows kind changes
  case unary =>
    obtain ⟨operand, rest, datum, pops, agrees, same⟩ := step
    obtain ⟨operand_shows, rest_shows⟩ := pop_shows _ shows pops
    rw [same]
    exact push_shows _ rest_shows (negate_shows _ _ _ _ operand_shows agrees)
  case call => exact call_shows ctx i offset walk m after shows kind changes
  case setGlobal | tell | endTell | control | unmodelled => exact empty_shows after

def Outcome.walk : Outcome → Walk
  | .push _ walk => walk
  | .plain walk => walk
  | .stop walk => walk

theorem binary_walk (walk : Walk) (op offset : Nat) :
    (binary walk op offset).walk.tellDepth = walk.tellDepth ∧ (binary walk op offset).walk.state.locals = walk.state.locals ∧
      (binary walk op offset).walk.calls = walk.calls := by
  have locals : walk.state.pop.2.pop.2.locals = walk.state.locals := by rw [pop_locals, pop_locals]
  simp only [binary]
  split
  · split
    · split <;> exact ⟨rfl, locals, rfl⟩
    · exact ⟨rfl, locals, rfl⟩
  · exact ⟨rfl, locals, rfl⟩

theorem count_locals (maximum : Nat) : (state.count maximum).2.locals = state.locals := by
  have popped := pop_locals state
  simp only [State.count]
  split <;> exact popped

theorem take_locals (count : Nat) : (state.take count).2.locals = state.locals := by
  simp only [State.take]
  split <;> rfl

theorem vector_walk (walk : Walk) :
    (makeVector walk).walk.tellDepth = walk.tellDepth ∧ (makeVector walk).walk.decoded = walk.decoded ∧
      (makeVector walk).walk.calls = walk.calls ∧
      ((makeVector walk).walk.state.locals = walk.state.locals ∨ (makeVector walk).walk.state = .empty) := by
  have counted := count_locals walk.state maxArray
  rcases counts : walk.state.count maxArray with ⟨_ | count, state⟩
  · simp only [makeVector, counts]
    exact ⟨rfl, rfl, rfl, .inr rfl⟩
  · have left := take_locals state count
    rw [counts] at counted
    rcases taken : state.take count with ⟨_ | values, state'⟩
    · simp only [makeVector, counts, taken]
      exact ⟨rfl, rfl, rfl, .inr rfl⟩
    · rw [taken] at left
      cases read : values.mapM Known.asNumber with
      | none =>
          simp only [makeVector, counts, taken, read]
          exact ⟨rfl, rfl, rfl, .inr rfl⟩
      | some numbers =>
          simp only [makeVector, counts, taken, read]
          exact ⟨rfl, rfl, rfl, .inl (left.trans counted)⟩

variable (op : Nat) (text : String)

theorem call_arguments_locals (state : State) : (callArguments op state).2.2.locals = state.locals := by
  by_cases positional : op = 43
  · have counted := count_locals state 64
    rcases counts : state.count 64 with ⟨_ | count, counted_state⟩
    · rw [counts] at counted
      simpa only [callArguments, if_pos positional, counts] using counted
    · rw [counts] at counted
      simp only [callArguments, if_pos positional, counts]
      rw [pop_locals, take_locals]
      exact counted
  · have counted := count_locals state 128
    rcases counts : state.count 128 with ⟨_ | count, counted_state⟩
    · rw [counts] at counted
      simpa only [callArguments, if_neg positional, counts] using counted
    · rw [counts] at counted
      by_cases odd : count % 2 ≠ 0
      · simpa only [callArguments, if_neg positional, counts, if_pos odd] using counted
      · have left := take_locals counted_state count
        rcases taken : counted_state.take count with ⟨_ | values, taken_state⟩
        · rw [taken] at left
          simpa only [callArguments, if_neg positional, counts, if_neg odd, taken] using left.trans counted
        · rw [taken] at left
          simp only [callArguments, if_neg positional, counts, if_neg odd, taken]
          split <;> exact (pop_locals _).trans (left.trans counted)

theorem warned_tells (walk : Walk) : (if warned then walk.limit text else walk).tellDepth = walk.tellDepth := by
  cases warned <;> rfl

theorem call_walk (walk : Walk) : (call ctx i offset walk).walk.tellDepth = walk.tellDepth ∧
      ((call ctx i offset walk).walk.state.locals = walk.state.locals ∨ (call ctx i offset walk).walk.state = .empty) := by
  have locals := call_arguments_locals i.op walk.state
  rcases called : callArguments i.op walk.state with ⟨arguments, receiving, state⟩
  rw [called] at locals
  have kept := record_call_state ctx i offset arguments { walk with state := state }
  have kept_locals := (congrArg State.locals kept.1).trans locals
  simp only [call, called]
  split
  · split <;> exact ⟨kept.2, .inl kept_locals⟩
  · exact ⟨(warned_tells _ _ _).trans kept.2, .inr rfl⟩

theorem effect_tells (walk : Walk) : (effect ctx i offset walk).walk.tellDepth = tellsAfter i walk.tellDepth := by
  cases kind : kindOf i.op <;> simp only [effect, tellsAfter, kind]
  case makeVector => exact (vector_walk walk).1
  case binary => exact (binary_walk walk i.op offset).1
  case call => exact (call_walk ctx i offset walk).1
  case store => split <;> rfl
  all_goals rfl

theorem effect_inside (walk : Walk) (inside : walk.state.Inside) : (effect ctx i offset walk).walk.state.Inside := by
  have outside : State.empty.Inside := by intro index value found; simp [State.empty] at found
  have kept : ∀ state : State, state.locals = walk.state.locals → state.Inside := by
    intro state same index value found
    rw [same] at found
    exact inside index value found
  cases kind : kindOf i.op <;> simp only [effect, kind]
  case makeVector =>
    rcases (vector_walk walk).2.2.2 with same | empty
    · exact kept _ same
    · rw [empty]
      exact outside
  case binary => exact kept _ (binary_walk walk i.op offset).2.1
  case call =>
    rcases (call_walk ctx i offset walk).2 with same | empty
    · exact kept _ same
    · rw [empty]
      exact outside
  case store =>
    by_cases recorded : indexOf i < maxLocals
    · rw [if_pos recorded]
      intro index value found
      change (walk.state.pop.2.insert (indexOf i) walk.state.pop.1).locals.lookup index = some value at found
      rw [insert_lookup] at found
      by_cases same : index = indexOf i
      · rw [same]
        exact recorded
      · rw [if_neg same, pop_locals] at found
        exact inside index value found
    · rw [if_neg recorded]
      exact kept _ (pop_locals walk.state)
  case discard | storeResult | unary => exact kept _ (pop_locals walk.state)
  case setGlobal | tell | endTell | control | unmodelled => exact outside
  all_goals exact inside

def Recovers (ctx : Context) (i : Instruction) (offset : Nat) (state : State) (r : Recovered) : Prop :=
  r.offset = offset ∧ ∀ m : Machine, state.Shows m → r.text ∈ m.texts ctx i

def Consumes (i : Instruction) (offset : Nat) (state : State) (c : Call) : Prop :=
  c.offset = offset ∧ ∀ m : Machine, state.Shows m →
    c.args = [.unknown] ∨ ∃ data, m.arguments i.op = some data ∧ List.Forall₂ Argument.Shows c.args data

theorem known_pop (knows : state.pop.1 ≠ .unknown) : state.stack = state.pop.1 :: state.pop.2.stack := by
  cases stack : state.stack with
  | nil =>
      have popped : state.pop = (.unknown, state) := by simp only [State.pop, stack]
      rw [popped] at knows
      exact absurd rfl knows
  | cons value rest => simp only [State.pop, stack]

theorem calculate_text (left right : Known) (text : Text) (constructed : Bool)
    (calculated : calculate op left right = .string text constructed) :
    ∃ a b madeLeft madeRight, left = .string a madeLeft ∧ right = .string b madeRight ∧ text = a ++ b ∧ op = 37 := by
  cases left with
  | string a madeLeft =>
      cases right with
      | string b madeRight =>
          by_cases concatenates : op = 37 ∧ a.length + b.length ≤ maxText
          · simp only [calculate, if_pos concatenates, Known.string.injEq] at calculated
            exact ⟨a, b, madeLeft, madeRight, rfl, rfl, calculated.1.symm, concatenates.1⟩
          · simp only [calculate, if_neg concatenates] at calculated
            cases calculated
      | _ => cases calculated
  | number a =>
      cases right with
      | number b =>
          cases computed : arithmetic op a b <;> simp [calculate, computed] at calculated
      | _ => cases calculated
  | _ => cases right <;> cases calculated

theorem concatenation_text (m : Machine) (text : Text) (constructed : Bool)
    (shows : state.Shows m) (calculated : calculate i.op state.pop.2.pop.1 state.pop.1 = .string text constructed) :
    text ∈ m.texts ctx i := by
  obtain ⟨a, b, madeLeft, madeRight, left, right, same, concatenates⟩ := calculate_text _ _ _ _ _ calculated
  have top := known_pop state (by rw [right]; exact fun impossible => nomatch impossible)
  have next := known_pop state.pop.2 (by rw [left]; exact fun impossible => nomatch impossible)
  have covers := shows.stack
  rw [top, next, left, right] at covers
  cases machine : m.stack with
  | nil =>
      rw [machine] at covers
      cases covers.1
  | cons first below =>
      rw [machine] at covers
      cases below with
      | nil => cases covers.2.1
      | cons second rest =>
          have first_text : first = .text b := covers.1
          have second_text : second = .text a := covers.2.1
          rw [first_text, second_text] at machine
          simp only [Machine.texts, machine, if_pos concatenates, same]
          exact List.mem_append_left _ (List.mem_singleton.mpr rfl)

theorem binary_recovers (walk : Walk) (r : Recovered) (found : r ∈ (binary walk i.op offset).walk.decoded) :
    r ∈ walk.decoded ∨ Recovers ctx i offset walk.state r := by
  simp only [binary] at found
  split at found
  · rename_i text calculated
    split at found
    · split at found
      · exact .inl found
      · rcases List.mem_append.mp found with before | added
        · exact .inl before
        · rw [List.mem_singleton.mp added]
          exact .inr ⟨rfl, fun m shows => concatenation_text ctx i walk.state m text true shows calculated⟩
    · exact .inl found
  · exact .inl found

theorem recover_arguments_found (walk : Walk) (r : Recovered)
    (found : r ∈ (recoverArguments offset values walk).decoded) :
    r ∈ walk.decoded ∨ r.offset = offset ∧ .string r.text true ∈ values := by
  fun_induction recoverArguments offset values walk with
  | case1 walk => exact .inl found
  | case2 rest walk text ih =>
      rcases ih found with before | ⟨same, listed⟩
      · by_cases affordable : text.length ≤ walk.work
        · rw [if_pos affordable] at before
          rcases List.mem_append.mp before with before | added
          · exact .inl before
          · rw [List.mem_singleton.mp added]
            exact .inr ⟨rfl, List.mem_cons_self⟩
        · rw [if_neg affordable] at before
          exact .inl before
      · exact .inr ⟨same, List.mem_cons_of_mem _ listed⟩
  | case3 rest walk value _ ih =>
      rcases ih found with before | ⟨same, listed⟩
      · exact .inl before
      · exact .inr ⟨same, List.mem_cons_of_mem _ listed⟩

theorem text_shown {text : Text} {constructed : Bool} {values : List Known} {data : List Datum}
    (shown : List.Forall₂ Known.Shows values data) (listed : .string text constructed ∈ values) : .text text ∈ data := by
  induction shown with
  | nil => cases listed
  | @cons value datum values data first others ih =>
      rcases List.mem_cons.mp listed with same | listed
      · have text_datum : datum = .text text := by
          rw [← same] at first
          exact first
        rw [text_datum]
        exact List.mem_cons_self
      · exact List.mem_cons_of_mem _ (ih listed)

theorem record_call_found (walk : Walk) (r : Recovered) (found : r ∈ (recordCall ctx i offset arguments walk).decoded) :
    r ∈ walk.decoded ∨ r.offset = offset ∧ ∃ values, arguments = some values ∧ .string r.text true ∈ values := by
  cases arguments with
  | none =>
      left
      cases named : ctx.nameAt i.operand <;> simpa [recordCall, named, Walk.limit] using found
  | some values =>
      have added : r ∈ (recoverArguments offset values walk).decoded := by
        cases named : ctx.nameAt i.operand <;> simpa [recordCall, named, Walk.limit] using found
      rcases recover_arguments_found offset values walk r added with before | ⟨same, listed⟩
      · exact .inl before
      · exact .inr ⟨same, values, rfl, listed⟩

theorem warned_decoded (walk : Walk) : (if warned then walk.limit text else walk).decoded = walk.decoded := by
  cases warned <;> rfl

theorem warned_calls (walk : Walk) : (if warned then walk.limit text else walk).calls = walk.calls := by
  cases warned <;> rfl

theorem call_recovers (walk : Walk) (r : Recovered) (kind : kindOf i.op = .call)
    (found : r ∈ (call ctx i offset walk).walk.decoded) : r ∈ walk.decoded ∨ Recovers ctx i offset walk.state r := by
  rcases called : callArguments i.op walk.state with ⟨arguments, receiving, state⟩
  have recorded : r ∈ (recordCall ctx i offset arguments { walk with state := state }).decoded →
      r ∈ walk.decoded ∨ Recovers ctx i offset walk.state r := by
    intro found
    rcases record_call_found _ _ _ _ _ _ found with before | ⟨same, values, known, listed⟩
    · exact .inl before
    · refine .inr ⟨same, fun m shows => ?_⟩
      rw [known] at called
      obtain ⟨data, passed, shown⟩ := arguments_shown i.op shows called
      have consumed := text_shown shown listed
      simp only [Machine.texts, if_pos kind, passed, Option.getD_some]
      apply List.mem_append_right
      apply List.mem_append_left
      exact List.mem_filterMap.mpr ⟨.text r.text, consumed, rfl⟩
  simp only [call, called] at found
  split at found
  · rename_i text recovers
    obtain ⟨decoder, decodes, recovers⟩ := Option.bind_eq_some_iff.mp recovers
    obtain ⟨values, same, recovers⟩ := Option.bind_eq_some_iff.mp recovers
    by_cases own : i.op = 43 ∧ receiving = .receiver
    · rw [if_pos own] at decodes
      split at found
      · exact recorded found
      · rcases List.mem_append.mp found with before | added
        · exact recorded before
        · rw [List.mem_singleton.mp added]
          refine .inr ⟨rfl, fun m shows => ?_⟩
          rw [same, own.1, own.2] at called
          obtain ⟨below, machine_call, -, -⟩ :=
            decoder_call_shown ctx i walk.state shows own.1 called decodes recovers
          simp only [Machine.texts, if_pos kind, machine_call, Option.map_some, Option.toList_some]
          apply List.mem_append_right
          apply List.mem_append_right
          exact List.mem_singleton.mpr rfl
    · rw [if_neg own] at decodes
      cases decodes
  · apply recorded
    simp only [Outcome.walk, Walk.limit, Walk.clear] at found
    exact warned_decoded _ _ _ ▸ found

theorem effect_recovers (walk : Walk) (r : Recovered)
    (found : r ∈ (effect ctx i offset walk).walk.decoded) : r ∈ walk.decoded ∨ Recovers ctx i offset walk.state r := by
  cases kind : kindOf i.op <;> simp only [effect, kind] at found
  case makeVector => exact .inl ((vector_walk walk).2.1 ▸ found)
  case binary => exact binary_recovers ctx i offset walk r found
  case call => exact call_recovers ctx i offset walk r kind found
  case store => split at found <;> exact .inl found
  all_goals exact .inl found

theorem argument_shown (value : Known) (datum : Datum) (shown : value.Shows datum) : value.argument.Shows datum := by
  cases value with
  | string text constructed => exact shown
  | number n => exact shown
  | bool b => exact shown
  | _ => trivial

theorem recover_arguments_calls (walk : Walk) : (recoverArguments offset values walk).calls = walk.calls := by
  fun_induction recoverArguments offset values walk with
  | case1 walk => rfl
  | case2 rest walk text ih =>
      rw [ih]
      split <;> rfl
  | case3 rest walk value _ ih => exact ih

theorem record_call_calls (walk : Walk) (c : Call) (found : c ∈ (recordCall ctx i offset arguments walk).calls) :
    c ∈ walk.calls ∨ c.offset = offset ∧ c.args = arguments.elim [.unknown] fun values => values.map Known.argument := by
  have added : c ∈ walk.calls ++
      [⟨(ctx.nameAt i.operand).getD (ascii s!"<literal:{i.operand}>"), offset,
        arguments.elim [.unknown] fun values => values.map Known.argument⟩] := by
    have kept : ∀ values, (recoverArguments offset values walk).calls = walk.calls :=
      fun values => recover_arguments_calls offset values walk
    cases arguments <;> cases named : ctx.nameAt i.operand <;> simpa [recordCall, named, Walk.limit, kept] using found
  rcases List.mem_append.mp added with before | made
  · exact .inl before
  · rw [List.mem_singleton.mp made]
    exact .inr ⟨rfl, rfl⟩

theorem call_consumes (walk : Walk) (c : Call)
    (found : c ∈ (call ctx i offset walk).walk.calls) : c ∈ walk.calls ∨ Consumes i offset walk.state c := by
  rcases called : callArguments i.op walk.state with ⟨arguments, receiving, state⟩
  have recorded : c ∈ (recordCall ctx i offset arguments { walk with state := state }).calls →
      c ∈ walk.calls ∨ Consumes i offset walk.state c := by
    intro found
    rcases record_call_calls _ _ _ _ _ _ found with before | ⟨same, passed⟩
    · exact .inl before
    · refine .inr ⟨same, fun m shows => ?_⟩
      cases arguments with
      | none => exact .inl passed
      | some values =>
          obtain ⟨data, machine_passed, shown⟩ := arguments_shown i.op shows called
          refine .inr ⟨data, machine_passed, ?_⟩
          rw [passed]
          exact List.forall₂_map_left_iff.mpr (shown.imp fun value datum => argument_shown value datum)
  simp only [call, called] at found
  split at found
  · split at found <;> exact recorded found
  · apply recorded
    simp only [Outcome.walk, Walk.limit, Walk.clear] at found
    exact warned_calls _ _ _ ▸ found

theorem effect_consumes (walk : Walk) (c : Call)
    (found : c ∈ (effect ctx i offset walk).walk.calls) : c ∈ walk.calls ∨ Consumes i offset walk.state c := by
  cases kind : kindOf i.op <;> simp only [effect, kind] at found
  case makeVector => exact .inl ((vector_walk walk).2.2.1 ▸ found)
  case binary => exact .inl ((binary_walk walk i.op offset).2.2 ▸ found)
  case call => exact call_consumes ctx i offset walk c found
  case store => split at found <;> exact .inl found
  all_goals exact .inl found

end Filefacts.Scpt
