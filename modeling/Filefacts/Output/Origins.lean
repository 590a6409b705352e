import Filefacts.Output.Walk

set_option autoImplicit false

namespace Filefacts.Output

-- How parameters are looked up and how a helper is entered, left open: the
-- walk's flattened maps and call-by-substitution are two instances.
structure Scope (Env : Type) where
  lookup : Env → Nat → Option (Nat × Env)
  enter : Env → List Nat → List Nat → Env

-- One dependency of a value evaluated in an environment. This is the graph's
-- meaning: no budget, no depth, no visited set and no order.
inductive ValueStep (flow : Flow) (transfers : List FlowTransfer) {Env : Type} (scope : Scope Env) :
    Nat × Env → Nat × Env → Prop where
  | input (id next : Nat) (env : Env) (value : FlowValue) (found : flow.values[id]? = some value)
      (kind : value.kind = .merge ∨ value.kind = .concat ∨ value.kind = .alternative) (input : next ∈ value.inputs) :
      ValueStep flow transfers scope (id, env) (next, env)
  | field (id next : Nat) (env : Env) (name : String) (value : FlowValue) (found : flow.values[id]? = some value)
      (kind : value.kind = .object) (entry : (name, next) ∈ value.fields) :
      ValueStep flow transfers scope (id, env) (next, env)
  | transferArgument (id next : Nat) (env : Env) (value : FlowValue) (model : FlowTransfer) (position : Nat)
      (found : flow.values[id]? = some value) (kind : value.kind = .call) (external : localHelper flow value = none)
      (modelled : model ∈ transfers) (target : value.target = some model.call) (declared : position ∈ model.arguments)
      (argument : value.inputs[position]? = some next) : ValueStep flow transfers scope (id, env) (next, env)
  | transferReceiver (id next : Nat) (env : Env) (value : FlowValue) (model : FlowTransfer)
      (found : flow.values[id]? = some value) (kind : value.kind = .call) (external : localHelper flow value = none)
      (modelled : model ∈ transfers) (target : value.target = some model.call) (declared : model.receiver = true)
      (receiver : value.receiver = some next) : ValueStep flow transfers scope (id, env) (next, env)
  | helper (id next : Nat) (env : Env) (value : FlowValue) (function : FlowFunction)
      (found : flow.values[id]? = some value) (kind : value.kind = .call) (helper : localHelper flow value = some function)
      (returned : next ∈ function.returns) :
      ValueStep flow transfers scope (id, env) (next, scope.enter env function.parameters value.inputs)
  | bound (id next : Nat) (env caller : Env) (value : FlowValue) (found : flow.values[id]? = some value)
      (kind : value.kind = .parameter) (actual : scope.lookup env id = some (next, caller)) :
      ValueStep flow transfers scope (id, env) (next, caller)
  | unbound (id next : Nat) (env : Env) (value call : FlowValue) (name : String) (function : FlowFunction) (position : Nat)
      (found : flow.values[id]? = some value) (kind : value.kind = .parameter) (free : scope.lookup env id = none)
      (owner : (name, function) ∈ flow.functions) (declared : function.parameters.idxOf? id = some position)
      (listed : call ∈ flow.values) (calls : call.kind = .call) (target : call.target = some name)
      (argument : call.inputs[position]? = some next) : ValueStep flow transfers scope (id, env) (next, env)

-- The walk's reading: an actual is evaluated under the reader's own map.
def flatScope : Scope Bindings where
  lookup bindings id := (bindings.lookup id).map fun actual => (actual, bindings)
  enter := bindFrame

-- Activations. A parameter is bound to an actual and to the activation of the
-- caller, where that actual is evaluated; outer activations stay visible.
inductive Activation where
  | top
  | bind (param actual : Nat) (caller outer : Activation)

def Activation.lookup (id : Nat) : Activation → Option (Nat × Activation)
  | .top => none
  | .bind param actual caller outer => if id = param then some (actual, caller) else outer.lookup id

def Activation.actual (caller : Activation) (id : Nat) : Nat × Activation :=
  (caller.lookup id).getD (id, caller)

def Activation.enter (caller : Activation) (parameters inputs : List Nat) : Activation :=
  (parameters.zip inputs).foldl
    (fun frame (param, id) => .bind param (caller.actual id).1 (caller.actual id).2 frame) caller

def substitutionScope : Scope Activation where
  lookup env id := env.lookup id
  enter := Activation.enter

abbrev SubstitutionReach (flow : Flow) (transfers : List FlowTransfer) (start id : Nat) : Prop :=
  ∃ env, Relation.ReflTransGen (ValueStep flow transfers substitutionScope) (start, .top) (id, env)

-- Both readings side by side: substitution decides where evaluation goes, and
-- the walk's map is carried along by the same calls.
def pairedScope : Scope (Activation × Bindings) where
  lookup env id := (env.1.lookup id).map fun (actual, caller) => (actual, (caller, env.2))
  enter env parameters inputs := (env.1.enter parameters inputs, bindFrame env.2 parameters inputs)

abbrev PairedReach (flow : Flow) (transfers : List FlowTransfer) (start id : Nat) (env : Activation × Bindings) : Prop :=
  Relation.ReflTransGen (ValueStep flow transfers pairedScope) (start, (.top, [])) (id, env)

-- At a parameter the walk's map and the activation give the same actual. A
-- call that overwrites a binding still in use, as a recursive helper's call
-- with a composite argument does, breaks this.
def FramesAgreeAt (flow : Flow) (state : Nat × Activation × Bindings) : Prop :=
  ∀ value, flow.values[state.1]? = some value → value.kind = .parameter →
    state.2.2.lookup state.1 = (state.2.1.lookup state.1).map Prod.fst

abbrev AgreeingReach (flow : Flow) (transfers : List FlowTransfer) (start : Nat) (state : Nat × Activation × Bindings) : Prop :=
  Relation.ReflTransGen (fun before after => ValueStep flow transfers pairedScope before after ∧ FramesAgreeAt flow before)
    (start, (.top, [])) state

abbrev FlatReach (flow : Flow) (transfers : List FlowTransfer) (start id : Nat) : Prop :=
  ∃ bindings, Relation.ReflTransGen (ValueStep flow transfers flatScope) (start, []) (id, bindings)

-- Only a value all of whose substitution chains read a disagreeing frame can
-- be missed, and then only if no chain of flat frames leads to it either.
def DisagreementsCovered (flow : Flow) (transfers : List FlowTransfer) (start : Nat) : Prop :=
  ∀ id, SubstitutionReach flow transfers start id → (¬ ∃ env, AgreeingReach flow transfers start (id, env)) →
    FlatReach flow transfers start id

variable (flow : Flow) (transfers : List FlowTransfer) (start : Nat) (value : FlowValue) (model : FlowTransfer)
  (state : WalkState)

variable {id : Nat} {next : List Nat} {depth : Nat} {bindings : Bindings} {item : WalkItem}
  {left frameEntries rest entries : Nat} {items : List WalkItem} {incomplete : Bool} {Env : Type}

theorem paired_lift {next : Nat} {env after : Activation}
    (bindings : Bindings) (edge : ValueStep flow transfers substitutionScope (id, env) (next, after)) :
    ∃ map, ValueStep flow transfers pairedScope (id, (env, bindings)) (next, (after, map)) := by
  cases edge with
  | input _ _ _ value found kind input => exact ⟨bindings, .input id next _ value found kind input⟩
  | field _ _ _ name value found kind entry => exact ⟨bindings, .field id next _ name value found kind entry⟩
  | transferArgument _ _ _ value model position found kind external modelled target declared argument =>
      exact ⟨bindings, .transferArgument id next _ value model position found kind external modelled target declared argument⟩
  | transferReceiver _ _ _ value model found kind external modelled target declared receiver =>
      exact ⟨bindings, .transferReceiver id next _ value model found kind external modelled target declared receiver⟩
  | helper _ _ _ value function found kind helper returned =>
      exact ⟨_, .helper id next (env, bindings) value function found kind helper returned⟩
  | bound _ _ _ _ value found kind actual =>
      refine ⟨bindings, .bound id next (env, bindings) (after, bindings) value found kind ?_⟩
      have held : env.lookup id = some (next, after) := actual
      simp [pairedScope, held]
  | unbound _ _ _ value call name function position found kind free owner declared listed calls target argument =>
      have held : env.lookup id = none := free
      refine ⟨bindings, .unbound id next _ value call name function position found kind ?_ owner declared listed calls target argument⟩
      simp [pairedScope, held]

theorem paired_reach (id : Nat) (env : Activation)
    (reach : Relation.ReflTransGen (ValueStep flow transfers substitutionScope) (start, .top) (id, env)) :
    ∃ map, PairedReach flow transfers start id (env, map) := by
  generalize target : (id, env) = state at reach
  induction reach generalizing id env with
  | refl =>
      obtain ⟨rfl, rfl⟩ := Prod.mk.inj target
      exact ⟨[], .refl⟩
  | tail earlier edge ih =>
      rename_i middle _
      obtain ⟨middleId, middleEnv⟩ := middle
      subst target
      obtain ⟨map, before⟩ := ih middleId middleEnv rfl
      obtain ⟨after, step⟩ := paired_lift flow transfers map edge
      exact ⟨after, before.tail step⟩

theorem paired_step_flat (state next : Nat × Activation × Bindings)
    (agree : FramesAgreeAt flow state) (edge : ValueStep flow transfers pairedScope state next) :
    ValueStep flow transfers flatScope (state.1, state.2.2) (next.1, next.2.2) := by
  cases edge with
  | input id next env value found kind input => exact .input id next _ value found kind input
  | field id next env name value found kind entry => exact .field id next _ name value found kind entry
  | transferArgument id next env value model position found kind external modelled target declared argument =>
      exact .transferArgument id next _ value model position found kind external modelled target declared argument
  | transferReceiver id next env value model found kind external modelled target declared receiver =>
      exact .transferReceiver id next _ value model found kind external modelled target declared receiver
  | helper id next env value function found kind helper returned =>
      exact .helper id next env.2 value function found kind helper returned
  | bound id next env caller value found kind actual =>
      have same := agree value found kind
      obtain ⟨⟨target, within⟩, held, eq⟩ := Option.map_eq_some_iff.mp actual
      simp only [Prod.mk.injEq] at eq
      obtain ⟨rfl, rfl⟩ := eq
      refine .bound id target env.2 env.2 value found kind ?_
      simp only [held, Option.map_some] at same
      simp [flatScope, same]
  | unbound id next env value call name function position found kind free owner declared listed calls target argument =>
      have same := agree value found kind
      have held : env.1.lookup id = none := Option.map_eq_none_iff.mp free
      simp only [held, Option.map_none] at same
      refine .unbound id next env.2 value call name function position found kind ?_ owner declared listed calls target argument
      simp [flatScope, same]

theorem agreeing_reach_flat (id : Nat) (env : Activation × Bindings)
    (reach : AgreeingReach flow transfers start (id, env)) : FlatReach flow transfers start id := by
  have simulated := Worklist.reach_map _ (ValueStep flow transfers flatScope)
    (fun state : Nat × Activation × Bindings => (state.1, state.2.2)) (start, (.top, [])) (id, env)
    (fun state next _ edge => paired_step_flat flow transfers state next edge.2 edge.1) reach
  exact ⟨env.2, simulated⟩

theorem frames_agree_covered
    (agree : ∀ state, Relation.ReflTransGen (ValueStep flow transfers pairedScope) (start, (.top, [])) state →
      FramesAgreeAt flow state) : DisagreementsCovered flow transfers start := by
  rintro id ⟨env, substituted⟩ disagreeing
  obtain ⟨map, paired⟩ := paired_reach flow transfers start id env substituted
  have agreeing := Worklist.reach_map _ (fun before after => ValueStep flow transfers pairedScope before after ∧ FramesAgreeAt flow before)
    (fun state => state) _ _ (fun state next before edge => ⟨edge, agree state before⟩) paired
  exact absurd ⟨(env, map), agreeing⟩ disagreeing

theorem place_pushed (depth : Nat) (bindings : Bindings) (field : Option String) (member : id ∈ next) :
    (id, bindings) ∈ (next.map fun other => WalkItem.mk other bindings depth field).map WalkItem.place :=
  List.mem_map.mpr ⟨⟨id, bindings, depth, field⟩, List.mem_map.mpr ⟨id, member, rfl⟩, rfl⟩

theorem place_pushed_from {field : Option String}
    (member : item ∈ next.map fun other => WalkItem.mk other bindings depth field) :
    ∃ id ∈ next, item.place = (id, bindings) := by
  obtain ⟨id, listed, rfl⟩ := List.mem_map.mp member
  exact ⟨id, listed, rfl⟩

theorem transfer_inputs_argument (position id : Nat)
    (declared : position ∈ model.arguments) (argument : value.inputs[position]? = some id) :
    id ∈ transferInputs value model :=
  List.mem_append_left _ (List.mem_filterMap.mpr ⟨position, declared, argument⟩)

theorem transfer_inputs_receiver (id : Nat)
    (declared : model.receiver = true) (receiver : value.receiver = some id) : id ∈ transferInputs value model :=
  List.mem_append_right _ (by simp [declared, receiver])

theorem matching_transfer (modelled : model ∈ transfers) (target : value.target = some model.call) :
    model ∈ matchingTransfers transfers value :=
  List.mem_filter.mpr ⟨modelled, by simpa using target⟩

theorem turn_complete {value : FlowValue} (found : flow.values[id]? = some value)
    (pushed : turn flow transfers ⟨id, bindings, depth, none⟩ value left frameEntries = .push items rest entries false)
    {next : Nat × Bindings} (edge : ValueStep flow transfers flatScope (id, bindings) next) :
    next ∈ items.map WalkItem.place := by
  have same : ∀ other, flow.values[id]? = some other → other = value :=
    fun other otherFound => Option.some.inj (otherFound.symm.trans found)
  unfold turn at pushed
  cases edge with
  | input _ next _ other otherFound kind input =>
      obtain rfl := same other otherFound
      rcases kind with kind | kind | kind <;>
      · simp only [kind, Turn.push.injEq] at pushed
        exact pushed.1 ▸ place_pushed _ bindings none input
  | field _ next _ name other otherFound kind entry =>
      obtain rfl := same other otherFound
      simp only [kind, Turn.push.injEq] at pushed
      exact pushed.1 ▸ place_pushed _ bindings none (List.mem_map.mpr ⟨(name, next), entry, rfl⟩)
  | transferArgument _ next _ other model position otherFound kind external modelled target declared argument =>
      obtain rfl := same other otherFound
      simp only [kind, external, Option.isSome_none, Bool.false_eq_true, if_false, Turn.push.injEq] at pushed
      exact pushed.1 ▸ place_pushed _ bindings none (List.mem_flatMap.mpr
        ⟨model, matching_transfer transfers other model modelled target, transfer_inputs_argument other model position next declared argument⟩)
  | transferReceiver _ next _ other model otherFound kind external modelled target declared receiver =>
      obtain rfl := same other otherFound
      simp only [kind, external, Option.isSome_none, Bool.false_eq_true, if_false, Turn.push.injEq] at pushed
      exact pushed.1 ▸ place_pushed _ bindings none (List.mem_flatMap.mpr
        ⟨model, matching_transfer transfers other model modelled target, transfer_inputs_receiver other model next declared receiver⟩)
  | helper _ next _ other function otherFound kind helper returned =>
      obtain rfl := same other otherFound
      simp only [kind, helper] at pushed
      split at pushed
      · simp at pushed
      · split at pushed
        · simp at pushed
        · simp only [Turn.push.injEq] at pushed
          exact pushed.1 ▸ place_pushed _ _ none returned
  | bound _ next _ caller other otherFound kind actual =>
      obtain rfl := same other otherFound
      obtain ⟨held, lookup, eq⟩ := Option.map_eq_some_iff.mp actual
      obtain ⟨rfl, rfl⟩ := Prod.mk.inj eq
      simp only [kind, lookup, Turn.push.injEq] at pushed
      exact pushed.1 ▸ place_pushed _ bindings none (by simp)
  | unbound _ next _ other call name function position otherFound kind free owner declared listed calls target argument =>
      obtain rfl := same other otherFound
      have lookup : bindings.lookup id = none := Option.map_eq_none_iff.mp free
      simp only [kind, lookup] at pushed
      split at pushed
      · simp at pushed
      · rename_i remaining gathered scanned
        simp only [Turn.push.injEq] at pushed
        have result := (scan_functions_result _ _ _ _ _ _ _ scanned).2
        rw [List.nil_append] at result
        exact pushed.1 ▸ place_pushed _ bindings none (result ▸ (mem_caller_arguments _ _ _ _).mpr
          ⟨name, function, position, call, owner, declared, listed, calls, target, argument⟩)

theorem turn_sound {other : WalkItem} {value : FlowValue} (found : flow.values[item.id]? = some value)
    (pushed : turn flow transfers item value left frameEntries = .push items rest entries incomplete)
    (member : other ∈ items) : ValueStep flow transfers flatScope item.place other.place := by
  unfold turn at pushed
  cases kind : value.kind <;> simp only [kind, Turn.push.injEq] at pushed
  case object =>
    obtain ⟨id, listed, eq⟩ := place_pushed_from (pushed.1 ▸ member)
    obtain ⟨⟨name, target⟩, entry, rfl⟩ := List.mem_map.mp listed
    exact eq ▸ .field item.id target _ name value found kind entry
  case merge =>
    obtain ⟨id, listed, eq⟩ := place_pushed_from (pushed.1 ▸ member)
    exact eq ▸ .input item.id id _ value found (Or.inl kind) listed
  case concat =>
    obtain ⟨id, listed, eq⟩ := place_pushed_from (pushed.1 ▸ member)
    exact eq ▸ .input item.id id _ value found (Or.inr (Or.inl kind)) listed
  case alternative =>
    obtain ⟨id, listed, eq⟩ := place_pushed_from (pushed.1 ▸ member)
    exact eq ▸ .input item.id id _ value found (Or.inr (Or.inr kind)) listed
  case parameter =>
    cases held : item.bindings.lookup item.id with
    | some actual =>
        simp only [held, Turn.push.injEq] at pushed
        obtain ⟨id, listed, eq⟩ := place_pushed_from (pushed.1 ▸ member)
        obtain rfl : id = actual := by simpa using listed
        exact eq ▸ .bound item.id id _ _ value found kind (by simp [flatScope, held])
    | none =>
        simp only [held] at pushed
        split at pushed
        · simp at pushed
        · rename_i remaining gathered scanned
          simp only [Turn.push.injEq] at pushed
          obtain ⟨id, listed, eq⟩ := place_pushed_from (pushed.1 ▸ member)
          have result := (scan_functions_result _ _ _ _ _ _ _ scanned).2
          rw [List.nil_append] at result
          obtain ⟨name, function, position, call, owner, declared, calls, callKind, target, argument⟩ :=
            (mem_caller_arguments _ _ _ _).mp (result ▸ listed)
          exact eq ▸ .unbound item.id id _ value call name function position found kind (by simp [flatScope, held])
            owner declared calls callKind target argument
  case call =>
    cases helper : localHelper flow value with
    | some function =>
        simp only [helper] at pushed
        split at pushed
        · simp at pushed
        · split at pushed
          · simp at pushed
          · simp only [Turn.push.injEq] at pushed
            obtain ⟨id, listed, eq⟩ := place_pushed_from (pushed.1 ▸ member)
            exact eq ▸ .helper item.id id item.bindings value function found kind helper listed
    | none =>
        simp only [helper] at pushed
        split at pushed
        · simp at pushed
        · simp only [Turn.push.injEq] at pushed
          obtain ⟨id, listed, eq⟩ := place_pushed_from (pushed.1 ▸ member)
          obtain ⟨model, chosen, reads⟩ := List.mem_flatMap.mp listed
          obtain ⟨modelled, matching⟩ := List.mem_filter.mp chosen
          have target : value.target = some model.call := by simpa using matching
          rcases List.mem_append.mp reads with argument | receiver
          · obtain ⟨position, declared, actual⟩ := List.mem_filterMap.mp argument
            exact eq ▸ .transferArgument item.id id _ value model position found kind helper modelled target declared actual
          · by_cases declared : model.receiver = true
            · exact eq ▸ .transferReceiver item.id id _ value model found kind helper modelled target declared
                (by simpa [declared] using receiver)
            · simp [declared] at receiver
  all_goals
    obtain ⟨id, listed, eq⟩ := place_pushed_from (pushed.1 ▸ member)
    simp at listed

theorem turn_keeps_field {value : FlowValue}
    (pushed : turn flow transfers item value left frameEntries = .push items rest entries incomplete) :
    ∀ other ∈ items, other.field = item.field := by
  have mapped : ∀ (next : List Nat) (bindings : Bindings) (depth : Nat),
      ∀ other ∈ next.map (fun id => WalkItem.mk id bindings depth item.field), other.field = item.field := by
    intro next bindings depth other member
    obtain ⟨id, -, rfl⟩ := List.mem_map.mp member
    rfl
  unfold turn at pushed
  cases kind : value.kind <;> simp only [kind, Turn.push.injEq] at pushed
  case parameter =>
    split at pushed
    · simp only [Turn.push.injEq] at pushed
      exact pushed.1 ▸ mapped _ _ _
    · split at pushed
      · simp at pushed
      · simp only [Turn.push.injEq] at pushed
        exact pushed.1 ▸ mapped _ _ _
  case call =>
    split at pushed
    · split at pushed
      · simp at pushed
      · split at pushed
        · simp at pushed
        · simp only [Turn.push.injEq] at pushed
          exact pushed.1 ▸ mapped _ _ _
    · split at pushed
      · simp at pushed
      · simp only [Turn.push.injEq] at pushed
        exact pushed.1 ▸ mapped _ _ _
  all_goals exact pushed.1 ▸ mapped _ _ _

theorem walk_step_flagged (next : WalkState)
    (stepped : walkStep flow transfers state = .next next) (flagged : state.out.incomplete = true) :
    next.out.incomplete = true := by
  obtain ⟨item, pending, -, -, -, skip | ⟨-, raised, -⟩ | pushed⟩ := walk_step_next flow transfers stepped
  · rw [skip.2]
    exact flagged
  · exact raised
  · obtain ⟨value, items, rest, entries, incomplete, -, -, -, rfl⟩ := pushed
    dsimp only [observe]
    split <;> simp [flagged]

theorem walk_loop_flagged (flagged : state.out.incomplete = true) : (walkLoop flow transfers state).incomplete = true := by
  fun_induction walkLoop flow transfers state with
  | case1 state out stepped =>
      unfold walkStep at stepped
      grind
  | case2 state next stepped ih => exact ih (walk_step_flagged flow transfers state next stepped flagged)

structure WalkInvariant (flow : Flow) (transfers : List FlowTransfer) (start : Nat × Bindings) (state : WalkState) : Prop where
  closed : Worklist.Closed (ValueStep flow transfers flatScope) (state.seen.map fun key => (key.1, key.2.1))
    (state.pending.map WalkItem.place)
  started : start ∈ (state.seen.map fun key => (key.1, key.2.1)) ∨ start ∈ state.pending.map WalkItem.place
  plain : ∀ item ∈ state.pending, item.field = none
  reported : ∀ key ∈ state.seen, key.1 ∈ state.out.ids
  reachable : ∀ item ∈ state.pending, Relation.ReflTransGen (ValueStep flow transfers flatScope) start item.place
  sound : ∀ id ∈ state.out.ids, ∃ bindings, Relation.ReflTransGen (ValueStep flow transfers flatScope) start (id, bindings)

theorem walk_invariant_initial (bindings : Bindings) (left frameEntries : Nat) :
    WalkInvariant flow transfers (start, bindings) ⟨[⟨start, bindings, 0, none⟩], [], left, frameEntries, {}⟩ where
  closed := Worklist.closed_initial _ _
  started := Or.inr (by simp [WalkItem.place])
  plain := by simp
  reported := by simp
  reachable := by
    intro item member
    obtain rfl : item = ⟨start, bindings, 0, none⟩ := by simpa using member
    exact .refl
  sound := by simp [FlowOrigins.ids]

theorem walk_invariant_step (start : Nat × Bindings)
    (state next : WalkState) (inv : WalkInvariant flow transfers start state)
    (stepped : walkStep flow transfers state = .next next) (complete : next.out.incomplete = false) :
    WalkInvariant flow transfers start next := by
  obtain ⟨item, pending, waiting, -, -, skip | ⟨-, raised, -⟩ | pushed⟩ := walk_step_next flow transfers stepped
  · obtain ⟨visited, rfl⟩ := skip
    have member : item.place ∈ state.seen.map fun key => (key.1, key.2.1) := List.mem_map.mpr ⟨item.key, visited, rfl⟩
    have closed := inv.closed
    have started := inv.started
    have plain := inv.plain
    simp only [waiting, List.map_cons] at closed started plain
    refine ⟨Worklist.closed_skip _ _ _ _ closed member, ?_, fun other listed => plain other (List.mem_cons_of_mem _ listed),
      inv.reported, fun other listed => inv.reachable other (by simp [waiting, listed]), inv.sound⟩
    rcases started with here | later
    · exact Or.inl here
    · rcases List.mem_cons.mp later with same | rest
      · exact Or.inl (same ▸ member)
      · exact Or.inr rest
  · simp [raised] at complete
  · obtain ⟨value, items, rest, entries, incomplete, fresh, found, turned, rfl⟩ := pushed
    have plain := inv.plain
    rw [waiting] at plain
    obtain ⟨id, bindings, depth, field⟩ := item
    obtain rfl : field = none := plain _ List.mem_cons_self
    have quiet : incomplete = false := by
      simp only [Bool.or_eq_false_iff] at complete
      exact complete.2
    subst quiet
    simp only [visitItem] at turned
    have closed := inv.closed
    have started := inv.started
    simp only [waiting, List.map_cons] at closed started
    have here := inv.reachable ⟨id, bindings, depth, none⟩ (by simp [waiting])
    refine ⟨?_, ?_, ?_, ?_, ?_, ?_⟩
    · have expanded := Worklist.closed_expand _ closed
        (fun other edge => List.mem_reverse.mpr
          (turn_complete flow transfers found turned edge))
      simpa [WalkItem.key] using expanded
    · rcases started with here | later
      · exact Or.inl (List.mem_cons_of_mem _ here)
      · rcases List.mem_cons.mp later with same | older
        · exact Or.inl (same ▸ List.mem_cons_self)
        · exact Or.inr (by simpa using Or.inr (by simpa using older))
    · intro other member
      rcases List.mem_append.mp member with pushed | older
      · exact turn_keeps_field flow transfers turned other (List.mem_reverse.mp pushed)
      · exact plain other (List.mem_cons_of_mem _ older)
    · intro key member
      change key.1 ∈ (FlowOrigins.mk (state.out.values.insert ⟨id, bindings⟩) state.out.incomplete).ids
      rw [ids_insert]
      rcases List.mem_cons.mp member with same | older
      · exact Or.inl (same ▸ rfl)
      · exact Or.inr (inv.reported key older)
    · intro other member
      rcases List.mem_append.mp member with pushed | older
      · exact here.tail (turn_sound flow transfers found turned (List.mem_reverse.mp pushed))
      · exact inv.reachable other (by simp [waiting, older])
    · intro target member
      change target ∈ (FlowOrigins.mk (state.out.values.insert ⟨id, bindings⟩) state.out.incomplete).ids at member
      rw [ids_insert] at member
      rcases member with same | older
      · exact ⟨bindings, same ▸ here⟩
      · exact inv.sound target older

theorem walk_step_done (out : FlowOrigins)
    (stepped : walkStep flow transfers state = .done out) (complete : out.incomplete = false) :
    state.pending = [] ∧ out = state.out := by
  unfold walkStep at stepped
  grind

theorem walk_loop_finishes (start : Nat × Bindings) (state : WalkState)
    (inv : WalkInvariant flow transfers start state) (complete : (walkLoop flow transfers state).incomplete = false) :
    ∃ final, WalkInvariant flow transfers start final ∧ final.pending = [] ∧ walkLoop flow transfers state = final.out := by
  induction state using walkLoop.induct flow transfers with
  | case1 state out stepped =>
      have ended : walkLoop flow transfers state = out := by
        rw [walkLoop]
        split <;> simp_all
      rw [ended] at complete ⊢
      obtain ⟨finished, same⟩ := walk_step_done flow transfers state out stepped complete
      exact ⟨state, inv, finished, same⟩
  | case2 state next stepped ih =>
      have continued : walkLoop flow transfers state = walkLoop flow transfers next := by
        rw [walkLoop]
        split <;> simp_all
      rw [continued] at complete ⊢
      have quiet : next.out.incomplete = false := by
        by_contra raised
        have flagged := walk_loop_flagged flow transfers next (by simpa using raised)
        simp [flagged] at complete
      exact ih (walk_invariant_step flow transfers start state next inv stepped quiet) complete

theorem origins_flat_iff (budget id : Nat) (complete : (origins flow start transfers budget).incomplete = false) :
    id ∈ (origins flow start transfers budget).ids ↔ FlatReach flow transfers start id := by
  obtain ⟨final, inv, finished, same⟩ := walk_loop_finishes flow transfers (start, []) _
    (walk_invariant_initial flow transfers start [] _ _) complete
  change origins flow start transfers budget = final.out at same
  rw [same]
  constructor
  · exact inv.sound id
  · rintro ⟨bindings, reach⟩
    have closed := inv.closed
    have started := inv.started
    simp only [finished, List.map_nil, List.not_mem_nil, or_false] at closed started
    have visited := Worklist.closed_reach _ closed started reach
    obtain ⟨key, member, eq⟩ := List.mem_map.mp visited
    have reported := inv.reported key member
    rwa [show key.1 = id from congrArg Prod.fst eq] at reported

-- f(p) returns p, called once with a literal: the frames agree, and the
-- literal is found through the call.
def identityCall : Flow :=
  ⟨[⟨.parameter, none, none, [], none, []⟩, ⟨.literal, some (.string "a"), none, [], none, []⟩,
    ⟨.call, none, some "f", [1], none, []⟩], [("f", ⟨[0], [0]⟩)]⟩

variable (scope : Scope Env)

theorem value_step_literal (id : Nat)
    (env : Env) (next : Nat × Env) (value : FlowValue) (found : flow.values[id]? = some value)
    (kind : value.kind = .literal) : ¬ ValueStep flow transfers scope (id, env) next := by
  intro edge
  cases edge <;> simp_all

theorem value_step_bound (id : Nat)
    (env : Env) (next actual : Nat × Env) (value : FlowValue) (found : flow.values[id]? = some value)
    (kind : value.kind = .parameter) (held : scope.lookup env id = some actual)
    (edge : ValueStep flow transfers scope (id, env) next) : next = actual := by
  cases edge <;> simp_all

theorem value_step_helper (id : Nat) (env : Env) (next : Nat × Env) (value : FlowValue) (function : FlowFunction)
    (found : flow.values[id]? = some value) (kind : value.kind = .call) (helper : localHelper flow value = some function)
    (edge : ValueStep flow transfers scope (id, env) next) :
    next.1 ∈ function.returns ∧ next.2 = scope.enter env function.parameters value.inputs := by
  cases edge <;> simp_all

theorem identity_call_reach (state : Nat × Activation × Bindings)
    (reach : Relation.ReflTransGen (ValueStep identityCall [] pairedScope) (2, (.top, [])) state) :
    state = (2, (.top, [])) ∨ state = (0, (.bind 0 1 .top .top, [(0, 1)])) ∨ state = (1, (.top, [(0, 1)])) := by
  induction reach with
  | refl => exact Or.inl rfl
  | tail _ edge ih =>
      rcases ih with rfl | rfl | rfl
      · obtain ⟨returned, entered⟩ := value_step_helper _ _ _ _ _ _ _ ⟨[0], [0]⟩ rfl rfl rfl edge
        exact Or.inr (Or.inl (Prod.ext (by simpa using returned) entered))
      · exact Or.inr (Or.inr (value_step_bound _ _ _ _ _ _ (1, (Activation.top, [(0, 1)])) _ rfl rfl rfl edge))
      · exact absurd edge (value_step_literal _ _ _ _ _ _ _ rfl rfl)

theorem identity_call_covered : DisagreementsCovered identityCall [] 2 := by
  refine frames_agree_covered identityCall [] 2 fun state reach value found kind => ?_
  rcases identity_call_reach state reach with rfl | rfl | rfl <;> rfl

-- A recursive helper whose inner call passes its own parameter inside a
-- merge: f(p, q) returns q and f(x, merge(p)). The inner frame overwrites p,
-- so the merge is read under the wrong p and the outer actual is lost.
def recursiveMerge : Flow :=
  ⟨[⟨.parameter, none, none, [], none, []⟩, ⟨.parameter, none, none, [], none, []⟩,
    ⟨.literal, some (.string "x"), none, [], none, []⟩, ⟨.merge, none, none, [0], none, []⟩,
    ⟨.call, none, some "f", [2, 3], none, []⟩, ⟨.literal, some (.string "s"), none, [], none, []⟩,
    ⟨.literal, some (.string "t"), none, [], none, []⟩, ⟨.call, none, some "f", [5, 6], none, []⟩],
    [("f", ⟨[0, 1], [1, 4]⟩)]⟩

theorem recursive_merge_reach : SubstitutionReach recursiveMerge [] 7 5 := by
  have outerCall : ValueStep recursiveMerge [] substitutionScope (7, .top) (4, Activation.enter .top [0, 1] [5, 6]) :=
    .helper 7 4 _ ⟨.call, none, some "f", [5, 6], none, []⟩ ⟨[0, 1], [1, 4]⟩ rfl rfl rfl (by decide)
  have innerCall : ValueStep recursiveMerge [] substitutionScope (4, Activation.enter .top [0, 1] [5, 6])
      (1, Activation.enter (Activation.enter .top [0, 1] [5, 6]) [0, 1] [2, 3]) :=
    .helper 4 1 _ ⟨.call, none, some "f", [2, 3], none, []⟩ ⟨[0, 1], [1, 4]⟩ rfl rfl rfl (by decide)
  have second : ValueStep recursiveMerge [] substitutionScope
      (1, Activation.enter (Activation.enter .top [0, 1] [5, 6]) [0, 1] [2, 3])
      (3, Activation.enter .top [0, 1] [5, 6]) := .bound 1 3 _ _ _ rfl rfl rfl
  have merged : ValueStep recursiveMerge [] substitutionScope (3, Activation.enter .top [0, 1] [5, 6])
      (0, Activation.enter .top [0, 1] [5, 6]) := .input 3 0 _ _ rfl (Or.inl rfl) (by decide)
  have first : ValueStep recursiveMerge [] substitutionScope (0, Activation.enter .top [0, 1] [5, 6]) (5, .top) :=
    .bound 0 5 _ _ _ rfl rfl rfl
  exact ⟨.top, .head outerCall (.head innerCall (.head second (.head merged (.single first))))⟩

end Filefacts.Output
