import Filefacts.Output.Flow

set_option autoImplicit false

namespace Filefacts.Output

-- One pending entry of the walk, and the visited key it is compared by.
structure WalkItem where
  id : Nat
  bindings : Bindings
  depth : Nat
  field : Option String
deriving DecidableEq, Repr

abbrev WalkKey := Nat × Bindings × Option String

def WalkItem.key (item : WalkItem) : WalkKey := (item.id, item.bindings, item.field)

abbrev WalkItem.place (item : WalkItem) : Nat × Bindings := (item.id, item.bindings)

structure WalkState where
  pending : List WalkItem
  seen : List WalkKey
  left : Nat
  frameEntries : Nat
  out : FlowOrigins
deriving DecidableEq, Repr

-- What one turn of the loop body does: stop the whole walk, flag this value
-- and go on without its inputs, or push work with the budgets that remain.
inductive Turn where
  | stop
  | flag
  | push (items : List WalkItem) (left frameEntries : Nat) (incomplete : Bool)
deriving DecidableEq, Repr

def scanCalls (name : String) (position : Nat) : List FlowValue → Nat → List Nat → Option (Nat × List Nat)
  | [], left, next => some (left, next)
  | call :: rest, left, next =>
      if left = 0 then none
      else if call.kind = .call ∧ call.target = some name then
        scanCalls name position rest (left - 1) (next ++ call.inputs[position]?.toList)
      else scanCalls name position rest (left - 1) next

def scanFunctions (values : List FlowValue) (id : Nat) :
    List (String × FlowFunction) → Nat → List Nat → Option (Nat × List Nat)
  | [], left, next => some (left, next)
  | (name, function) :: rest, left, next =>
      if left < 1 + function.parameters.length then none
      else
        let remaining := left - (1 + function.parameters.length)
        match function.parameters.idxOf? id with
        | none => scanFunctions values id rest remaining next
        | some position =>
            match scanCalls name position values remaining next with
            | none => none
            | some (remaining, next) => scanFunctions values id rest remaining next

-- The callee's map: the caller's whole map, overwritten by the parameters. An
-- actual that is itself bound is resolved, one level and no deeper.
def bindFrame (bindings : Bindings) (parameters inputs : List Nat) : Bindings :=
  (parameters.zip inputs).foldl
    (fun frame (param, actual) => frame.insert param ((bindings.lookup actual).getD actual)) bindings

def localHelper (flow : Flow) (value : FlowValue) : Option FlowFunction :=
  value.target.bind fun target => flow.functions.lookup target

def matchingTransfers (transfers : List FlowTransfer) (value : FlowValue) : List FlowTransfer :=
  transfers.filter fun model => value.target = some model.call

def transferInputs (value : FlowValue) (model : FlowTransfer) : List Nat :=
  model.arguments.filterMap (fun position => value.inputs[position]?) ++
    if model.receiver then value.receiver.toList else []

-- The match on the value's kind. `field` is what is still to be projected;
-- `left` and `frameEntries` are the budgets after this turn's own charge.
def turn (flow : Flow) (transfers : List FlowTransfer) (item : WalkItem) (value : FlowValue)
    (left frameEntries : Nat) : Turn :=
  let follow (next : List Nat) (left : Nat) (incomplete : Bool) : Turn :=
    .push (next.map fun id => ⟨id, item.bindings, item.depth + 1, item.field⟩) left frameEntries incomplete
  match value.kind with
  | .object => follow (value.fields.map Prod.snd) left false
  | .keyword => follow [] left false
  | .merge | .concat | .alternative => follow value.inputs left false
  | .parameter =>
      match item.bindings.lookup item.id with
      | some actual => follow [actual] left false
      | none =>
          match scanFunctions flow.values item.id flow.functions left [] with
          | none => .stop
          | some (left, next) => follow next left false
  | .call =>
      match localHelper flow value with
      | some function =>
          if item.bindings.length + function.parameters.length > frameBindingLimit then .flag
          else
            let frame := bindFrame item.bindings function.parameters value.inputs
            if frameEntries < frame.length then .stop
            else
              .push (function.returns.map fun id => ⟨id, frame, item.depth + 1, item.field⟩) left
                (frameEntries - frame.length) false
      | none =>
          if item.field.isSome then .flag
          else
            let models := matchingTransfers transfers value
            follow (models.flatMap (transferInputs value)) left models.isEmpty
  | .unknown => follow [] left true
  | .literal | .member => follow [] left false

-- A requested field is projected at the first record; a literal has none.
-- Only a value reached with nothing left to project is an observation.
def visitItem (flow : Flow) (transfers : List FlowTransfer) (item : WalkItem) (value : FlowValue)
    (left frameEntries : Nat) : Turn :=
  match item.field with
  | none => turn flow transfers item value left frameEntries
  | some field =>
      if value.kind = .object ∨ value.kind = .keyword then
        .push ((value.fields.lookup field).toList.map fun id => ⟨id, item.bindings, item.depth + 1, none⟩)
          left frameEntries false
      else if value.kind = .literal then .push [] left frameEntries false
      else turn flow transfers item value left frameEntries

def observe (out : FlowOrigins) (item : WalkItem) : FlowOrigins :=
  if item.field.isNone then { out with values := out.values.insert ⟨item.id, item.bindings⟩ } else out

inductive WalkStep where
  | done (out : FlowOrigins)
  | next (state : WalkState)
deriving DecidableEq, Repr

def walkStep (flow : Flow) (transfers : List FlowTransfer) (state : WalkState) : WalkStep :=
  match state.pending with
  | [] => .done state.out
  | item :: pending =>
      if state.left = 0 ∨ item.depth > depthLimit then .done { state.out with incomplete := true }
      else
        let left := state.left - 1
        if item.key ∈ state.seen then .next { state with pending := pending, left := left }
        else
          let seen := item.key :: state.seen
          match flow.values[item.id]? with
          | none => .next { state with pending, seen, left, out := { state.out with incomplete := true } }
          | some value =>
              let out := observe state.out item
              match visitItem flow transfers item value left state.frameEntries with
              | .stop => .done { out with incomplete := true }
              | .flag => .next { state with pending, seen, left, out := { out with incomplete := true } }
              | .push items left frameEntries incomplete =>
                  .next ⟨items.reverse ++ pending, seen, left, frameEntries,
                    { out with incomplete := out.incomplete || incomplete }⟩

def callArguments (name : String) (position : Nat) (calls : List FlowValue) : List Nat :=
  calls.flatMap fun call => if call.kind = .call ∧ call.target = some name then call.inputs[position]?.toList else []

def callerArguments (values : List FlowValue) (id : Nat) (functions : List (String × FlowFunction)) : List Nat :=
  functions.flatMap fun entry =>
    match entry.2.parameters.idxOf? id with
    | none => []
    | some position => callArguments entry.1 position values

theorem scan_calls_result (name : String) (position : Nat) (calls : List FlowValue) (left rest : Nat)
    (next found : List Nat) (scanned : scanCalls name position calls left next = some (rest, found)) :
    rest ≤ left ∧ found = next ++ callArguments name position calls := by
  induction calls generalizing left next with
  | nil => simp_all [scanCalls, callArguments]
  | cons call tail ih =>
      rw [scanCalls] at scanned
      split at scanned
      · simp at scanned
      · by_cases matching : call.kind = .call ∧ call.target = some name
        · rw [if_pos matching] at scanned
          obtain ⟨bound, eq⟩ := ih _ _ scanned
          exact ⟨Nat.le_trans bound (Nat.sub_le _ _), by simp [eq, callArguments, matching]⟩
        · rw [if_neg matching] at scanned
          obtain ⟨bound, eq⟩ := ih _ _ scanned
          exact ⟨Nat.le_trans bound (Nat.sub_le _ _), by simp [eq, callArguments, matching]⟩

variable (values : List FlowValue) (id : Nat)

theorem scan_functions_result (functions : List (String × FlowFunction)) (left rest : Nat) (next found : List Nat)
    (scanned : scanFunctions values id functions left next = some (rest, found)) :
    rest ≤ left ∧ found = next ++ callerArguments values id functions := by
  induction functions generalizing left next with
  | nil => simp_all [scanFunctions, callerArguments]
  | cons entry tail ih =>
      obtain ⟨name, function⟩ := entry
      rw [scanFunctions] at scanned
      split at scanned
      · simp at scanned
      · dsimp only at scanned
        cases declared : function.parameters.idxOf? id with
        | none =>
            rw [declared] at scanned
            obtain ⟨bound, eq⟩ := ih _ _ scanned
            exact ⟨Nat.le_trans bound (Nat.sub_le _ _), by simp [eq, callerArguments, declared]⟩
        | some position =>
            rw [declared] at scanned
            dsimp only at scanned
            cases calls : scanCalls name position values (left - (1 + function.parameters.length)) next with
            | none => simp [calls] at scanned
            | some result =>
                obtain ⟨remaining, gathered⟩ := result
                rw [calls] at scanned
                obtain ⟨inner, innerEq⟩ := scan_calls_result _ _ _ _ _ _ _ calls
                obtain ⟨outer, eq⟩ := ih _ _ scanned
                exact ⟨by omega, by simp [eq, innerEq, callerArguments, declared]⟩

theorem mem_caller_arguments (actual : Nat) (functions : List (String × FlowFunction)) :
    actual ∈ callerArguments values id functions ↔
      ∃ name function position call, (name, function) ∈ functions ∧ function.parameters.idxOf? id = some position ∧
        call ∈ values ∧ call.kind = .call ∧ call.target = some name ∧ call.inputs[position]? = some actual := by
  simp only [callerArguments, List.mem_flatMap]
  constructor
  · rintro ⟨⟨name, function⟩, owner, member⟩
    cases declared : function.parameters.idxOf? id with
    | none => simp [declared] at member
    | some position =>
        simp only [declared, callArguments, List.mem_flatMap] at member
        obtain ⟨call, listed, reads⟩ := member
        by_cases matching : call.kind = .call ∧ call.target = some name
        · rw [if_pos matching] at reads
          exact ⟨name, function, position, call, owner, declared, listed, matching.1, matching.2, by simpa using reads⟩
        · simp [matching] at reads
  · rintro ⟨name, function, position, call, owner, declared, listed, kind, target, argument⟩
    refine ⟨(name, function), owner, ?_⟩
    simp only [declared, callArguments, List.mem_flatMap]
    exact ⟨call, listed, by simp [kind, target, argument]⟩

variable (flow : Flow) (transfers : List FlowTransfer)

theorem turn_left {item : WalkItem} {value : FlowValue}
    {left frameEntries rest entries : Nat} {items : List WalkItem} {incomplete : Bool}
    (pushed : turn flow transfers item value left frameEntries = .push items rest entries incomplete) : rest ≤ left := by
  unfold turn at pushed
  cases kind : value.kind <;> simp only [kind, Turn.push.injEq] at pushed
  case parameter =>
    split at pushed
    · simp_all
    · split at pushed
      · simp at pushed
      · rename_i scanned
        have bound := (scan_functions_result _ _ _ _ _ _ _ scanned).1
        simp only [Turn.push.injEq] at pushed
        omega
  case call =>
    split at pushed
    · split at pushed
      · simp at pushed
      · split at pushed
        · simp at pushed
        · simp_all
    · split at pushed
      · simp at pushed
      · simp_all
  all_goals omega

theorem visit_item_left (item : WalkItem) (value : FlowValue)
    (left frameEntries rest entries : Nat) (items : List WalkItem) (incomplete : Bool)
    (pushed : visitItem flow transfers item value left frameEntries = .push items rest entries incomplete) :
    rest ≤ left := by
  unfold visitItem at pushed
  split at pushed
  · exact turn_left _ _ pushed
  · split at pushed
    · simp_all
    · split at pushed
      · simp_all
      · exact turn_left _ _ pushed

theorem walk_step_next {state next : WalkState} (stepped : walkStep flow transfers state = .next next) :
    ∃ item pending, state.pending = item :: pending ∧ state.left ≠ 0 ∧ item.depth ≤ depthLimit ∧
      ((item.key ∈ state.seen ∧ next = { state with pending := pending, left := state.left - 1 }) ∨
        (item.key ∉ state.seen ∧ next.out.incomplete = true ∧ next.left = state.left - 1) ∨
        ∃ value items rest entries incomplete, item.key ∉ state.seen ∧ flow.values[item.id]? = some value ∧
          visitItem flow transfers item value (state.left - 1) state.frameEntries = .push items rest entries incomplete ∧
          next = ⟨items.reverse ++ pending, item.key :: state.seen, rest, entries,
            { observe state.out item with incomplete := (observe state.out item).incomplete || incomplete }⟩) := by
  unfold walkStep at stepped
  cases waiting : state.pending with
  | nil => simp [waiting] at stepped
  | cons item pending =>
      rw [waiting] at stepped
      dsimp only at stepped
      by_cases halted : state.left = 0 ∨ item.depth > depthLimit
      · simp [halted] at stepped
      · rw [if_neg halted] at stepped
        refine ⟨item, pending, rfl, fun zero => halted (Or.inl zero), Nat.le_of_not_gt fun deep => halted (Or.inr deep), ?_⟩
        by_cases visited : item.key ∈ state.seen
        · rw [if_pos visited, WalkStep.next.injEq] at stepped
          exact Or.inl ⟨visited, stepped.symm⟩
        · rw [if_neg visited] at stepped
          cases found : flow.values[item.id]? with
          | none =>
              rw [found] at stepped
              simp only [WalkStep.next.injEq] at stepped
              exact Or.inr (Or.inl ⟨visited, by rw [← stepped], by rw [← stepped]⟩)
          | some value =>
              rw [found] at stepped
              dsimp only at stepped
              cases turned : visitItem flow transfers item value (state.left - 1) state.frameEntries with
              | stop => simp [turned] at stepped
              | flag =>
                  rw [turned] at stepped
                  simp only [WalkStep.next.injEq] at stepped
                  exact Or.inr (Or.inl ⟨visited, by rw [← stepped], by rw [← stepped]⟩)
              | push items rest entries incomplete =>
                  rw [turned] at stepped
                  simp only [WalkStep.next.injEq] at stepped
                  exact Or.inr (Or.inr ⟨value, items, rest, entries, incomplete, visited, rfl, turned, stepped.symm⟩)

theorem walk_step_left {state next : WalkState}
    (stepped : walkStep flow transfers state = .next next) : next.left < state.left := by
  obtain ⟨item, pending, -, budget, -, skip | ⟨-, -, left⟩ | pushed⟩ := walk_step_next flow transfers stepped
  · rw [skip.2]
    exact Nat.sub_lt (Nat.pos_of_ne_zero budget) Nat.one_pos
  · omega
  · obtain ⟨value, items, rest, entries, incomplete, -, -, turned, rfl⟩ := pushed
    have bound := visit_item_left _ _ _ _ _ _ _ _ _ _ turned
    dsimp only
    omega

-- Every iteration spends at least one step, so no fuel is inserted.
def walkLoop (flow : Flow) (transfers : List FlowTransfer) (state : WalkState) : FlowOrigins :=
  match _stepped : walkStep flow transfers state with
  | .done out => out
  | .next next => walkLoop flow transfers next
termination_by state.left
decreasing_by exact walk_step_left flow transfers _stepped

def walk (flow : Flow) (start : Nat) (bindings : Bindings) (transfers : List FlowTransfer) (budget : Nat)
    (field : Option String) : FlowOrigins :=
  walkLoop flow transfers ⟨[⟨start, bindings, 0, field⟩], [], min budget stepLimit, frameEntryLimit, {}⟩

def origins (flow : Flow) (start : Nat) (transfers : List FlowTransfer) (budget : Nat) : FlowOrigins :=
  walk flow start [] transfers budget none

def fieldOrigins (flow : Flow) (start : Nat) (field : String) (transfers : List FlowTransfer) (budget : Nat) :
    FlowOrigins :=
  walk flow start [] transfers budget (some field)

def argumentOrigins (flow : Flow) (origin : FlowOrigin) (argument : Nat) (transfers : List FlowTransfer)
    (budget : Nat) : FlowOrigins :=
  match flow.values[origin.value]?.bind fun value => value.inputs[argument]? with
  | none => { incomplete := true }
  | some start => walk flow start origin.bindings transfers budget none

end Filefacts.Output
