import Filefacts.Output.Walk

set_option autoImplicit false

namespace Filefacts.Output

-- A result reached on a smaller budget: a part of the other result, and all
-- of it unless something was left out.
def Extends (smaller larger : FlowOrigins) : Prop :=
  smaller.values ⊆ larger.values ∧ (smaller.incomplete = false → larger = smaller)

theorem extends_refl (out : FlowOrigins) : Extends out out := ⟨List.Subset.refl _, fun _ => rfl⟩

theorem extends_cut (smaller larger : FlowOrigins) (cut : smaller.incomplete = true)
    (part : smaller.values ⊆ larger.values) : Extends smaller larger :=
  ⟨part, fun whole => absurd (cut.symm.trans whole) (by decide)⟩

theorem scan_calls_richer (name : String) (position : Nat) (calls : List FlowValue) (less more rest : Nat)
    (next found : List Nat) (ordered : less ≤ more)
    (scanned : scanCalls name position calls less next = some (rest, found)) :
    ∃ spare, rest ≤ spare ∧ scanCalls name position calls more next = some (spare, found) := by
  induction calls generalizing less more next with
  | nil =>
      obtain ⟨rfl, rfl⟩ := Prod.mk.inj (Option.some.inj scanned)
      exact ⟨more, ordered, rfl⟩
  | cons call tail ih =>
      rw [scanCalls] at scanned ⊢
      by_cases spent : less = 0
      · simp [spent] at scanned
      · rw [if_neg spent] at scanned
        rw [if_neg (show more ≠ 0 by omega)]
        by_cases matching : call.kind = .call ∧ call.target = some name
        · rw [if_pos matching] at scanned ⊢
          exact ih _ _ _ (by omega) scanned
        · rw [if_neg matching] at scanned ⊢
          exact ih _ _ _ (by omega) scanned

theorem scan_functions_richer (values : List FlowValue) (id : Nat) (functions : List (String × FlowFunction))
    (less more rest : Nat) (next found : List Nat) (ordered : less ≤ more)
    (scanned : scanFunctions values id functions less next = some (rest, found)) :
    ∃ spare, rest ≤ spare ∧ scanFunctions values id functions more next = some (spare, found) := by
  induction functions generalizing less more next with
  | nil =>
      obtain ⟨rfl, rfl⟩ := Prod.mk.inj (Option.some.inj scanned)
      exact ⟨more, ordered, rfl⟩
  | cons entry tail ih =>
      obtain ⟨name, function⟩ := entry
      rw [scanFunctions] at scanned ⊢
      by_cases spent : less < 1 + function.parameters.length
      · simp [spent] at scanned
      · rw [if_neg spent] at scanned
        rw [if_neg (show ¬ more < 1 + function.parameters.length by omega)]
        cases declared : function.parameters.idxOf? id with
        | none =>
            rw [declared] at scanned
            exact ih _ _ _ (by omega) scanned
        | some position =>
            rw [declared] at scanned
            dsimp only at scanned ⊢
            cases calls : scanCalls name position values (less - (1 + function.parameters.length)) next with
            | none => simp [calls] at scanned
            | some result =>
                obtain ⟨remaining, gathered⟩ := result
                rw [calls] at scanned
                obtain ⟨spare, bound, richer⟩ := scan_calls_richer name position values _
                  (more - (1 + function.parameters.length)) _ _ _ (by omega) calls
                rw [richer]
                exact ih _ _ _ bound scanned

def TurnRicher (poorer richer : Turn) : Prop :=
  poorer = .stop ∨ (poorer = .flag ∧ richer = .flag) ∨
    ∃ items rest spare entries incomplete, poorer = .push items rest entries incomplete ∧
      richer = .push items spare entries incomplete ∧ rest ≤ spare

variable {less more : Nat}

theorem push_richer (items : List WalkItem) (entries : Nat) (incomplete : Bool) (ordered : less ≤ more) :
    TurnRicher (.push items less entries incomplete) (.push items more entries incomplete) :=
  Or.inr (Or.inr ⟨items, less, more, entries, incomplete, rfl, rfl, ordered⟩)

variable (flow : Flow) (transfers : List FlowTransfer) (state : WalkState)

variable (item : WalkItem) (value : FlowValue)

theorem turn_richer (frameEntries : Nat) (ordered : less ≤ more) :
    TurnRicher (turn flow transfers item value less frameEntries) (turn flow transfers item value more frameEntries) := by
  unfold turn
  cases kind : value.kind <;> dsimp only
  case parameter =>
    cases held : item.bindings.lookup item.id with
    | some actual => exact push_richer _ _ _ ordered
    | none =>
        cases scanned : scanFunctions flow.values item.id flow.functions less [] with
        | none => exact Or.inl rfl
        | some result =>
            obtain ⟨spare, bound, richer⟩ := scan_functions_richer _ _ _ _ _ _ _ _ ordered scanned
            rw [richer]
            exact push_richer _ _ _ bound
  case call =>
    cases helper : localHelper flow value with
    | some function =>
        dsimp only
        by_cases wide : item.bindings.length + function.parameters.length > frameBindingLimit
        · rw [if_pos wide, if_pos wide]
          exact Or.inr (Or.inl ⟨rfl, rfl⟩)
        · rw [if_neg wide, if_neg wide]
          by_cases short : frameEntries < (bindFrame item.bindings function.parameters value.inputs).length
          · rw [if_pos short]
            exact Or.inl rfl
          · rw [if_neg short, if_neg short]
            exact push_richer _ _ _ ordered
    | none =>
        by_cases projected : item.field.isSome = true
        · rw [if_pos projected, if_pos projected]
          exact Or.inr (Or.inl ⟨rfl, rfl⟩)
        · rw [if_neg projected, if_neg projected]
          exact push_richer _ _ _ ordered
  all_goals exact push_richer _ _ _ ordered

theorem visit_item_richer (less more frameEntries : Nat) (ordered : less ≤ more) :
    TurnRicher (visitItem flow transfers item value less frameEntries)
      (visitItem flow transfers item value more frameEntries) := by
  unfold visitItem
  cases wanted : item.field with
  | none => exact turn_richer flow transfers item value frameEntries ordered
  | some field =>
      dsimp only
      by_cases record : value.kind = .object ∨ value.kind = .keyword
      · rw [if_pos record, if_pos record]
        exact push_richer _ _ _ ordered
      · rw [if_neg record, if_neg record]
        by_cases literal : value.kind = .literal
        · rw [if_pos literal, if_pos literal]
          exact push_richer _ _ _ ordered
        · rw [if_neg literal, if_neg literal]
          exact turn_richer flow transfers item value frameEntries ordered

def WalkStep.out : WalkStep → FlowOrigins
  | .done out => out
  | .next state => state.out

theorem observe_grows (out : FlowOrigins) (item : WalkItem) : out.values ⊆ (observe out item).values := by
  unfold observe
  by_cases observed : item.field.isNone = true
  · rw [if_pos observed]
    exact fun origin member => List.mem_insert_of_mem member
  · rw [if_neg observed]
    exact List.Subset.refl _

theorem walk_step_grows : state.out.values ⊆ (walkStep flow transfers state).out.values := by
  unfold walkStep
  cases waiting : state.pending with
  | nil => exact List.Subset.refl _
  | cons item pending =>
      dsimp only
      split_ifs
      · exact List.Subset.refl _
      · exact List.Subset.refl _
      · cases found : flow.values[item.id]? with
        | none => exact List.Subset.refl _
        | some value =>
            dsimp only
            cases visitItem flow transfers item value (state.left - 1) state.frameEntries <;>
              exact observe_grows state.out item

theorem walk_loop_done (out : FlowOrigins)
    (stepped : walkStep flow transfers state = .done out) : walkLoop flow transfers state = out := by
  rw [walkLoop]
  split
  · rename_i other ended
    exact WalkStep.done.inj (ended.symm.trans stepped)
  · rename_i next went
    cases went.symm.trans stepped

theorem walk_loop_next (next : WalkState) (stepped : walkStep flow transfers state = .next next) :
    walkLoop flow transfers state = walkLoop flow transfers next := by
  rw [walkLoop]
  split
  · rename_i out ended
    cases ended.symm.trans stepped
  · rename_i other went
    rw [WalkStep.next.inj (went.symm.trans stepped)]

theorem walk_loop_grows (flow : Flow) (transfers : List FlowTransfer) (state : WalkState) :
    (walkStep flow transfers state).out.values ⊆ (walkLoop flow transfers state).values := by
  cases stepped : walkStep flow transfers state with
  | done out =>
      rw [walk_loop_done flow transfers state out stepped]
      exact List.Subset.refl _
  | next next =>
      rw [walk_loop_next flow transfers state next stepped]
      exact List.Subset.trans (walk_step_grows flow transfers next) (walk_loop_grows flow transfers next)
termination_by state.left
decreasing_by exact walk_step_left flow transfers stepped

def StepRicher (poorer richer : WalkStep) : Prop :=
  (∃ out, poorer = .done out ∧ out.incomplete = true ∧ out.values ⊆ richer.out.values) ∨
    (∃ out, poorer = .done out ∧ richer = .done out) ∨
    ∃ next more, poorer = .next next ∧ richer = .next { next with left := more } ∧ next.left ≤ more

theorem walk_step_richer (more : Nat) (ordered : state.left ≤ more) :
    StepRicher (walkStep flow transfers state) (walkStep flow transfers { state with left := more }) := by
  by_cases spent : state.left = 0
  · cases waiting : state.pending with
    | nil => exact Or.inr (Or.inl ⟨state.out, by simp [walkStep, waiting], by simp [walkStep]⟩)
    | cons item pending =>
        -- Out of steps: what the poorer walk holds, the richer one held too.
        have part := walk_step_grows flow transfers { state with left := more }
        rw [waiting] at part
        refine Or.inl ⟨{ state.out with incomplete := true }, ?_, rfl, part⟩
        simp [walkStep, waiting, spent]
  · have enough : more ≠ 0 := by omega
    unfold walkStep
    cases waiting : state.pending with
    | nil => exact Or.inr (Or.inl ⟨state.out, rfl, rfl⟩)
    | cons item pending =>
        dsimp only
        by_cases deep : item.depth > depthLimit
        · rw [if_pos (Or.inr deep), if_pos (Or.inr deep)]
          exact Or.inr (Or.inl ⟨_, rfl, rfl⟩)
        · rw [if_neg (not_or.mpr ⟨spent, deep⟩), if_neg (not_or.mpr ⟨enough, deep⟩)]
          have ordered : state.left - 1 ≤ more - 1 := by omega
          by_cases visited : item.key ∈ state.seen
          · rw [if_pos visited, if_pos visited]
            exact Or.inr (Or.inr ⟨_, more - 1, rfl, rfl, ordered⟩)
          · rw [if_neg visited, if_neg visited]
            cases found : flow.values[item.id]? with
            | none => exact Or.inr (Or.inr ⟨_, more - 1, rfl, rfl, ordered⟩)
            | some value =>
                dsimp only
                rcases visit_item_richer flow transfers item value _ _ state.frameEntries ordered with
                  stop | ⟨flag, flagToo⟩ | ⟨items, rest, spare, entries, incomplete, push, pushToo, kept⟩
                · rw [stop]
                  refine Or.inl ⟨_, rfl, rfl, ?_⟩
                  cases visitItem flow transfers item value (more - 1) state.frameEntries <;>
                    exact List.Subset.refl _
                · rw [flag, flagToo]
                  exact Or.inr (Or.inr ⟨_, more - 1, rfl, rfl, ordered⟩)
                · rw [push, pushToo]
                  exact Or.inr (Or.inr ⟨_, spare, rfl, rfl, kept⟩)

theorem walk_loop_richer (flow : Flow) (transfers : List FlowTransfer) {state : WalkState} {more : Nat}
    (ordered : state.left ≤ more) :
    Extends (walkLoop flow transfers state) (walkLoop flow transfers { state with left := more }) := by
  rcases walk_step_richer flow transfers state more ordered with
    ⟨out, stopped, cut, part⟩ | ⟨out, ended, endedToo⟩ | ⟨next, spare, stepped, steppedToo, kept⟩
  · rw [walk_loop_done flow transfers state out stopped]
    exact extends_cut _ _ cut (List.Subset.trans part (walk_loop_grows flow transfers _))
  · rw [walk_loop_done flow transfers state out ended, walk_loop_done flow transfers _ out endedToo]
    exact extends_refl out
  · have shorter := walk_step_left flow transfers stepped
    rw [walk_loop_next flow transfers state next stepped, walk_loop_next flow transfers _ _ steppedToo]
    exact walk_loop_richer flow transfers kept
termination_by state.left

theorem walk_extends (start : Nat) (bindings : Bindings) (transfers : List FlowTransfer) (field : Option String) (ordered : less ≤ more) :
    Extends (walk flow start bindings transfers less field) (walk flow start bindings transfers more field) :=
  walk_loop_richer flow transfers (min_le_min_right stepLimit ordered)

theorem argument_origins_extends (origin : FlowOrigin) (argument : Nat) (transfers : List FlowTransfer)
    (less more : Nat) (ordered : less ≤ more) :
    Extends (argumentOrigins flow origin argument transfers less) (argumentOrigins flow origin argument transfers more) := by
  unfold argumentOrigins
  cases flow.values[origin.value]?.bind fun value => value.inputs[argument]? with
  | none => exact extends_refl _
  | some start => exact walk_extends flow start origin.bindings transfers none ordered

theorem budget_extends (flow : Flow) (transfers : List FlowTransfer) (less more : Nat) (ordered : less ≤ more) :
    (∀ start, Extends (origins flow start transfers less) (origins flow start transfers more)) ∧
      (∀ start field, Extends (fieldOrigins flow start field transfers less) (fieldOrigins flow start field transfers more)) ∧
      (∀ origin argument, Extends (argumentOrigins flow origin argument transfers less)
        (argumentOrigins flow origin argument transfers more)) ∧
      ∀ start bindings field, Extends (walk flow start bindings transfers less field)
        (walk flow start bindings transfers more field) :=
  ⟨fun start => walk_extends flow start [] transfers none ordered,
    fun start field => walk_extends flow start [] transfers (some field) ordered,
    fun origin argument => argument_origins_extends flow origin argument transfers less more ordered,
    fun start bindings field => walk_extends flow start bindings transfers field ordered⟩

def pairFlow : Flow := { values := [{ kind := .merge, inputs := [1, 2] }, { kind := .literal }, { kind := .literal }] }

theorem budget_extends_pair : (2 : Nat) ≤ 3 ∧ Extends (origins pairFlow 0 [] 2) (origins pairFlow 0 [] 3) :=
  ⟨by decide, (budget_extends pairFlow [] 2 3 (by decide)).1 0⟩

end Filefacts.Output
