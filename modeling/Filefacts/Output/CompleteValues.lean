import Filefacts.Output.Flow

set_option autoImplicit false

namespace Filefacts.Output

-- The kinds of Arg that complete_values reads as a finished value.
def completeLiteral : Option Arg → Bool
  | some (.string _) => true
  | some (.number _ _ _) => true
  | some (.bool _) => true
  | some .null => true
  | _ => false

abbrev Place := Nat × Option String

inductive PlaceShape where
  | dangling
  | literal
  | alternative (inputs : List Nat)
  | projected (next : Nat)
  | lacking
  | unsupported

-- The chain of tests in the loop body, in the order the source makes them.
def placeShape (flow : Flow) (place : Place) : PlaceShape :=
  match flow.values[place.1]? with
  | none => .dangling
  | some value =>
      if place.2.isNone && completeLiteral value.literal then .literal
      else if value.kind = .alternative then .alternative value.inputs
      else
        match place.2 with
        | some field =>
            if value.kind = .object ∨ value.kind = .keyword then
              match value.fields.lookup field with
              | some next => .projected next
              | none => .lacking
            else .unsupported
        | none => .unsupported

-- The pending stack has its top first, so extending it prepends in reverse.
-- `left` is the loop's countdown, which every iteration lowers by one.
def completeLoop (flow : Flow) : Nat → List (Place × Nat) → List Place → FlowOrigins → FlowOrigins
  | _, [], _, out => out
  | 0, _ :: _, _, out => { out with incomplete := true }
  | left + 1, (place, depth) :: pending, seen, out =>
      if depth > depthLimit then { out with incomplete := true }
      else if place ∈ seen then completeLoop flow left pending seen out
      else
        match placeShape flow place with
        | .dangling => completeLoop flow left pending (place :: seen) { out with incomplete := true }
        | .literal => completeLoop flow left pending (place :: seen) { out with values := out.values.insert ⟨place.1, []⟩ }
        | .alternative inputs =>
            if inputs.length + pending.length > left then { out with incomplete := true }
            else
              completeLoop flow left ((inputs.map fun id => ((id, place.2), depth + 1)).reverse ++ pending)
                (place :: seen) out
        | .projected next => completeLoop flow left (((next, none), depth + 1) :: pending) (place :: seen) out
        | .lacking => completeLoop flow left pending (place :: seen) out
        | .unsupported => completeLoop flow left pending (place :: seen) { out with incomplete := true }

def completeValues (flow : Flow) (start : Nat) (field : Option String) (budget : Nat) : FlowOrigins :=
  completeLoop flow (min budget stepLimit) [((start, field), 0)] [] {}

-- What a place is, said about the graph alone: a value to report, or the end
-- of a chain. Nothing below mentions the walk's order, budget or depth.
def LiteralAt (flow : Flow) (place : Place) : Prop :=
  place.2 = none ∧ ∃ value, flow.values[place.1]? = some value ∧ completeLiteral value.literal = true

def LacksField (flow : Flow) (place : Place) : Prop :=
  ∃ value field, flow.values[place.1]? = some value ∧ place.2 = some field ∧
    (value.kind = .object ∨ value.kind = .keyword) ∧ value.fields.lookup field = none

def EmptyAlternative (flow : Flow) (place : Place) : Prop :=
  ∃ value, flow.values[place.1]? = some value ∧ value.kind = .alternative ∧ value.inputs = []

-- One link of a chain: into an input of an alternative, or through the one
-- projection of the requested field.
inductive Link (flow : Flow) : Place → Place → Prop where
  | alternative (id next : Nat) (field : Option String) (value : FlowValue)
      (found : flow.values[id]? = some value) (kind : value.kind = .alternative) (input : next ∈ value.inputs) :
      Link flow (id, field) (next, field)
  | projection (id next : Nat) (field : String) (value : FlowValue)
      (found : flow.values[id]? = some value) (kind : value.kind = .object ∨ value.kind = .keyword)
      (entry : value.fields.lookup field = some next) : Link flow (id, some field) (next, none)

-- A chain stops at the first value it reads as a literal.
def Follows (flow : Flow) (place next : Place) : Prop := Link flow place next ∧ ¬ LiteralAt flow place

abbrev Reached (flow : Flow) (start place : Place) : Prop := Relation.ReflTransGen (Follows flow) start place

abbrev ReachedIn (flow : Flow) (start : Place) (links : Nat) (place : Place) : Prop :=
  Worklist.Chain (Follows flow) start links place

def Settled (flow : Flow) (place : Place) : Prop :=
  LiteralAt flow place ∨ LacksField flow place ∨ EmptyAlternative flow place ∨ ∃ next, Follows flow place next

def ShapeContract (flow : Flow) (place : Place) : PlaceShape → Prop
  | .dangling => flow.values[place.1]? = none
  | .literal => LiteralAt flow place
  | .alternative inputs =>
      ¬ LiteralAt flow place ∧
        ∃ value, flow.values[place.1]? = some value ∧ value.kind = .alternative ∧ value.inputs = inputs
  | .projected next =>
      ∃ value field, flow.values[place.1]? = some value ∧ place.2 = some field ∧
        (value.kind = .object ∨ value.kind = .keyword) ∧ value.fields.lookup field = some next
  | .lacking => LacksField flow place
  | .unsupported => ∃ value, flow.values[place.1]? = some value ∧ ¬ LiteralAt flow place

variable (flow : Flow) (place next start : Place)

theorem place_shape_contract : ShapeContract flow place (placeShape flow place) := by
  obtain ⟨id, field⟩ := place
  unfold placeShape
  cases found : flow.values[id]? with
  | none => exact found
  | some value =>
      dsimp only
      by_cases literal : (field.isNone && completeLiteral value.literal) = true
      · rw [if_pos literal]
        obtain ⟨absent, complete⟩ := Bool.and_eq_true_iff.mp literal
        exact ⟨Option.isNone_iff_eq_none.mp absent, value, found, complete⟩
      · have notLiteral : ¬ LiteralAt flow (id, field) := by
          rintro ⟨absent, other, otherFound, complete⟩
          have same : other = value := Option.some.inj (otherFound.symm.trans found)
          exact literal (by simp [show field = none from absent, same ▸ complete])
        rw [if_neg literal]
        by_cases kind : value.kind = .alternative
        · rw [if_pos kind]
          exact ⟨notLiteral, value, found, kind, rfl⟩
        · rw [if_neg kind]
          cases field with
          | none => exact ⟨value, found, notLiteral⟩
          | some name =>
              by_cases record : value.kind = .object ∨ value.kind = .keyword
              · simp only [if_pos record]
                cases entry : value.fields.lookup name with
                | none => exact ⟨value, name, found, rfl, record, entry⟩
                | some next => exact ⟨value, name, found, rfl, record, entry⟩
              · simp only [if_neg record]
                exact ⟨value, found, notLiteral⟩

theorem literal_follows_nothing (literal : LiteralAt flow place) : ¬ Follows flow place next := fun follows => follows.2 literal

theorem alternative_follows {inputs : List Nat} (contract : ShapeContract flow place (.alternative inputs)) :
    Follows flow place next ↔ ∃ id ∈ inputs, next = (id, place.2) := by
  obtain ⟨open_, value, found, kind, rfl⟩ := contract
  constructor
  · rintro ⟨link, -⟩
    cases link with
    | alternative id next field other otherFound otherKind input =>
        have same : other = value := Option.some.inj (otherFound.symm.trans found)
        exact ⟨next, same ▸ input, rfl⟩
    | projection id next name other otherFound otherKind entry =>
        have same : other = value := Option.some.inj (otherFound.symm.trans found)
        simp [same, kind] at otherKind
  · rintro ⟨id, input, rfl⟩
    exact ⟨.alternative place.1 id place.2 value found kind input, open_⟩

theorem alternative_settled (inputs : List Nat)
    (contract : ShapeContract flow place (.alternative inputs)) : Settled flow place := by
  cases inputs with
  | nil =>
      obtain ⟨-, value, found, kind, none_⟩ := contract
      exact Or.inr (Or.inr (Or.inl ⟨value, found, kind, none_⟩))
  | cons id rest =>
      have edge := (alternative_follows flow place (id, place.2) contract).mpr ⟨id, by simp, rfl⟩
      exact Or.inr (Or.inr (Or.inr ⟨(id, place.2), edge⟩))

theorem projected_follows (target : Nat) (contract : ShapeContract flow place (.projected target)) :
    Follows flow place next ↔ next = (target, none) := by
  obtain ⟨value, field, found, requested, kind, entry⟩ := contract
  have open_ : ¬ LiteralAt flow place := by
    rintro ⟨absent, -⟩
    simp [requested] at absent
  constructor
  · rintro ⟨link, -⟩
    cases link with
    | alternative id next _ other otherFound otherKind input =>
        have same : other = value := Option.some.inj (otherFound.symm.trans found)
        simp [same ▸ otherKind] at kind
    | projection id next name other otherFound otherKind otherEntry =>
        have same : other = value := Option.some.inj (otherFound.symm.trans found)
        have sameName : name = field := Option.some.inj requested
        rw [same, sameName, entry] at otherEntry
        rw [Option.some.inj otherEntry]
  · rintro rfl
    refine ⟨?_, open_⟩
    obtain ⟨id, name⟩ := place
    simp only at requested found
    subst requested
    exact .projection id target field value found kind entry

theorem lacking_follows_nothing (lacking : LacksField flow place) : ¬ Follows flow place next := by
  obtain ⟨value, field, found, requested, kind, entry⟩ := lacking
  rintro ⟨link, -⟩
  cases link with
  | alternative id next _ other otherFound otherKind input =>
      have same : other = value := Option.some.inj (otherFound.symm.trans found)
      simp [same ▸ otherKind] at kind
  | projection id next name other otherFound otherKind otherEntry =>
      have same : other = value := Option.some.inj (otherFound.symm.trans found)
      have sameName : name = field := Option.some.inj requested
      simp [same, sameName, entry] at otherEntry

-- The walk while nothing has gone wrong: what it has visited and reported,
-- and how far from the start it has come.
structure CompleteInvariant (flow : Flow) (start : Place) (total left : Nat) (pending : List (Place × Nat))
    (seen : List Place) (out : FlowOrigins) : Prop where
  closed : Worklist.Closed (Follows flow) seen (pending.map Prod.fst)
  started : start ∈ seen ∨ start ∈ pending.map Prod.fst
  reported : ∀ id, id ∈ out.ids ↔ (id, none) ∈ seen ∧ LiteralAt flow (id, none)
  settled : ∀ place ∈ seen, Settled flow place
  depths : ∀ entry ∈ pending, ReachedIn flow start entry.2 entry.1
  shallow : ∀ place ∈ seen, ∃ links, links ≤ depthLimit ∧ ReachedIn flow start links place
  spent : seen.length + left ≤ total

theorem complete_invariant_initial (total : Nat) : CompleteInvariant flow start total total [(start, 0)] [] {} where
  closed := Worklist.closed_initial _ _
  started := Or.inr (by simp)
  reported := by simp [FlowOrigins.ids]
  settled := by simp
  depths := by
    intro entry member
    have same : entry = (start, 0) := by simpa using member
    exact same ▸ .start
  shallow := by simp
  spent := by simp

theorem complete_invariant_skip {place : Place} {total left depth : Nat}
    {pending : List (Place × Nat)} {seen : List Place} {out : FlowOrigins}
    (inv : CompleteInvariant flow start total (left + 1) ((place, depth) :: pending) seen out)
    (visited : place ∈ seen) : CompleteInvariant flow start total left pending seen out where
  closed := Worklist.closed_skip _ _ _ _ inv.closed visited
  started := by
    rcases inv.started with here | later
    · exact Or.inl here
    · rcases List.mem_cons.mp later with same | rest
      · exact Or.inl (same ▸ visited)
      · exact Or.inr rest
  reported := inv.reported
  settled := inv.settled
  depths := fun entry member => inv.depths entry (List.mem_cons_of_mem _ member)
  shallow := inv.shallow
  spent := by
    have bound := inv.spent
    omega

theorem complete_invariant_visit (place : Place) (total left depth : Nat) (fresh : List Place)
    (pending : List (Place × Nat)) (seen : List Place) (out next : FlowOrigins)
    (inv : CompleteInvariant flow start total (left + 1) ((place, depth) :: pending) seen out)
    (shallow : depth ≤ depthLimit) (settled : Settled flow place)
    (exact_ : ∀ other, Follows flow place other ↔ other ∈ fresh)
    (reports : ∀ id, id ∈ next.ids ↔ ((id, none) = place ∧ LiteralAt flow place) ∨ id ∈ out.ids) :
    CompleteInvariant flow start total left (fresh.map (fun other => (other, depth + 1)) ++ pending)
      (place :: seen) next where
  closed := by
    have expanded := Worklist.closed_expand (Follows flow) inv.closed
      (fun other edge => (exact_ other).mp edge)
    simpa [Function.comp_def] using expanded
  started := by
    rcases inv.started with here | later
    · exact Or.inl (List.mem_cons_of_mem _ here)
    · rcases List.mem_cons.mp later with same | rest
      · exact Or.inl (same ▸ List.mem_cons_self)
      · exact Or.inr (by simpa using Or.inr (by simpa using rest))
  reported := by
    intro id
    rw [reports id, inv.reported id, List.mem_cons]
    constructor
    · rintro (⟨same, literal⟩ | ⟨member, literal⟩)
      · exact ⟨Or.inl same, same ▸ literal⟩
      · exact ⟨Or.inr member, literal⟩
    · rintro ⟨same | member, literal⟩
      · exact Or.inl ⟨same, same ▸ literal⟩
      · exact Or.inr ⟨member, literal⟩
  settled := by
    intro other member
    rcases List.mem_cons.mp member with same | older
    · exact same ▸ settled
    · exact inv.settled other older
  depths := by
    intro entry member
    rcases List.mem_append.mp member with pushed | older
    · obtain ⟨other, listed, rfl⟩ := List.mem_map.mp pushed
      exact .next depth place other (inv.depths (place, depth) List.mem_cons_self) ((exact_ other).mpr listed)
    · exact inv.depths entry (List.mem_cons_of_mem _ older)
  shallow := by
    intro other member
    rcases List.mem_cons.mp member with same | older
    · exact ⟨depth, shallow, same ▸ inv.depths (place, depth) List.mem_cons_self⟩
    · exact inv.shallow other older
  spent := by
    have bound := inv.spent
    simp only [List.length_cons]
    omega

theorem complete_loop_flagged (left : Nat) (pending : List (Place × Nat)) (seen : List Place)
    (out : FlowOrigins) (flagged : out.incomplete = true) :
    (completeLoop flow left pending seen out).incomplete = true := by
  fun_induction completeLoop flow left pending seen out <;> simp_all

theorem complete_loop_explores (total left : Nat) (pending : List (Place × Nat))
    (seen : List Place) (out : FlowOrigins) (inv : CompleteInvariant flow start total left pending seen out)
    (complete : (completeLoop flow left pending seen out).incomplete = false) :
    ∃ visited, CompleteInvariant flow start total 0 [] visited (completeLoop flow left pending seen out) := by
  induction left generalizing pending seen out with
  | zero =>
      cases pending with
      | nil => exact ⟨seen, by simpa only [completeLoop] using inv⟩
      | cons entry rest => simp [completeLoop] at complete
  | succ left ih =>
      cases pending with
      | nil =>
          refine ⟨seen, { inv with spent := ?_ }⟩
          have bound := inv.spent
          omega
      | cons entry rest =>
          obtain ⟨place, depth⟩ := entry
          by_cases deep : depth > depthLimit
          · simp [completeLoop, deep] at complete
          · by_cases visited : place ∈ seen
            · rw [completeLoop, if_neg deep, if_pos visited] at complete ⊢
              exact ih _ _ _ (complete_invariant_skip flow start inv visited) complete
            · have shallow : depth ≤ depthLimit := Nat.le_of_not_gt deep
              have contract := place_shape_contract flow place
              rw [completeLoop, if_neg deep, if_neg visited] at complete ⊢
              have visit := complete_invariant_visit flow start place total left depth
              cases shape : placeShape flow place with
              | dangling =>
                  simp only [shape] at complete
                  simp [complete_loop_flagged] at complete
              | unsupported =>
                  simp only [shape] at complete
                  simp [complete_loop_flagged] at complete
              | literal =>
                  rw [shape] at contract
                  simp only [shape] at complete ⊢
                  refine ih _ _ _ (visit [] rest seen out _ inv shallow (Or.inl contract) ?_ ?_) complete
                  · simp [literal_follows_nothing flow place _ contract]
                  · intro id
                    have literal : LiteralAt flow place := contract
                    rw [ids_insert]
                    simp [Prod.ext_iff, literal, literal.1]
              | alternative inputs =>
                  rw [shape] at contract
                  simp only [shape] at complete ⊢
                  by_cases wide : inputs.length + rest.length > left
                  · simp [wide] at complete
                  · rw [if_neg wide] at complete ⊢
                    refine ih _ _ _ ?_ complete
                    have pushed := visit (inputs.map fun id => (id, place.2)).reverse rest seen out out inv shallow
                      (alternative_settled flow place inputs contract) ?_ ?_
                    · simpa [Function.comp_def] using pushed
                    · intro other
                      rw [alternative_follows flow place other contract]
                      simp [eq_comm]
                    · exact fun id => by simp [contract.1]
              | projected next =>
                  rw [shape] at contract
                  simp only [shape] at complete ⊢
                  have edge := fun other => projected_follows flow place other next contract
                  refine ih _ _ _ (visit [(next, none)] rest seen out out inv shallow ?_ ?_ ?_) complete
                  · exact Or.inr (Or.inr (Or.inr ⟨_, (edge (next, none)).mpr rfl⟩))
                  · simp [edge]
                  · obtain ⟨_, _, _, requested, _⟩ := contract
                    simp [LiteralAt, requested]
              | lacking =>
                  rw [shape] at contract
                  simp only [shape] at complete ⊢
                  refine ih _ _ _ (visit [] rest seen out out inv shallow (Or.inr (Or.inl contract)) ?_ ?_) complete
                  · simp [lacking_follows_nothing flow place _ contract]
                  · obtain ⟨_, _, _, requested, _⟩ := contract
                    simp [LiteralAt, requested]

-- The flag is the contract: without it the reported ids are exactly the
-- literals some chain ends in, every chain ends properly, every place is
-- within the depth limit and the places together fit the budget.
theorem complete_values_contract (flow : Flow) (start : Nat) (field : Option String) (budget : Nat)
    (complete : (completeValues flow start field budget).incomplete = false) :
    (∀ id, id ∈ (completeValues flow start field budget).ids ↔
      Reached flow (start, field) (id, none) ∧ LiteralAt flow (id, none)) ∧
    (∀ place, Reached flow (start, field) place → Settled flow place) ∧
    (∀ place, Reached flow (start, field) place →
      ∃ links, links ≤ depthLimit ∧ ReachedIn flow (start, field) links place) ∧
    (∀ places : List Place, places.Nodup → (∀ place ∈ places, Reached flow (start, field) place) →
      places.length ≤ min budget stepLimit) := by
  obtain ⟨visited, inv⟩ := complete_loop_explores flow (start, field) _ _ _ _ _
    (complete_invariant_initial flow (start, field) (min budget stepLimit)) complete
  have started : (start, field) ∈ visited := by simpa using inv.started
  have explored : ∀ place, Reached flow (start, field) place → place ∈ visited :=
    fun place reach => Worklist.closed_reach (Follows flow) inv.closed started reach
  have reached : ∀ place ∈ visited, Reached flow (start, field) place := by
    intro place member
    obtain ⟨links, -, chain⟩ := inv.shallow place member
    exact Worklist.chain_reach (Follows flow) _ _ links chain
  refine ⟨fun id => ?_, fun place reach => inv.settled place (explored place reach),
    fun place reach => inv.shallow place (explored place reach), fun places distinct included => ?_⟩
  · rw [completeValues, inv.reported id]
    exact ⟨fun ⟨member, literal⟩ => ⟨reached _ member, literal⟩, fun ⟨reach, literal⟩ => ⟨explored _ reach, literal⟩⟩
  · have bound := Worklist.distinct_length_bound places visited distinct (fun place member => explored place (included place member))
    have spent := inv.spent
    omega

def keywordChoice : Flow :=
  ⟨[⟨.literal, some (.string "a"), none, [], none, []⟩, ⟨.keyword, none, none, [], none, [("a", 0)]⟩,
    ⟨.alternative, none, none, [1, 1], none, []⟩], []⟩

theorem complete_values_contract_keyword :
    (completeValues keywordChoice 2 (some "a") 100).incomplete = false ∧
      Reached keywordChoice (2, some "a") (0, none) := by
  refine ⟨by decide, ?_⟩
  exact ((complete_values_contract keywordChoice 2 (some "a") 100 (by decide)).1 0 |>.mp (by decide)).1

-- Chains in the graph outlive the walk in three ways, none of them an error:
-- an alternative among its own inputs has chains of every length, one with
-- no inputs ends a chain, and one that carries a literal is read, not entered.
def selfAlternative : Flow := ⟨[⟨.alternative, none, none, [0, 1], none, []⟩, ⟨.literal, some .null, none, [], none, []⟩], []⟩

def emptyAlternative : Flow := ⟨[⟨.alternative, none, none, [], none, []⟩], []⟩

def literalAlternative : Flow :=
  ⟨[⟨.alternative, some .null, none, [1], none, []⟩, ⟨.literal, some .null, none, [], none, []⟩], []⟩

theorem self_alternative_chain (length : Nat) : Worklist.Chain (Link selfAlternative) (0, none) length (0, none) := by
  induction length with
  | zero => exact .start
  | succ n ih => exact .next n (0, none) (0, none) ih (.alternative 0 0 none _ rfl rfl (by decide))

theorem complete_values_chains_outlive_walk :
    ((completeValues selfAlternative 0 none 100).incomplete = false ∧
      Worklist.Chain (Link selfAlternative) (0, none) (depthLimit + 1) (0, none) ∧
      Worklist.Chain (Link selfAlternative) (0, none) 101 (0, none)) ∧
    ((completeValues emptyAlternative 0 none 100).incomplete = false ∧
      ¬ LiteralAt emptyAlternative (0, none) ∧ ¬ LacksField emptyAlternative (0, none)) ∧
    ((completeValues literalAlternative 0 none 100).incomplete = false ∧
      Link literalAlternative (0, none) (1, none) ∧ LiteralAt literalAlternative (1, none) ∧
      1 ∉ (completeValues literalAlternative 0 none 100).ids) := by
  refine ⟨⟨by decide, self_alternative_chain _, self_alternative_chain _⟩, ⟨by decide, ?_, ?_⟩, by decide, ?_, ?_, by decide⟩
  · rintro ⟨-, value, found, literal⟩
    simp only [emptyAlternative, List.getElem?_cons_zero, Option.some.injEq] at found
    simp [← found, completeLiteral] at literal
  · rintro ⟨value, field, -, requested, -⟩
    simp at requested
  · exact .alternative 0 1 none _ rfl rfl (by decide)
  · exact ⟨rfl, _, rfl, rfl⟩

end Filefacts.Output
