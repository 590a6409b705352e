import Filefacts.Source.ModuleRuns

set_option autoImplicit false

namespace Filefacts.PythonModuleCalls

open Output (Text)
open Lockstep (Level Sound)

variable (normal : Text → Text) (exports : Text → Text → Prop)

-- What the analysis knows is an identifier that is really bound to the target.
def Agrees (bindings : Bindings) (env : Env) : Prop :=
  ∀ bound binding, bindings bound = some binding → isIdentifier bound = true ∧ env bound = some binding.target

def Accurate (fact : Recorded) (event : Event) : Prop := event.function.really normal event.env = some fact.resolvedCallee

theorem identifier_cons (name : Identifier) : ∃ c rest, name.text = c :: rest := by
  obtain ⟨text, valid⟩ := name
  cases text with
  | nil => cases valid
  | cons c rest => exact ⟨c, rest, rfl⟩

variable (text : Text)

theorem identifier_dotless (valid : isIdentifier text = true) : '.' ∉ text := by
  cases text with
  | nil => exact List.not_mem_nil
  | cons c rest =>
      intro member
      rw [isIdentifier, Bool.and_eq_true, Bool.and_eq_true] at valid
      have absent := valid.1.2
      rw [List.contains_iff_mem.mpr member] at absent
      cases absent

theorem head_of_append (front back : Text) : headOf (front ++ '.' :: back) = headOf front := by
  induction front with
  | nil => rfl
  | cons c front ih =>
      rw [headOf, headOf] at ih
      rw [headOf, headOf, List.cons_append, List.takeWhile_cons, List.takeWhile_cons, ih]

theorem dotless_passes (absent : '.' ∉ text) : ∀ c ∈ text, (c != '.') = true := by
  intro c member
  refine bne_iff_ne.mpr fun dot => absent ?_
  rw [← dot]
  exact member

theorem head_of_dotless (absent : '.' ∉ text) : headOf text = text := by
  have whole := @List.takeWhile_append_of_pos _ _ _ [] (dotless_passes text absent)
  rw [List.takeWhile_nil, List.append_nil] at whole
  exact whole

variable (rest : Text)

theorem drop_while_dotless (absent : '.' ∉ text) : (text ++ rest).dropWhile (· != '.') = rest.dropWhile (· != '.') :=
  List.dropWhile_append_of_pos (dotless_passes text absent)

theorem tail_of_dotless (absent : '.' ∉ text) : tailOf (text ++ '.' :: rest) = rest := by
  rw [tailOf, drop_while_dotless text _ absent]
  rfl

theorem plain_append {front back : Text} (plain : (front ++ back).all plainChar = true) :
    front.all plainChar = true ∧ back.all plainChar = true := by
  rw [List.all_append, Bool.and_eq_true] at plain
  exact plain

-- A chain of names: the root and the attributes that follow it.
structure Chain (function : Expr) (root tail : Text) : Prop where
  text : function.text = root ++ tail
  dotless : '.' ∉ root
  dotted : tail = [] ∨ ∃ c rest, tail = '.' :: c :: rest
  bound : ∀ (env : Env) (target : Text), env root = some target → function.really normal env = some (target ++ tail)

section

variable (fixed : ∀ text : Text, text.all plainChar = true → normal text = text)

include fixed

theorem chain_attribute {object : Expr} {separator : Separator} {name : Identifier} {root tail : Text}
    (plain : (object.text ++ (separator.text ++ name.text)).all plainChar = true) (chain : Chain normal object root tail) :
    Chain normal (.attributeRef object separator name) root (tail ++ '.' :: name.text) := by
  have joined : separator.text = ['.'] := by
    have apart := (plain_append (plain_append plain).2).1
    rcases separator.joins with dot | marked
    · exact dot
    · rw [marked] at apart
      cases apart
  have same := fixed name.text (plain_append (plain_append plain).2).2
  obtain ⟨c, rest, shape⟩ := identifier_cons name
  refine ⟨?_, chain.dotless, ?_, fun env target found => ?_⟩
  · rw [Expr.text, joined, chain.text, List.append_assoc, List.singleton_append]
  · rcases chain.dotted with rfl | ⟨d, more, rfl⟩
    · exact Or.inr ⟨c, rest, by rw [shape]; rfl⟩
    · exact Or.inr ⟨d, more ++ '.' :: name.text, rfl⟩
  · rw [Expr.really, chain.bound env target found, Option.map_some, same, List.append_assoc]

theorem chain_or_opaque : ∀ (function : Expr), function.text.all plainChar = true →
    (∃ root tail, Chain normal function root tail) ∨ isIdentifier (headOf function.text) = false
  | .identifier name, plain => by
      refine Or.inl ⟨name.text, [], ?_, identifier_dotless _ name.valid, Or.inl rfl, fun env target found => ?_⟩
      · rw [List.append_nil]
        rfl
      · rw [Expr.really, fixed name.text plain, found, List.append_nil]
  | .attributeRef object separator name, plain => by
      rcases chain_or_opaque object (plain_append plain).1 with ⟨root, tail, chain⟩ | unnamed
      · exact Or.inl ⟨root, _, chain_attribute normal fixed plain chain⟩
      · have apart := (plain_append (plain_append plain).2).1
        right
        rcases separator.joins with dot | marked
        · rw [Expr.text, dot, List.singleton_append, head_of_append]
          exact unnamed
        · rw [marked] at apart
          cases apart
  | .call _ _ text _, plain => Or.inr (text.apart plain)
  | .named _ _ text, plain => Or.inr (text.apart plain)
  | .other _ text, plain => Or.inr (text.apart plain)

omit fixed in
theorem chain_head (function : Expr) (root tail : Text) (chain : Chain normal function root tail) : headOf function.text = root := by
  rw [chain.text]
  rcases chain.dotted with rfl | ⟨c, rest, rfl⟩
  · rw [List.append_nil, head_of_dotless root chain.dotless]
  · rw [head_of_append, head_of_dotless root chain.dotless]

theorem resolved_really {function : Expr} {bindings : Bindings} {env : Env} {binding : Import} {name : Text}
    (agrees : Agrees bindings env) (found : resolved function bindings = some (binding, name)) :
    function.really normal env = some name := by
  obtain ⟨known, there, rest⟩ := Option.bind_eq_some_iff.mp found
  rw [Option.ite_none_left_eq_some, Bool.or_eq_true, not_or, Bool.not_eq_true', Bool.not_eq_true', Bool.not_eq_false,
    Bool.not_eq_false] at rest
  obtain ⟨⟨_, plain⟩, same⟩ := rest
  obtain ⟨rfl, rfl⟩ := Prod.mk.inj (Option.some.inj same)
  have truth := agrees _ _ there
  rcases chain_or_opaque normal fixed function plain with ⟨root, tail, chain⟩ | unnamed
  · rw [chain_head normal function root tail chain] at truth
    rw [chain.bound env known.target truth.2, chain.text]
    rcases chain.dotted with rfl | ⟨c, rest, rfl⟩
    · have nothing : tailOf (root ++ []) = [] := by
        rw [tailOf, drop_while_dotless root [] chain.dotless]
        rfl
      rw [nothing, if_pos rfl, List.append_nil]
    · rw [tail_of_dotless root (c :: rest) chain.dotless, if_neg (List.cons_ne_nil _ _)]
  · rw [truth.1] at unnamed
    cases unnamed

end

theorem agrees_clear (env : Env) : Agrees clear env := fun _ _ known => by cases known

variable (bindings : Bindings) (trigger : Trigger)

theorem agrees_remove (env : Env) (name : Text) (agrees : Agrees bindings env) : Agrees (remove bindings name) env := by
  intro bound binding known
  by_cases same : bound = name
  · rw [same, remove, Function.update_self] at known
    cases known
  · rw [remove, Function.update_of_ne same] at known
    exact agrees bound binding known

variable {before later : Env} {may : Text → Prop} {name : Text} {env : Env} {item : Item} {fact : Recorded}

theorem agrees_keeps (agrees : Agrees bindings before)
    (unknown : Unknown bindings may) (keeps : Keeps may before later) : Agrees bindings later := by
  intro bound binding known
  have fixed_ : ¬ may bound := by
    intro bindsIt
    rw [unknown bound bindsIt] at known
    cases known
  rw [keeps bound fixed_]
  exact agrees bound binding known

theorem agrees_rebound (agrees : Agrees bindings before)
    (unknown : Unknown bindings fun bound => bound ≠ name ∧ may bound) (keeps : Keeps may before later) :
    Agrees (remove bindings name) later := by
  refine agrees_keeps _ (agrees_remove bindings before name agrees) (fun bound bindsIt => ?_) keeps
  by_cases same : bound = name
  · rw [same]
    exact Function.update_self _ _ _
  · exact (Function.update_of_ne same _ _).trans (unknown bound ⟨same, bindsIt⟩)

theorem agrees_insert (target : Text) (offset : Nat) (agrees : Agrees bindings env) (valid : isIdentifier name = true) :
    Agrees (insert bindings name ⟨target, name, offset⟩) (Function.update env name (some target)) := by
  intro bound binding known
  by_cases same : bound = name
  · subst same
    rw [insert, Function.update_self] at known
    obtain rfl := Option.some.inj known
    exact ⟨valid, by rw [Function.update_self]⟩
  · rw [insert, Function.update_of_ne same] at known
    rw [Function.update_of_ne same]
    exact agrees bound binding known

theorem written_real (written : Written normal text) : real normal text = text := by
  rw [real, written.1, written.2]

theorem clause_agrees {source : Option Text} {clause : Clause} {bindings : Bindings} (agrees : Agrees bindings env)
    (met : clause.Open normal exports source bindings) (effect : clause.Effect normal exports source env later) :
    Agrees (imports source bindings clause) later := by
  cases clause with
  | dotted name start =>
      obtain ⟨text, opens⟩ := name
      cases source with
      | none =>
          have written : Written normal (headOf text) := met
          have valid : isIdentifier (headOf text) = true := by
            rw [← written.1]
            exact opens
          have same := written_real normal _ written
          rw [show later = _ from effect]
          rw [same]
          exact agrees_insert bindings (headOf text) start agrees valid
      | some moduleName =>
          have written : Written normal moduleName ∧ Written normal text ∧ Written normal (headOf text) := met
          have valid : isIdentifier (headOf text) = true := by
            rw [← written.2.2.1]
            exact opens
          rw [show later = _ from effect]
          dsimp only
          rw [written_real normal _ written.1, written_real normal _ written.2.1, written_real normal _ written.2.2]
          exact agrees_insert bindings _ start agrees valid
  | aliased name as_ start =>
      cases source with
      | none =>
          have written : Written normal name.text ∧ normal as_.text = as_.text ∧ _ := met
          rw [show later = _ from effect]
          rw [written_real normal _ written.1, written.2.1]
          exact agrees_insert bindings _ start agrees as_.valid
      | some moduleName =>
          have written : Written normal name.text ∧ normal as_.text = as_.text ∧
            (∀ other ∈ some moduleName, Written normal other) := met
          rw [show later = _ from effect]
          dsimp only
          rw [written_real normal _ written.1, written.2.1, written_real normal _ (written.2.2 moduleName rfl)]
          exact agrees_insert bindings _ start agrees as_.valid
  | wildcard => exact agrees_keeps bindings agrees met effect

theorem clause_sound (source : Option Text) :
    Sound Event.start Recorded.callOffset Agrees (Accurate normal) (clauseLevel normal exports True source) where
  events := by
    intro clause bindings env events last runs event member
    cases runs with
    | raises => cases member
    | binds => cases member
  facts := fun _ _ => List.forall_mem_nil _
  agrees := by
    intro clause bindings env events later agrees runs
    cases runs with
    | binds _ met effect => exact clause_agrees normal exports agrees (met trivial) effect
  right := by
    intro clause bindings env events last _ _ runs event member
    cases runs with
    | raises => cases member
    | binds => cases member

theorem observe_fresh (given : Expr) (bindings : Bindings) (trigger : Trigger) :
    observe given bindings trigger [] = (observed given bindings trigger).toList :=
  (if_neg (by decide)).trans (List.nil_append _)

theorem item_fact {bindings : Bindings} (recorded : fact ∈ (expression trigger ([], bindings) item).1) :
    ∃ start function binding, item.call = some (start, function) ∧ fact.callOffset = start ∧
      resolved function bindings = some (binding, fact.resolvedCallee) := by
  have fromCall : ∀ given : Expr, fact ∈ (observed given bindings trigger).toList →
      ∃ start function binding, callOf given = some (start, function) ∧ fact.callOffset = start ∧
        resolved function bindings = some (binding, fact.resolvedCallee) := by
    intro given member
    rw [Option.mem_toList] at member
    cases given with
    | call function arguments text start =>
        obtain ⟨⟨binding, name⟩, found, rfl⟩ := Option.map_eq_some_iff.mp member
        exact ⟨start, function, binding, rfl, rfl, found⟩
    | identifier name => cases member
    | attributeRef object separator name => cases member
    | named target given text => cases member
    | other parts text => cases member
  cases item with
  | expression given =>
      rw [expression, observe_fresh] at recorded
      exact fromCall given recorded
  | augmented => cases recorded
  | assignment left annotation right =>
      cases right with
      | none =>
          cases left with
          | identifier name => cases recorded
          | other => cases recorded
      | chain next right =>
          cases left with
          | identifier name => cases recorded
          | other => cases recorded
      | value given =>
          have member : fact ∈ (if temporaryConstructor given bindings then [] else observe given bindings trigger []) := by
            cases left with
            | identifier name => exact recorded
            | other => exact recorded
          split at member
          · cases member
          · rw [observe_fresh] at member
            exact fromCall given member

theorem item_agrees {bindings : Bindings} (agrees : Agrees bindings env)
    (met : item.Open normal bindings) (keeps : Keeps (item.MayBind normal) env later) :
    Agrees (expression trigger ([], bindings) item).2 later := by
  cases item with
  | expression given => exact agrees_keeps bindings agrees met keeps
  | augmented => exact agrees_clear later
  | assignment left annotation right =>
      cases left with
      | other => exact agrees_clear later
      | identifier name => exact agrees_rebound bindings agrees met keeps

section

variable (fixed : ∀ text : Text, text.all plainChar = true → normal text = text)

include fixed

theorem item_sound (trigger : Trigger) :
    Sound Event.start Recorded.callOffset Agrees (Accurate normal) (itemLevel normal True trigger) where
  events := by
    intro item bindings env events last runs event member
    have site : ∀ event ∈ item.events env, event.start ∈ (item.call.map Prod.fst).toList := by
      intro event member
      obtain ⟨call, found, rfl⟩ := Option.map_eq_some_iff.mp (Option.mem_toList.mp member)
      rw [found]
      exact List.mem_singleton_self _
    cases runs with
    | raises => cases member
    | calls => exact site event member
    | completes => exact site event member
  facts := by
    intro item bindings fact recorded
    obtain ⟨start, function, binding, call, offset, _⟩ := item_fact trigger recorded
    show fact.callOffset ∈ (item.call.map Prod.fst).toList
    rw [call, offset]
    exact List.mem_singleton_self _
  agrees := by
    intro item bindings env events later agrees runs
    cases runs with
    | completes _ met keeps => exact item_agrees normal trigger agrees (met trivial) keeps
  right := by
    intro item bindings env events last agrees _ runs event member fact recorded _
    obtain ⟨start, function, binding, call, _, found⟩ := item_fact trigger recorded
    have accurate : ∀ event ∈ item.events env, Accurate normal fact event := by
      intro event member
      rw [Item.events, call, Option.map_some, Option.toList_some, List.mem_singleton] at member
      rw [member]
      exact resolved_really normal fixed agrees found
    cases runs with
    | raises => cases member
    | calls => exact accurate event member
    | completes => exact accurate event member

omit fixed in
theorem clauses_silent {source : Option Text} {clauses : List Clause} {bindings : Bindings} {env : Env} {events : List Event}
    {last : Option Env} (runs : (clauseLevel normal exports True source).RunsAll clauses bindings env events last) :
    ∀ event, event ∉ events := by
  intro event member
  have inside := (Lockstep.all_sound _ _ _ _ (clause_sound normal exports source)).events clauses bindings env events last runs event
    member
  obtain ⟨clause, _, here⟩ := List.mem_flatMap.mp inside
  cases here

theorem simple_sound (trigger : Trigger) :
    Sound Event.start Recorded.callOffset Agrees (Accurate normal) (simpleLevel normal exports True trigger) where
  events := by
    intro statement bindings env events last runs event member
    have items := Lockstep.all_sound _ _ _ _ (item_sound normal fixed trigger)
    cases runs with
    | comment => cases member
    | importStatement list _ _ _ _ runs => exact absurd member (clauses_silent normal exports runs event)
    | importFrom moduleName list _ _ _ _ runs =>
        exact absurd member (clauses_silent normal exports runs event)
    | expression list _ _ _ _ runs => exact items.events list bindings env events last runs event member
    | undefined => cases member
    | defined => cases member
    | tryStatement => cases member
    | other => cases member
  facts := by
    intro statement bindings fact recorded
    have items := Lockstep.all_sound _ _ _ _ (item_sound normal fixed trigger)
    cases statement with
    | expression list => exact items.facts list bindings fact recorded
    | comment => cases recorded
    | importStatement list => cases recorded
    | importFrom moduleName list => cases recorded
    | definition name header body => cases recorded
    | tryStatement body => cases recorded
    | other => cases recorded
  agrees := by
    intro statement bindings env events later agrees runs
    have items := Lockstep.all_sound _ _ _ _ (item_sound normal fixed trigger)
    have clauses := fun source => Lockstep.all_sound _ _ _ _ (clause_sound normal exports source)
    cases runs with
    | comment => exact agrees
    | importStatement list _ _ _ _ runs => exact (clauses none).agrees list bindings env events later agrees runs
    | importFrom moduleName list _ _ _ _ runs => exact (clauses (some moduleName)).agrees list bindings env events later agrees runs
    | expression list _ _ _ _ runs => exact items.agrees list bindings env events later agrees runs
    | defined name header body _ _ _ met keeps => exact agrees_rebound bindings agrees (met trivial) keeps
    | tryStatement => exact agrees_clear later
    | other => exact agrees_clear later
  right := by
    intro statement bindings env events last agrees distinct runs event member fact recorded same
    have items := Lockstep.all_sound _ _ _ _ (item_sound normal fixed trigger)
    cases runs with
    | comment => cases member
    | importStatement => cases recorded
    | importFrom => cases recorded
    | expression list _ _ _ _ runs => exact items.right list bindings env events last agrees distinct runs event member fact recorded same
    | undefined => cases member
    | defined => cases member
    | tryStatement => cases member
    | other => cases member

omit fixed in
theorem statement_level_simple {statement : Statement} (plain : ∀ body, statement ≠ .tryStatement body) :
    (statementLevel normal exports True).sites statement = (simpleLevel normal exports True .module).sites statement ∧
      (statementLevel normal exports True).facts statement = (simpleLevel normal exports True .module).facts statement ∧
      (statementLevel normal exports True).after statement = (simpleLevel normal exports True .module).after statement := by
  cases statement with
  | tryStatement body => exact absurd rfl (plain body)
  | expression list => exact ⟨rfl, rfl, rfl⟩
  | comment => exact ⟨rfl, rfl, rfl⟩
  | importStatement list => exact ⟨rfl, rfl, rfl⟩
  | importFrom moduleName list => exact ⟨rfl, rfl, rfl⟩
  | definition name header body => exact ⟨rfl, rfl, rfl⟩
  | other => exact ⟨rfl, rfl, rfl⟩

theorem statement_sound :
    Sound Event.start Recorded.callOffset Agrees (Accurate normal) (statementLevel normal exports True) where
  events := by
    intro statement bindings env events last runs event member
    cases runs with
    | tryStatement body _ _ _ inner _ runs =>
        exact (Lockstep.all_sound _ _ _ _ (simple_sound normal exports fixed .moduleTry)).events body bindings env events inner runs
          event member
    | simple _ _ _ _ _ plain runs =>
        rw [(statement_level_simple normal exports plain).1]
        exact (simple_sound normal exports fixed .module).events statement bindings env events last runs event member
  facts := by
    intro statement bindings fact recorded
    by_cases try_ : ∃ body, statement = .tryStatement body
    · obtain ⟨body, rfl⟩ := try_
      exact (Lockstep.all_sound _ _ _ _ (simple_sound normal exports fixed .moduleTry)).facts body bindings fact recorded
    · have same := statement_level_simple normal exports (not_exists.mp try_)
      rw [same.2.1] at recorded
      rw [same.1]
      exact (simple_sound normal exports fixed .module).facts statement bindings fact recorded
  agrees := by
    intro statement bindings env events later agrees runs
    cases runs with
    | tryStatement => exact agrees_clear later
    | simple _ _ _ _ _ plain runs =>
        rw [(statement_level_simple normal exports plain).2.2]
        exact (simple_sound normal exports fixed .module).agrees statement bindings env events later agrees runs
  right := by
    intro statement bindings env events last agrees distinct runs event member fact recorded same
    cases runs with
    | tryStatement body _ _ _ inner _ runs =>
        exact (Lockstep.all_sound _ _ _ _ (simple_sound normal exports fixed .moduleTry)).right body bindings env events inner agrees
          distinct runs event member fact recorded same
    | simple _ _ _ _ _ plain runs =>
        have level := statement_level_simple normal exports plain
        rw [level.1] at distinct
        rw [level.2.1] at recorded
        exact (simple_sound normal exports fixed .module).right statement bindings env events last agrees distinct runs event member fact
          recorded same

end

variable {calls : List Recorded}

theorem observe_mem {given : Expr} {bindings : Bindings} {trigger : Trigger}
    (member : fact ∈ observe given bindings trigger calls) : fact ∈ calls ∨ fact ∈ observe given bindings trigger [] := by
  rw [observe_fresh]
  rw [observe] at member
  split at member
  · exact Or.inl member
  · exact List.mem_append.mp member

theorem expression_bindings (calls : List Recorded) (bindings : Bindings) (item : Item) :
    (expression trigger (calls, bindings) item).2 = (expression trigger ([], bindings) item).2 := by
  cases item with
  | expression given => rfl
  | augmented => rfl
  | assignment left annotation right =>
      cases left with
      | identifier name => rfl
      | other => rfl

theorem expression_mem {bindings : Bindings} (member : fact ∈ (expression trigger (calls, bindings) item).1) :
    fact ∈ calls ∨ fact ∈ (expression trigger ([], bindings) item).1 := by
  cases item with
  | expression given => exact observe_mem member
  | augmented => exact Or.inl member
  | assignment left annotation right =>
      cases right with
      | none =>
          cases left with
          | identifier name => exact Or.inl member
          | other => exact Or.inl member
      | chain next right =>
          cases left with
          | identifier name => exact Or.inl member
          | other => exact Or.inl member
      | value given =>
          have alone : ∀ calls : List Recorded, (expression trigger (calls, bindings) (.assignment left annotation (.value given))).1 =
              if temporaryConstructor given bindings then calls else observe given bindings trigger calls := by
            intro calls
            cases left with
            | identifier name => rfl
            | other => rfl
          rw [alone] at member ⊢
          split at member
          · exact Or.inl member
          · next other =>
              rw [if_neg other]
              exact observe_mem member

variable (items : List Item)

theorem items_bindings (calls : List Recorded) (bindings : Bindings) :
    (items.foldl (expression trigger) (calls, bindings)).2 = (itemLevel normal True trigger).all.after items bindings := by
  induction items generalizing calls bindings with
  | nil => rfl
  | cons item rest ih =>
      have step := ih (expression trigger (calls, bindings) item).1 (expression trigger (calls, bindings) item).2
      rw [expression_bindings] at step
      rw [List.foldl_cons, ← Prod.eta (expression trigger (calls, bindings) item), expression_bindings]
      exact step

theorem items_mem (calls : List Recorded) (bindings : Bindings) (fact : Recorded)
    (member : fact ∈ (items.foldl (expression trigger) (calls, bindings)).1) :
    fact ∈ calls ∨ fact ∈ (itemLevel normal True trigger).all.facts items bindings := by
  induction items generalizing calls bindings with
  | nil => exact Or.inl member
  | cons item rest ih =>
      rw [List.foldl_cons, ← Prod.eta (expression trigger (calls, bindings) item), expression_bindings] at member
      rcases ih _ _ member with before | later
      · rcases expression_mem trigger before with old | here
        · exact Or.inl old
        · exact Or.inr (List.mem_append_left _ here)
      · exact Or.inr (List.mem_append_right _ later)

structure Follows (step : Collector × Bindings → Statement → Collector × Bindings)
    (level : Level Statement Bindings Env Event Recorded) : Prop where
  spent : ∀ collector bindings statement, collector.budget = 0 → step (collector, bindings) statement = (collector, bindings)
  after : ∀ collector bindings statement, collector.budget ≠ 0 →
    (step (collector, bindings) statement).2 = level.after statement bindings
  calls : ∀ collector bindings statement, ∀ fact ∈ (step (collector, bindings) statement).1.calls,
    fact ∈ collector.calls ∨ fact ∈ level.facts statement bindings

theorem spent_fold {step : Collector × Bindings → Statement → Collector × Bindings}
    {level : Level Statement Bindings Env Event Recorded} (follows : Follows step level) (statements : List Statement)
    {collector : Collector} (bindings : Bindings) (spent : collector.budget = 0) :
    statements.foldl step (collector, bindings) = (collector, bindings) := by
  induction statements with
  | nil => rfl
  | cons statement rest ih => rw [List.foldl_cons, follows.spent collector bindings statement spent, ih]

theorem fold_mem (step : Collector × Bindings → Statement → Collector × Bindings)
    (level : Level Statement Bindings Env Event Recorded) (follows : Follows step level) (statements : List Statement)
    (collector : Collector) (bindings : Bindings) (fact : Recorded)
    (member : fact ∈ (statements.foldl step (collector, bindings)).1.calls) :
    fact ∈ collector.calls ∨ fact ∈ level.all.facts statements bindings := by
  induction statements generalizing collector bindings with
  | nil => exact Or.inl member
  | cons statement rest ih =>
      by_cases spent : collector.budget = 0
      · rw [spent_fold follows _ bindings spent] at member
        exact Or.inl member
      · rw [List.foldl_cons, ← Prod.eta (step (collector, bindings) statement), follows.after collector bindings statement spent] at member
        rcases ih _ _ member with before | later
        · rcases follows.calls collector bindings statement fact before with old | here
          · exact Or.inl old
          · exact Or.inr (List.mem_append_left _ here)
        · exact Or.inr (List.mem_append_right _ later)

theorem simple_follows (trigger : Trigger) : Follows (simpleStatement trigger) (simpleLevel normal exports True trigger) where
  spent := fun collector bindings statement spent => if_pos spent
  after := by
    intro collector bindings statement left
    rw [simpleStatement, if_neg left]
    cases statement with
    | expression items => exact items_bindings normal trigger items collector.calls bindings
    | comment => rfl
    | importStatement clauses => rfl
    | importFrom moduleName clauses => rfl
    | definition name header body => rfl
    | tryStatement body => rfl
    | other => rfl
  calls := by
    intro collector bindings statement fact member
    rw [simpleStatement] at member
    by_cases spent : collector.budget = 0
    · rw [if_pos spent] at member
      exact Or.inl member
    · rw [if_neg spent] at member
      cases statement with
      | expression items => exact items_mem normal trigger items collector.calls bindings fact member
      | comment => exact Or.inl member
      | importStatement clauses => exact Or.inl member
      | importFrom moduleName clauses => exact Or.inl member
      | definition name header body => exact Or.inl member
      | tryStatement body => exact Or.inl member
      | other => exact Or.inl member

theorem statement_simple (state : Collector × Bindings) (current : Statement) (plain : ∀ body, current ≠ .tryStatement body) :
    statement state current = simpleStatement .module state current := by
  cases current with
  | tryStatement body => exact absurd rfl (plain body)
  | expression items => rfl
  | comment => rfl
  | importStatement clauses => rfl
  | importFrom moduleName clauses => rfl
  | definition name header body => rfl
  | other => rfl

theorem statement_follows : Follows statement (statementLevel normal exports True) where
  spent := by
    intro collector bindings current spent
    by_cases try_ : ∃ body, current = .tryStatement body
    · obtain ⟨body, rfl⟩ := try_
      exact if_pos spent
    · rw [statement_simple _ current (not_exists.mp try_)]
      exact if_pos spent
  after := by
    intro collector bindings current left
    by_cases try_ : ∃ body, current = .tryStatement body
    · obtain ⟨body, rfl⟩ := try_
      rw [statement, if_neg left]
      rfl
    · rw [statement_simple _ current (not_exists.mp try_), (statement_level_simple normal exports (not_exists.mp try_)).2.2]
      exact (simple_follows normal exports .module).after collector bindings current left
  calls := by
    intro collector bindings current fact member
    by_cases try_ : ∃ body, current = .tryStatement body
    · obtain ⟨body, rfl⟩ := try_
      rw [statement] at member
      by_cases spent : collector.budget = 0
      · rw [if_pos spent] at member
        exact Or.inl member
      · rw [if_neg spent] at member
        exact fold_mem _ _ (simple_follows normal exports .moduleTry) body ⟨collector.calls, collector.budget - 1⟩ bindings fact member
    · rw [statement_simple _ current (not_exists.mp try_)] at member
      rw [(statement_level_simple normal exports (not_exists.mp try_)).2.1]
      exact (simple_follows normal exports .module).calls collector bindings current fact member

-- In every run whose steps are open, each recorded call that is run has the target its chain is bound to at that moment.
theorem module_alias_calls_sound (fixed : ∀ text : Text, text.all plainChar = true → normal text = text) (sourceLength : Nat)
    (parseError : Bool) (module_ : List Statement) (distinct : (callSites module_).Nodup) (env : Env) (events : List Event)
    (last : Option Env) (runs : (statementLevel normal exports True).RunsAll module_ clear env events last) :
    ∀ event ∈ events, ∀ fact ∈ moduleAliasCalls sourceLength parseError module_, fact.callOffset = event.start →
      event.function.really normal event.env = some fact.resolvedCallee := by
  intro event member fact recorded same
  have inside : fact ∈ (statementLevel normal exports True).all.facts module_ clear := by
    rw [moduleAliasCalls] at recorded
    split at recorded
    · cases recorded
    · rcases fold_mem _ _ (statement_follows normal exports) module_ _ clear fact recorded with nothing | here
      · cases nothing
      · exact here
  exact (Lockstep.all_sound _ _ _ _ (statement_sound normal exports fixed)).right module_ clear env events last (agrees_clear env)
    distinct runs event member fact inside same

def osName : Identifier := ⟨"os".toList, by decide⟩

def importOs : Statement := .importStatement [.dotted ⟨"os".toList, by decide⟩ 7]

def rebindOs : Item :=
  .assignment (.identifier ⟨"run".toList, by decide⟩) .nil
    (.chain (.identifier osName) (.value (.identifier ⟨"shim".toList, by decide⟩)))

def osSystem : Expr := .attributeRef (.identifier osName) ⟨['.'], Or.inl rfl⟩ ⟨"system".toList, by decide⟩

def callSystem : Item := .expression (.call osSystem .nil ⟨"os.system()".toList, fun plain => absurd plain (by decide)⟩ 26)

def imported (env : Env) : Env := Function.update env "os".toList (some "os".toList)

theorem import_os_runs (careful : Prop) (env : Env) :
    (statementLevel id exports careful).Runs importOs clear env [] (some (imported env)) := by
  refine .simple _ _ _ _ _ (fun body other => by cases other) (.importStatement _ _ _ _ _ ?_)
  exact .next _ _ _ _ (imported env) [] [] _ (.binds _ _ _ _ (fun _ => ⟨rfl, rfl⟩) rfl) (.done _ _)

theorem module_alias_calls_sound_import :
    (⟨"os.system".toList, "os.system".toList, "os".toList, false, 7, 26, .module⟩ : Recorded) ∈
        moduleAliasCalls 38 false [importOs, .expression [callSystem]] ∧
      osSystem.really id (imported fun _ => none) = some "os.system".toList := by
  have quiet : callSystem.Open id (insert clear "os".toList ⟨"os".toList, "os".toList, 7⟩) := by
    intro bound bindsIt
    exact absurd bindsIt (not_or.mpr ⟨not_false, not_false⟩)
  have run : (statementLevel id (fun _ _ => False) True).RunsAll [importOs, .expression [callSystem]] clear (fun _ => none)
      ([] ++ ((callSystem.events (imported fun _ => none) ++ []) ++ [])) (some (imported fun _ => none)) := by
    refine .next _ _ _ _ _ _ _ _ (import_os_runs _ _ _) (.next _ _ _ _ (imported fun _ => none) _ _ _ ?_ (.done _ _))
    refine .simple _ _ _ _ _ (fun body other => by cases other) (.expression _ _ _ _ _ ?_)
    exact .next _ _ _ _ (imported fun _ => none) _ _ _ (.completes _ _ _ _ (fun _ => quiet) fun _ _ => rfl) (.done _ _)
  have recorded : (⟨"os.system".toList, "os.system".toList, "os".toList, false, 7, 26, .module⟩ : Recorded) ∈
      moduleAliasCalls 38 false [importOs, .expression [callSystem]] := by decide
  exact ⟨recorded, module_alias_calls_sound id (fun _ _ => False) (fun _ _ => rfl) 38 false _ (by decide) _ _ _ run
    ⟨26, osSystem, imported fun _ => none⟩ (List.mem_singleton_self _) _ recorded rfl⟩

def rebound (env : Env) : Env := Function.update (imported env) "os".toList none

theorem chained_target_stays_known :
    ¬ ∀ (normal : Text → Text) (exports : Text → Text → Prop), (∀ text : Text, text.all plainChar = true → normal text = text) →
      ∀ (sourceLength : Nat) (parseError : Bool) (module_ : List Statement), (callSites module_).Nodup →
        ∀ (env : Env) (events : List Event) (last : Option Env),
          (statementLevel normal exports False).RunsAll module_ clear env events last →
            ∀ event ∈ events, ∀ fact ∈ moduleAliasCalls sourceLength parseError module_, fact.callOffset = event.start →
              event.function.really normal event.env = some fact.resolvedCallee := by
  intro all
  have keeps : Keeps (rebindOs.MayBind id) (imported fun _ => none) (rebound fun _ => none) := by
    intro bound other
    refine Function.update_of_ne (fun same => other ?_) _ _
    rw [same]
    exact Or.inr (Or.inr (Or.inl rfl))
  have assigns : (statementLevel id (fun _ _ => False) False).Runs (.expression [rebindOs])
      (insert clear "os".toList ⟨"os".toList, "os".toList, 7⟩) (imported fun _ => none) ([] ++ []) (some (rebound fun _ => none)) := by
    refine .simple _ _ _ _ _ (fun body other => by cases other) (.expression _ _ _ _ _ ?_)
    exact .next _ _ _ _ _ _ _ _ (.completes _ _ _ _ False.elim keeps) (.done _ _)
  have calls : ∀ bindings, (statementLevel id (fun _ _ => False) False).Runs (.expression [callSystem]) bindings (rebound fun _ => none)
      [⟨26, osSystem, rebound fun _ => none⟩] none := by
    intro bindings
    refine .simple _ _ _ _ _ (fun body other => by cases other) (.expression _ _ _ _ _ ?_)
    exact .stopped _ _ _ _ _ (.calls _ _ _)
  have run : (statementLevel id (fun _ _ => False) False).RunsAll [importOs, .expression [rebindOs], .expression [callSystem]] clear
      (fun _ => none) ([] ++ (([] ++ []) ++ [⟨26, osSystem, rebound fun _ => none⟩])) none :=
    .next _ _ _ _ _ _ _ _ (import_os_runs _ _ _) (.next _ _ _ _ _ _ _ _ assigns (.stopped _ _ _ _ _ (calls _)))
  have fact : (⟨"os.system".toList, "os.system".toList, "os".toList, false, 7, 26, .module⟩ : Recorded) ∈
      moduleAliasCalls 38 false [importOs, .expression [rebindOs], .expression [callSystem]] := by decide
  have right := all id (fun _ _ => False) (fun _ _ => rfl) 38 false _ (by decide) _ _ _ run _ (List.mem_singleton_self _) _ fact rfl
  have wrong : osSystem.really id (rebound fun _ => none) = none := rfl
  rw [wrong] at right
  cases right

end Filefacts.PythonModuleCalls
