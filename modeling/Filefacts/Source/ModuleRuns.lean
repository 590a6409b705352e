import Filefacts.Source.ModuleCalls
import Filefacts.Lib.Lockstep

set_option autoImplicit false

namespace Filefacts.PythonModuleCalls

open Output (Text)
open Lockstep (Level Sound)

-- What each name of the module is bound to: the dotted target that an import gave it, or none when it is anything else.
abbrev Env := Text → Option Text

-- The normal form in which Python compares identifiers, and the names a wildcard import of a module brings in.
variable (normal : Text → Text) (exports : Text → Text → Prop)

def real (text : Text) : Text := normal (unblank text)

-- What an expression is bound to, when it is a name or a chain of attributes.
def Expr.really (env : Env) : Expr → Option Text
  | .identifier name => env (normal name.text)
  | .attributeRef object _ name => (object.really env).map fun target => target ++ '.' :: normal name.text
  | .call _ _ _ _ => none
  | .named _ _ _ => none
  | .other _ _ => none

-- The names that evaluating an expression may bind. Calls are taken to bind none.
mutual
def Expr.MayBind : Expr → Text → Prop
  | .identifier _, _ => False
  | .attributeRef object _ _, bound => object.MayBind bound
  | .call function arguments _ _, bound => function.MayBind bound ∨ arguments.MayBind bound
  | .named target value _, bound => bound = normal target.text ∨ value.MayBind bound
  | .other parts _, bound => parts.MayBind bound
def Exprs.MayBind : Exprs → Text → Prop
  | .nil, _ => False
  | .cons part rest, bound => part.MayBind bound ∨ rest.MayBind bound
end

def Target.MayBind : Target → Text → Prop
  | .identifier name, bound => bound = normal name.text
  | .other, _ => True

def Right.MayBind : Right → Text → Prop
  | .none, _ => False
  | .value given, bound => given.MayBind normal bound
  | .chain left right, bound => left.MayBind normal bound ∨ right.MayBind bound

def Item.MayBind : Item → Text → Prop
  | .assignment left annotation right, bound =>
      left.MayBind normal bound ∨ annotation.MayBind normal bound ∨ right.MayBind normal bound
  | .augmented, _ => True
  | .expression given, bound => given.MayBind normal bound

def Reach.MayBind : Reach → Text → Prop
  | .names list, bound => bound ∈ list.map normal
  | .anything, _ => True

def Keeps (may : Text → Prop) (before after : Env) : Prop := ∀ bound, ¬ may bound → after bound = before bound

def Clause.reallyBinds (source : Option Text) : Clause → Option (Text × Text)
  | .dotted name _ => some (real normal (headOf name.text), match source with
      | some moduleName => real normal moduleName ++ '.' :: real normal name.text
      | none => real normal (headOf name.text))
  | .aliased name as_ _ => some (normal as_.text, match source with
      | some moduleName => real normal moduleName ++ '.' :: real normal name.text
      | none => real normal name.text)
  | .wildcard => none

def Clause.Effect (source : Option Text) (clause : Clause) (before after : Env) : Prop :=
  match clause.reallyBinds normal source with
  | some (bound, target) => after = Function.update before bound (some target)
  | none => Keeps (exports (real normal (source.getD []))) before after

def Written (text : Text) : Prop := unblank text = text ∧ normal text = text

def Unknown (bindings : Bindings) (may : Text → Prop) : Prop := ∀ bound, may bound → bindings bound = none

def Clause.Open (source : Option Text) (bindings : Bindings) : Clause → Prop
  | .dotted name _ => match source with
      | some moduleName => Written normal moduleName ∧ Written normal name.text ∧ Written normal (headOf name.text)
      | none => Written normal (headOf name.text)
  | .aliased name as_ _ => Written normal name.text ∧ normal as_.text = as_.text ∧
      (∀ moduleName ∈ source, Written normal moduleName)
  | .wildcard => Unknown bindings (exports (real normal (source.getD [])))

def Item.Open (bindings : Bindings) : Item → Prop
  | .assignment (.identifier name) annotation right => Unknown bindings fun bound => bound ≠ name.text ∧
      (bound = normal name.text ∨ annotation.MayBind normal bound ∨ right.MayBind normal bound)
  | .assignment .other _ _ => True
  | .augmented => True
  | .expression given => Unknown bindings (given.MayBind normal)

def definitionOpen (name : Identifier) (header : Exprs) (body : Reach) (bindings : Bindings) : Prop :=
  Unknown bindings fun bound => bound ≠ name.text ∧
    (bound = normal name.text ∨ header.MayBind normal bound ∨ body.MayBind normal bound)

-- A call that is run, its callee and the names at that moment.
structure Event where
  start : Nat
  function : Expr
  env : Env

def callOf : Expr → Option (Nat × Expr)
  | .call function _ _ start => some (start, function)
  | _ => none

def Item.call : Item → Option (Nat × Expr)
  | .expression given => callOf given
  | .assignment _ _ (.value given) => callOf given
  | _ => none

def Item.events (item : Item) (env : Env) : List Event := (item.call.map fun (start, function) => ⟨start, function, env⟩).toList

variable (careful : Prop)

inductive ClauseRuns (source : Option Text) : Clause → Bindings → Env → List Event → Option Env → Prop
  | raises (clause : Clause) (bindings : Bindings) (env : Env) : ClauseRuns source clause bindings env [] none
  | binds (clause : Clause) (bindings : Bindings) (env later : Env) (met : careful → clause.Open normal exports source bindings)
      (effect : clause.Effect normal exports source env later) : ClauseRuns source clause bindings env [] (some later)

inductive ItemRuns : Item → Bindings → Env → List Event → Option Env → Prop
  | raises (item : Item) (bindings : Bindings) (env : Env) : ItemRuns item bindings env [] none
  | calls (item : Item) (bindings : Bindings) (env : Env) : ItemRuns item bindings env (item.events env) none
  | completes (item : Item) (bindings : Bindings) (env later : Env) (met : careful → item.Open normal bindings)
      (keeps : Keeps (item.MayBind normal) env later) : ItemRuns item bindings env (item.events env) (some later)

def clauseLevel (source : Option Text) : Level Clause Bindings Env Event Recorded where
  sites := fun _ => []
  facts := fun _ _ => []
  after := fun clause bindings => imports source bindings clause
  Runs := ClauseRuns normal exports careful source

def itemLevel (trigger : Trigger) : Level Item Bindings Env Event Recorded where
  sites := fun item => (item.call.map Prod.fst).toList
  facts := fun item bindings => (expression trigger ([], bindings) item).1
  after := fun item bindings => (expression trigger ([], bindings) item).2
  Runs := ItemRuns normal careful

-- A statement that branches, loops or deletes may bind any name.
inductive SimpleRuns (trigger : Trigger) : Statement → Bindings → Env → List Event → Option Env → Prop
  | comment (bindings : Bindings) (env : Env) : SimpleRuns trigger .comment bindings env [] (some env)
  | importStatement (clauses : List Clause) (bindings : Bindings) (env : Env) (events : List Event) (last : Option Env)
      (runs : (clauseLevel normal exports careful none).RunsAll clauses bindings env events last) :
      SimpleRuns trigger (.importStatement clauses) bindings env events last
  | importFrom (moduleName : Text) (clauses : List Clause) (bindings : Bindings) (env : Env) (events : List Event) (last : Option Env)
      (runs : (clauseLevel normal exports careful (some moduleName)).RunsAll clauses bindings env events last) :
      SimpleRuns trigger (.importFrom moduleName clauses) bindings env events last
  | expression (items : List Item) (bindings : Bindings) (env : Env) (events : List Event) (last : Option Env)
      (runs : (itemLevel normal careful trigger).RunsAll items bindings env events last) :
      SimpleRuns trigger (.expression items) bindings env events last
  | undefined (name : Identifier) (header : Exprs) (body : Reach) (bindings : Bindings) (env : Env) :
      SimpleRuns trigger (.definition name header body) bindings env [] none
  | defined (name : Identifier) (header : Exprs) (body : Reach) (bindings : Bindings) (env later : Env)
      (met : careful → definitionOpen normal name header body bindings)
      (keeps : Keeps (fun bound => bound = normal name.text ∨ header.MayBind normal bound ∨ body.MayBind normal bound) env later) :
      SimpleRuns trigger (.definition name header body) bindings env [] (some later)
  | tryStatement (body : List Statement) (bindings : Bindings) (env : Env) (last : Option Env) :
      SimpleRuns trigger (.tryStatement body) bindings env [] last
  | other (bindings : Bindings) (env : Env) (last : Option Env) : SimpleRuns trigger .other bindings env [] last

def simpleLevel (trigger : Trigger) : Level Statement Bindings Env Event Recorded where
  sites := fun statement => match statement with
    | .expression items => (itemLevel normal careful trigger).all.sites items
    | _ => []
  facts := fun statement bindings => match statement with
    | .expression items => (itemLevel normal careful trigger).all.facts items bindings
    | _ => []
  after := fun statement bindings => match statement with
    | .comment => bindings
    | .importStatement clauses => (clauseLevel normal exports careful none).all.after clauses bindings
    | .importFrom moduleName clauses => (clauseLevel normal exports careful (some moduleName)).all.after clauses bindings
    | .expression items => (itemLevel normal careful trigger).all.after items bindings
    | .definition name _ _ => remove bindings name.text
    | .tryStatement _ => clear
    | .other => clear
  Runs := SimpleRuns normal exports careful trigger

-- The body of a `try` statement runs to some point, and whatever runs after it may bind any name.
inductive StatementRuns : Statement → Bindings → Env → List Event → Option Env → Prop
  | tryStatement (body : List Statement) (bindings : Bindings) (env : Env) (events : List Event) (inner last : Option Env)
      (runs : (simpleLevel normal exports careful .moduleTry).RunsAll body bindings env events inner) :
      StatementRuns (.tryStatement body) bindings env events last
  | simple (statement : Statement) (bindings : Bindings) (env : Env) (events : List Event) (last : Option Env)
      (plain : ∀ body, statement ≠ .tryStatement body)
      (runs : SimpleRuns normal exports careful .module statement bindings env events last) :
      StatementRuns statement bindings env events last

def statementLevel : Level Statement Bindings Env Event Recorded where
  sites := fun statement => match statement with
    | .tryStatement body => (simpleLevel normal exports careful .moduleTry).all.sites body
    | _ => (simpleLevel normal exports careful .module).sites statement
  facts := fun statement bindings => match statement with
    | .tryStatement body => (simpleLevel normal exports careful .moduleTry).all.facts body bindings
    | _ => (simpleLevel normal exports careful .module).facts statement bindings
  after := fun statement bindings => match statement with
    | .tryStatement _ => clear
    | _ => (simpleLevel normal exports careful .module).after statement bindings
  Runs := StatementRuns normal exports careful

def callSites (module_ : List Statement) : List Nat := (statementLevel id (fun _ _ => False) False).all.sites module_

end Filefacts.PythonModuleCalls
