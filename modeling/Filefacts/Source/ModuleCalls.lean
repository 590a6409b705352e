import Filefacts.Output.Values

set_option autoImplicit false

namespace Filefacts.PythonModuleCalls

open Output (Text)

def maxStatements : Nat := 10000

def maxCalls : Nat := 1024

def maxSourceBytes : Nat := 2 * 1024 * 1024

-- A character of a dotted chain that is written without blanks.
def plainChar (c : Char) : Bool := c.isAlphanum || c == '_' || c == '.'

def headOf (text : Text) : Text := text.takeWhile (· != '.')

def tailOf (text : Text) : Text := (text.dropWhile (· != '.')).tail

def keywords : List Text := ["True".toList, "False".toList, "None".toList, "yield".toList]

-- A name of the grammar: it begins with no digit and is no keyword.
def isIdentifier (text : Text) : Bool :=
  match text with
  | [] => false
  | c :: _ => !c.isDigit && !text.contains '.' && !keywords.contains text

structure Identifier where
  text : Text
  valid : isIdentifier text = true

-- What stands between an object and its attribute: a dot, with blanks or comments around it.
structure Separator where
  text : Text
  joins : text = ['.'] ∨ text.all plainChar = false

-- The text of an expression that is no chain, a literal or one with some mark in it.
structure Opaque where
  text : Text
  apart : text.all plainChar = true → isIdentifier (headOf text) = false

def isBlank (c : Char) : Bool := c == ' ' || c == '\t' || c == '\n' || c == '\r' || c == '\x0c' || c == '\\'

def unblank (text : Text) : Text := text.filter fun c => !isBlank c

structure DottedName where
  text : Text
  opens : isIdentifier (unblank (headOf text)) = true

-- Expressions as the grammar has them, with what their evaluation evaluates. The body of a `lambda` is not evaluated.
mutual
inductive Expr where
  | identifier (name : Identifier)
  | attributeRef (object : Expr) (separator : Separator) (name : Identifier)
  | call (function : Expr) (arguments : Exprs) (text : Opaque) (start : Nat)
  | named (target : Identifier) (value : Expr) (text : Opaque)
  | other (parts : Exprs) (text : Opaque)
inductive Exprs where
  | nil
  | cons (part : Expr) (rest : Exprs)
end

def Expr.text : Expr → Text
  | .identifier name => name.text
  | .attributeRef object separator name => object.text ++ (separator.text ++ name.text)
  | .call _ _ text _ => text.text
  | .named _ _ text => text.text
  | .other _ text => text.text

-- The left side of an assignment: a name, or a pattern, an attribute or a subscript.
inductive Target where
  | identifier (name : Identifier)
  | other

-- The right side, which is an assignment again when the targets are chained.
inductive Right where
  | none
  | value (expression : Expr)
  | chain (left : Target) (right : Right)

inductive Item where
  | assignment (left : Target) ( annotation : Exprs) (right : Right)
  | augmented
  | expression (expression : Expr)

inductive Clause where
  | dotted (name : DottedName) (start : Nat)
  | aliased (name : DottedName) (as_ : Identifier) (start : Nat)
  | wildcard

-- The names of the module that the body of a class can bind: those it declares global, or any.
inductive Reach where
  | names (list : List Text)
  | anything

inductive Statement where
  | comment
  | importStatement (clauses : List Clause)
  | importFrom (moduleName : Text) (clauses : List Clause)
  | expression (items : List Item)
  | definition (name : Identifier) (header : Exprs) (body : Reach)
  | tryStatement (body : List Statement)
  | other

structure Import where
  target : Text
  bound : Text
  offset : Nat
deriving DecidableEq, Repr

abbrev Bindings := Text → Option Import

def insert (bindings : Bindings) (name : Text) (binding : Import) : Bindings := Function.update bindings name (some binding)

def remove (bindings : Bindings) (name : Text) : Bindings := Function.update bindings name none

def clear : Bindings := fun _ => none

inductive Trigger where
  | module
  | moduleTry
deriving DecidableEq, Repr

structure Recorded where
  callee : Text
  resolvedCallee : Text
  bound : Text
  privateAlias : Bool
  importOffset : Nat
  callOffset : Nat
  trigger : Trigger
deriving DecidableEq, Repr

def Expr.isChain : Expr → Bool
  | .identifier _ => true
  | .attributeRef _ _ _ => true
  | _ => false

def resolved (function : Expr) (bindings : Bindings) : Option (Import × Text) :=
  (bindings (headOf function.text)).bind fun binding =>
    if !function.isChain || !function.text.all plainChar then none
    else some (binding, if tailOf function.text = [] then binding.target else binding.target ++ '.' :: tailOf function.text)

def Clause.binds (source : Option Text) : Clause → Option (Text × Text × Nat)
  | .dotted name start =>
      let bound := headOf name.text
      some (bound, match source with
        | some moduleName => moduleName ++ '.' :: name.text
        | none => bound, start)
  | .aliased name as_ start =>
      some (as_.text, match source with
        | some moduleName => moduleName ++ '.' :: name.text
        | none => name.text, start)
  | .wildcard => none

def imports (source : Option Text) (bindings : Bindings) (clause : Clause) : Bindings :=
  match clause.binds source with
  | some (bound, target, offset) => insert bindings bound ⟨target, bound, offset⟩
  | none => bindings

def temporaryConstructor (expression : Expr) (bindings : Bindings) : Bool :=
  match expression with
  | .call function _ _ _ => (resolved function bindings).any fun (_, name) => name == "tempfile.NamedTemporaryFile".toList
  | _ => false

def observed (expression : Expr) (bindings : Bindings) (trigger : Trigger) : Option Recorded :=
  match expression with
  | .call function _ _ start => (resolved function bindings).map fun (binding, name) =>
      { callee := function.text, resolvedCallee := name, bound := binding.bound,
        privateAlias := binding.bound.head? == some '_', importOffset := binding.offset, callOffset := start, trigger }
  | _ => none

def observe (expression : Expr) (bindings : Bindings) (trigger : Trigger) (calls : List Recorded) : List Recorded :=
  if maxCalls ≤ calls.length then calls else calls ++ (observed expression bindings trigger).toList

def expression (trigger : Trigger) (state : List Recorded × Bindings) (item : Item) : List Recorded × Bindings :=
  let (calls, bindings) := state
  match item with
  | .expression expression => (observe expression bindings trigger calls, bindings)
  | .assignment left _ right =>
      let calls := match right with
        | .value expression =>
            if temporaryConstructor expression bindings then calls else observe expression bindings trigger calls
        | _ => calls
      match left with
      | .identifier name => (calls, remove bindings name.text)
      | .other => (calls, clear)
  | .augmented => (calls, clear)

structure Collector where
  calls : List Recorded
  budget : Nat

-- Every arm but that of a `try` statement of the module.
def simpleStatement (trigger : Trigger) (state : Collector × Bindings) (statement : Statement) : Collector × Bindings :=
  let (collector, bindings) := state
  if collector.budget = 0 then state
  else
    let budget := collector.budget - 1
    match statement with
    | .comment => (⟨collector.calls, budget⟩, bindings)
    | .importStatement clauses => (⟨collector.calls, budget⟩, clauses.foldl (imports none) bindings)
    | .importFrom moduleName clauses => (⟨collector.calls, budget⟩, clauses.foldl (imports (some moduleName)) bindings)
    | .expression items =>
        let (calls, bindings) := items.foldl (expression trigger) (collector.calls, bindings)
        (⟨calls, budget⟩, bindings)
    | .definition name _ _ => (⟨collector.calls, budget⟩, remove bindings name.text)
    | .tryStatement _ => (⟨collector.calls, budget⟩, clear)
    | .other => (⟨collector.calls, budget⟩, clear)

-- The body of a `try` statement works on a copy of the bindings, and none of them carry on.
def statement (state : Collector × Bindings) (current : Statement) : Collector × Bindings :=
  match current with
  | .tryStatement body =>
      let (collector, bindings) := state
      if collector.budget = 0 then state
      else
        let (collector, _) := body.foldl (simpleStatement .moduleTry) (⟨collector.calls, collector.budget - 1⟩, bindings)
        (collector, clear)
  | _ => simpleStatement .module state current

def moduleAliasCalls (sourceLength : Nat) (parseError : Bool) (module_ : List Statement) : List Recorded :=
  if maxSourceBytes < sourceLength ∨ parseError then []
  else (module_.foldl statement (⟨[], maxStatements⟩, clear)).1.calls

end Filefacts.PythonModuleCalls
