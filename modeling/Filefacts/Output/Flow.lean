import Mathlib.Algebra.Order.Ring.Nat
import Filefacts.Lib.Worklist

set_option autoImplicit false

namespace Filefacts.Output

inductive FlowKind where
  | literal
  | parameter
  | call
  | member
  | merge
  | concat
  | alternative
  | object
  | keyword
  | unknown
deriving DecidableEq, Repr

-- Argument shapes, shared with the symbol vocabulary. Only the first two
-- payload-carrying shapes, booleans and null count as complete literals.
inductive Arg where
  | string (value : String)
  | number (text : String) (value : Int) (radix : Nat)
  | identifier (name : String)
  | bool (value : Bool)
  | template (value : String)
  | null
  | object
  | array
  | function
  | call
  | expression
deriving DecidableEq, Repr

-- BTreeMaps are association lists in key order. Byte offsets and the
-- module-level mark are left out: no traversal reads them.
structure FlowValue where
  kind : FlowKind
  literal : Option Arg := none
  target : Option String := none
  inputs : List Nat := []
  receiver : Option Nat := none
  fields : List (String × Nat) := []
deriving DecidableEq, Repr

structure FlowFunction where
  parameters : List Nat
  returns : List Nat
deriving DecidableEq, Repr

structure Flow where
  values : List FlowValue
  functions : List (String × FlowFunction) := []
deriving DecidableEq, Repr

structure FlowTransfer where
  call : String
  arguments : List Nat
  receiver : Bool
deriving DecidableEq, Repr

abbrev Bindings := List (Nat × Nat)

-- BTreeMap::insert on the key-ordered list: equal maps are equal lists.
def Bindings.insert (key value : Nat) : Bindings → Bindings
  | [] => [(key, value)]
  | (other, old) :: rest =>
      if key < other then (key, value) :: (other, old) :: rest
      else if key = other then (key, value) :: rest
      else (other, old) :: Bindings.insert key value rest

structure FlowOrigin where
  value : Nat
  bindings : Bindings
deriving DecidableEq, Repr

-- A BTreeSet of origins, read as a set: the list has no repetitions.
structure FlowOrigins where
  values : List FlowOrigin := []
  incomplete : Bool := false
deriving DecidableEq, Repr

def FlowOrigins.ids (origins : FlowOrigins) : List Nat := origins.values.map FlowOrigin.value

def stepLimit : Nat := 100000
def depthLimit : Nat := 64
def frameBindingLimit : Nat := 256
def frameEntryLimit : Nat := 2 ^ 20

theorem ids_insert (origins : FlowOrigins) (origin : FlowOrigin) (id : Nat) :
    id ∈ (FlowOrigins.mk (origins.values.insert origin) origins.incomplete).ids ↔
      id = origin.value ∨ id ∈ origins.ids := by
  simp only [FlowOrigins.ids, List.mem_map, List.mem_insert_iff]
  constructor
  · rintro ⟨found, same | older, rfl⟩
    · exact Or.inl (same ▸ rfl)
    · exact Or.inr ⟨found, older, rfl⟩
  · rintro (same | ⟨found, older, eq⟩)
    · exact ⟨origin, Or.inl rfl, same.symm⟩
    · exact ⟨found, Or.inr older, eq⟩

end Filefacts.Output
