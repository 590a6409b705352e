import Mathlib.Data.List.DropRight

set_option autoImplicit false

namespace Filefacts.PackageContext

structure SourceFile where
  path : String
  source : String
deriving DecidableEq, Repr

inductive Coverage where
  | complete
  | incomplete
deriving DecidableEq, Repr

inductive Phase where
  | build
  | procMacro
  | runtime
  | test
deriving DecidableEq, Repr

structure ContextLimits where
  maxGoMembers : Nat := 512
  maxGoBytes : Nat := 8 * 1024 * 1024
  maxGoMemberBytes : Nat := 2 * 1024 * 1024
  maxGoPackages : Nat := 128
  maxCargoVisits : Nat := 20000
  maxFlowMembers : Nat := 128
  maxFlowBytes : Nat := 2 * 1024 * 1024
  maxFlowSteps : Nat := 10000000
  maxReferenceMembers : Nat := 4096
  maxReferences : Nat := 50000
  maxReferenceWork : Nat := 2000000
deriving DecidableEq, Repr

def memberDirectory (path : List Char) : List Char := path.rdropWhile (· != '/')

def memberName (path : List Char) : List Char := path.drop (memberDirectory path).length

def joinPart (parts : List (List Char)) (part : List Char) : Option (List (List Char)) :=
  if part = [] ∨ part = ".".toList then some parts
  else if part = "..".toList then if parts = [] then none else some parts.dropLast
  else some (parts ++ [part])

-- No reference leaves the artifact it was resolved in.
def joinRelative (dir spec : List Char) : Option (List Char) :=
  if spec.head? = some '/' ∨ '\\' ∈ spec ∨ ':' ∈ spec then none
  else ((spec.splitOn '/').foldlM joinPart ((dir.splitOn '/').filter (· ≠ []))).map (List.intercalate ['/'])

end Filefacts.PackageContext
