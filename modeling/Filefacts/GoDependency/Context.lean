import Filefacts.Lib.Choice
import Filefacts.Output.References
import Filefacts.PackageContext.Paths

set_option autoImplicit false

namespace Filefacts.GoDependency

open Choice Output PackageContext

-- `formats::references::go::source`.
namespace Source

def mod : List Char := "go.mod".toList

def sum : List Char := "go.sum".toList

def modReplace : List Char := "go.mod.replace".toList

def workReplace : List Char := "go.work.replace".toList

def modExclude : List Char := "go.mod.exclude".toList

def workUse : List Char := "go.work.use".toList

def vendorModule : List Char := "go.vendor.module".toList

def incomplete : List Char := "go.manifest.incomplete".toList

end Source

structure ReferenceMember where
  path : List Char
  references : List Reference
deriving DecidableEq, Repr

def saturatingAdd (one other : Nat) : Nat := min (one + other) (2 ^ 64 - 1)

def saturatingMul (one other : Nat) : Nat := min (one * other) (2 ^ 64 - 1)

def byteLength (text : List Char) : Nat := (text.map Char.utf8Size).sum

def named (path name : List Char) : Bool :=
  (path.dropSuffix? name).any fun rest => rest.isEmpty || rest.getLast? == some '/'

def localModule (base spec : List Char) : Option (List Char) := joinRelative (memberDirectory base) spec

def isModuleManifest (path module_ : List Char) : Bool :=
  match (path.dropSuffix? "go.mod".toList).bind (·.dropSuffix? "/".toList) with
  | some dir => dir == module_
  | none => path == "go.mod".toList && module_.isEmpty

def rsplitOnce (text : List Char) (at_ : Char) : Option (List Char × List Char) :=
  if at_ ∈ text then some ((text.rdropWhile (· != at_)).dropLast, text.rtakeWhile (· != at_)) else none

def coordinate (reference : Reference) : Option (List Char × List Char) :=
  match reference.locator with
  | .purl purl => (purl.dropPrefix? "pkg:golang/".toList).bind (rsplitOnce · '@')
  | _ => none

def unresolved (reference : Reference) (reason : UnresolvedReason) : Reference :=
  { reference with resolution := some (.unresolved reason) }

def owns (work : ReferenceMember) (main : List Char) : Bool :=
  work.references.any fun reference => reference.source == Source.workUse &&
    match reference.locator with
    | .path path => (localModule work.path path).any (isModuleManifest main)
    | _ => false

structure Match where
  workspace : Bool
  exact : Bool
  owner : List Char
  directive : Reference
deriving DecidableEq

def Match.priority (entry : Match) : Nat := 2 * entry.workspace.toNat + entry.exact.toNat

def replaceDirectives (context : List (ReferenceMember × Bool)) : List (ReferenceMember × Bool × Reference) :=
  context.flatMap fun entry =>
    (entry.1.references.filter fun reference =>
      reference.source == Source.modReplace || reference.source == Source.workReplace).map fun reference =>
        (entry.1, entry.2, reference)

def collectMatches (module_ version : List Char) : List (ReferenceMember × Bool × Reference) → Option (List Match)
  | [] => some []
  | (owner, workspace, reference) :: rest =>
      match reference.replaces with
      | none => none
      | some replaced =>
          if replaced.module_ ≠ module_ ∨ replaced.version.any (· != version) then collectMatches module_ version rest
          else (collectMatches module_ version rest).map (⟨workspace, replaced.version.isSome, owner.path, reference⟩ :: ·)

def disagrees (last peer : Match) : Bool :=
  peer.directive.locator != last.directive.locator ||
    match peer.directive.locator with
    | .path _ => peer.owner != last.owner
    | _ => false

def pin (sums : List Reference) (reference result : Reference) : Reference :=
  match sums.filter fun sum => sum.source == Source.sum && sum.locator == result.locator with
  | [] => result
  | first :: rest =>
      if (first :: rest).any fun sum => sum.pinnedHash != first.pinnedHash then unresolved reference .checksumConflict
      else { result with pinnedHash := first.pinnedHash }

def replaceWith (members : List ReferenceMember) (sums : List Reference) (reference : Reference) (last : Match) : Reference :=
  let result := { reference with
    resolution := some .replaced
    locator := last.directive.locator
    pinnedHash := none
    contentSha256 := none
    source := last.directive.source
    evidence := reference.evidence ++ "; ".toList ++ last.owner ++ ": ".toList ++ last.directive.evidence }
  match last.directive.locator with
  | .path path =>
      match localModule last.owner path with
      | none => unresolved reference .localBoundary
      | some module_ =>
          if members.any fun m => isModuleManifest m.path module_ then { result with kind := .local_ }
          else unresolved reference .localMissing
  | _ => pin sums reference result

def settle (members : List ReferenceMember) (sums : List Reference) (reference : Reference) (found : List Match) : Reference :=
  let sorted := sortByKey Match.priority found
  match sorted.getLast? with
  | none => pin sums reference { reference with resolution := some .declaredMinimum }
  | some last =>
      if (sorted.filter fun entry => entry.priority == last.priority).any (disagrees last) then
        unresolved reference .replacementConflict
      else replaceWith members sums reference last

def reconcile (reference : Reference) (context : List (ReferenceMember × Bool)) (sums : List Reference)
    (members : List ReferenceMember) : Reference :=
  if reference.source ≠ Source.mod ∨ reference.kind ≠ .dependency then reference
  else
    match coordinate reference with
    | none => reference
    | some (module_, version) =>
        if context.any fun entry => entry.1.references.any fun r => r.source == Source.incomplete then
          unresolved reference .manifest
        else if context.any fun entry => entry.1.references.any fun r =>
            r.source == Source.modExclude && r.locator == reference.locator then
          unresolved reference .excludedMinimum
        else
          match collectMatches module_ version (replaceDirectives context) with
          | none => unresolved reference .replacement
          | some found => settle members sums reference found

def inVendor (vendorDirectory module_ path : List Char) : Bool :=
  ((path.dropPrefix? vendorDirectory).bind (·.dropPrefix? module_)).any fun rest => rest.head? == some '/'

def supply (members : List ReferenceMember) (vendorDirectory : List Char) (vendor : Option ReferenceMember)
    (reference value : Reference) : Reference :=
  if value.kind ≠ .dependency then value
  else
    match vendor with
    | none => value
    | some vendor =>
        if vendor.references.any fun r => r.source == Source.incomplete then unresolved reference .vendorMetadata
        else
          match vendor.references.find? fun v => v.source == Source.vendorModule &&
              (coordinate v).map Prod.fst == (coordinate reference).map Prod.fst with
          | none => unresolved reference .vendorUnlisted
          | some selected =>
              match coordinate selected with
              | none => unresolved reference .vendorMetadata
              | some (module_, _) =>
                  if members.any fun m => inVendor vendorDirectory module_ m.path then
                    { value with
                      kind := .local_
                      locator := .path ("vendor/".toList ++ module_)
                      source := selected.source
                      resolution := some .vendored
                      evidence := reference.evidence ++ "; ".toList ++ selected.evidence }
                  else unresolved reference .vendorMissing

def manifests (members : List ReferenceMember) : List ReferenceMember :=
  members.filter fun m => named m.path "go.mod".toList

def owners (members : List ReferenceMember) (main : ReferenceMember) : List ReferenceMember :=
  members.filter fun m => named m.path "go.work".toList && owns m main.path

def depth (member : ReferenceMember) : Nat := byteLength (memberDirectory member.path)

def workspaceOf (members : List ReferenceMember) (main : ReferenceMember) : Option ReferenceMember :=
  maxByKey depth (owners members main)

def contextOf (members : List ReferenceMember) (main : ReferenceMember) : Option ReferenceMember → List (ReferenceMember × Bool)
  | none => [(main, false)]
  | some work =>
      (main, false) ::
        ((members.filter fun m => m.path != main.path && named m.path "go.mod".toList && owns work m.path).map (·, false) ++
          [(work, true)])

def isSum (owner : ReferenceMember × Bool) (member : ReferenceMember) : Bool :=
  member.path.dropPrefix? (memberDirectory owner.1.path) == some (if owner.2 then "go.work.sum".toList else "go.sum".toList)

def sumsOf (members : List ReferenceMember) (context : List (ReferenceMember × Bool)) : List Reference :=
  context.flatMap fun owner =>
    match members.find? (isSum owner) with
    | some sum => sum.references
    | none => []

def vendorDirectoryOf (main : ReferenceMember) : List Char := memberDirectory main.path ++ "vendor/".toList

def vendorOf (members : List ReferenceMember) (main : ReferenceMember) : Option ReferenceMember :=
  members.find? fun m => m.path.dropPrefix? (vendorDirectoryOf main) == some "modules.txt".toList

def resolved (members : List ReferenceMember) (main : ReferenceMember) (context : List (ReferenceMember × Bool)) :
    List Reference :=
  main.references.map fun reference =>
    supply members (vendorDirectoryOf main) (vendorOf members main) reference
      (reconcile reference context (sumsOf members context) members)

def referenceCount (members : List ReferenceMember) : Nat := (members.map (·.references.length)).sum

def lookupCost (members : List ReferenceMember) : Nat := saturatingAdd members.length (referenceCount members)

def workCost (members : List ReferenceMember) : Option ReferenceMember → Nat
  | none => 0
  | some work => saturatingMul members.length work.references.length

def resolveCost (members : List ReferenceMember) (main : ReferenceMember) (context : List (ReferenceMember × Bool)) : Nat :=
  saturatingMul main.references.length
    (saturatingAdd
      (saturatingAdd (saturatingMul (context.map (·.1.references.length)).sum 4) (sumsOf members context).length)
      members.length)

def outOfBudget (main : ReferenceMember) : List Reference := main.references.map (unresolved · .contextBudget)

def visit (members : List ReferenceMember) (overBudget : Bool) (remaining : Nat) (main : ReferenceMember) :
    List Reference × Nat :=
  if overBudget || remaining < lookupCost members then (outOfBudget main, remaining)
  else
    let remaining := remaining - lookupCost members
    let workspace := workspaceOf members main
    if remaining < workCost members workspace then (outOfBudget main, remaining)
    else
      let remaining := remaining - workCost members workspace
      let context := contextOf members main workspace
      if remaining < resolveCost members main context then (outOfBudget main, remaining)
      else (resolved members main context, remaining - resolveCost members main context)

def overBudget (members : List ReferenceMember) (limits : ContextLimits) : Bool :=
  members.length > limits.maxReferenceMembers || referenceCount members > limits.maxReferences

abbrev Facts := List Char → Option (List Reference)

def Facts.insert (facts : Facts) (path : List Char) (references : List Reference) : Facts :=
  fun key => if key = path then some references else facts key

def visitAll (members : List ReferenceMember) (spent : Bool) : List ReferenceMember → Nat → Facts → Facts
  | [], _, facts => facts
  | main :: rest, remaining, facts =>
      let (references, left) := visit members spent remaining main
      visitAll members spent rest left (facts.insert main.path references)

def goDependencyContext (members : List ReferenceMember) (limits : ContextLimits) : Facts :=
  visitAll members (overBudget members limits) (manifests members) limits.maxReferenceWork fun _ => none

open Choice Output PackageContext

def outcome (reference : Reference) : Reference := { reference with source := [], evidence := [] }

variable (one other : Reference)

theorem outcome_kind (same : outcome one = outcome other) : one.kind = other.kind := by
  have fields := congrArg Reference.kind same
  exact fields

theorem outcome_locator (same : outcome one = outcome other) : one.locator = other.locator := by
  have fields := congrArg Reference.locator same
  exact fields

theorem outcome_pinned (hash : Option PinnedHash) (same : outcome one = outcome other) :
    outcome { one with pinnedHash := hash } = outcome { other with pinnedHash := hash } := by
  have fields : ({ outcome one with pinnedHash := hash } : Reference) = { outcome other with pinnedHash := hash } := by rw [same]
  exact fields

def target (entry : Match) : RefLocator × Option (List Char) :=
  match entry.directive.locator with
  | .path path => (.path path, some entry.owner)
  | locator => (locator, none)

theorem disagrees_target (last peer : Match) : disagrees last peer = (target peer != target last) := by
  rw [Bool.eq_iff_iff, bne_iff_ne, disagrees, Bool.or_eq_true, bne_iff_ne, target, target]
  cases peer.directive.locator <;> cases last.directive.locator <;> simp
  tauto

theorem target_locator {one other : Match} (same : target one = target other) :
    one.directive.locator = other.directive.locator := by
  have locators := congrArg Prod.fst same
  rw [target, target] at locators
  cases left : one.directive.locator <;> cases right : other.directive.locator <;> rw [left, right] at locators <;>
    exact locators

theorem target_owner (one other : Match) (path : List Char) (same : target one = target other)
    (local_ : other.directive.locator = .path path) : one.owner = other.owner := by
  have left := target_locator same
  rw [target, target, left, local_] at same
  exact Option.some.inj (congrArg Prod.snd same)

theorem pin_perm {first second : List Reference} (reference : Reference) {one other : Reference} (perm : first.Perm second)
    (same : outcome one = outcome other) : outcome (pin first reference one) = outcome (pin second reference other) := by
  have filtered := perm.filter fun sum => sum.source == Source.sum && sum.locator == one.locator
  have asked : (second.filter fun sum => sum.source == Source.sum && sum.locator == other.locator) =
      second.filter fun sum => sum.source == Source.sum && sum.locator == one.locator := by rw [outcome_locator one other same]
  rw [pin, pin, asked]
  cases left : first.filter fun sum => sum.source == Source.sum && sum.locator == one.locator with
  | nil =>
      rw [left] at filtered
      rw [filtered.nil_eq.symm]
      exact same
  | cons pinned rest =>
      cases right : second.filter fun sum => sum.source == Source.sum && sum.locator == one.locator with
      | nil =>
          rw [left, right] at filtered
          exact absurd filtered.eq_nil (List.cons_ne_nil _ _)
      | cons pinned' rest' =>
          rw [left, right] at filtered
          have agree := disagree_perm Reference.pinnedHash filtered List.mem_cons_self List.mem_cons_self
          dsimp only
          rw [agree]
          cases conflict : (pinned' :: rest').any fun sum => sum.pinnedHash != pinned'.pinnedHash with
          | true => rfl
          | false =>
              have hash := agree_of_any Reference.pinnedHash _ pinned' pinned conflict (filtered.mem_iff.mp List.mem_cons_self)
              rw [hash]
              exact outcome_pinned one other pinned'.pinnedHash same

theorem any_perm {α : Type} (test : α → Bool) (first second : List α) (perm : first.Perm second) :
    first.any test = second.any test := by
  rw [Bool.eq_iff_iff, List.any_eq_true, List.any_eq_true]
  constructor
  · intro found
    obtain ⟨entry, member, holds⟩ := found
    exact ⟨entry, perm.mem_iff.mp member, holds⟩
  · intro found
    obtain ⟨entry, member, holds⟩ := found
    exact ⟨entry, perm.mem_iff.mpr member, holds⟩

section Supplied

variable (members members' : List ReferenceMember) (sums sums' : List Reference) (reference : Reference)
variable (supplied : members.Perm members') (summed : sums.Perm sums')

include supplied summed

theorem replace_with_perm (one other : Match) (same : target one = target other) :
    outcome (replaceWith members sums reference one) = outcome (replaceWith members' sums' reference other) := by
  have locators := target_locator same
  rw [replaceWith, replaceWith]
  cases place : other.directive.locator with
  | purl purl =>
      rw [place] at locators
      rw [locators]
      exact pin_perm reference summed rfl
  | url url =>
      rw [place] at locators
      rw [locators]
      exact pin_perm reference summed rfl
  | path path =>
      rw [place] at locators
      rw [locators, target_owner one other path same place]
      dsimp only
      cases localModule other.owner path with
      | none => rfl
      | some module_ =>
          dsimp only
          rw [any_perm _ members members' supplied]
          cases members'.any fun m => isModuleManifest m.path module_ with
          | true => rfl
          | false => rfl

-- Peers of the last directive have its priority, whichever of them is last.
theorem settle_perm (first second : List Match) (perm : first.Perm second) :
    outcome (settle members sums reference first) = outcome (settle members' sums' reference second) := by
  have sorted : (sortByKey Match.priority first).Perm (sortByKey Match.priority second) :=
    (sort_by_key_perm _ first).trans (perm.trans (sort_by_key_perm _ second).symm)
  rw [settle, settle]
  cases left : (sortByKey Match.priority first).getLast? with
  | none =>
      rw [List.getLast?_eq_none_iff] at left
      rw [left] at sorted
      rw [sorted.nil_eq.symm]
      exact pin_perm reference summed rfl
  | some one =>
      cases right : (sortByKey Match.priority second).getLast? with
      | none =>
          rw [List.getLast?_eq_none_iff] at right
          rw [right] at sorted
          rw [sorted.eq_nil] at left
          cases left
      | some other =>
          have top := sort_by_key_last _ left
          have top' := sort_by_key_last _ right
          have priority : one.priority = other.priority :=
            Nat.le_antisymm (top'.above one (perm.mem_iff.mp top.mem)) (top.above other (perm.mem_iff.mpr top'.mem))
          have peers := sorted.filter fun entry => entry.priority == one.priority
          have peer : one ∈ (sortByKey Match.priority first).filter fun entry => entry.priority == one.priority :=
            List.mem_filter.mpr ⟨List.mem_of_getLast? left, beq_self_eq_true _⟩
          have peer' : other ∈ (sortByKey Match.priority second).filter fun entry => entry.priority == one.priority :=
            List.mem_filter.mpr ⟨List.mem_of_getLast? right, by rw [priority]; exact beq_self_eq_true _⟩
          dsimp only
          rw [← priority, funext (disagrees_target one), funext (disagrees_target other),
            disagree_perm target peers peer peer']
          cases conflict : ((sortByKey Match.priority second).filter fun entry => entry.priority == one.priority).any
              fun entry => target entry != target other with
          | true => rfl
          | false =>
              exact replace_with_perm members members' sums sums' reference supplied summed one other
                (agree_of_any target _ other one conflict (peers.mem_iff.mp peer))

end Supplied

def applies (module_ version : List Char) (entry : ReferenceMember × Bool × Reference) : Option Match :=
  entry.2.2.replaces.bind fun replaced =>
    if replaced.module_ ≠ module_ ∨ replaced.version.any (· != version) then none
    else some ⟨entry.2.1, replaced.version.isSome, entry.1.path, entry.2.2⟩

theorem collect_matches_eq (module_ version : List Char) (directives : List (ReferenceMember × Bool × Reference)) :
    collectMatches module_ version directives =
      if directives.any fun entry => entry.2.2.replaces.isNone then none
      else some (directives.filterMap (applies module_ version)) := by
  induction directives with
  | nil => rfl
  | cons entry rest hypothesis =>
      obtain ⟨owner, workspace, reference⟩ := entry
      rw [collectMatches, hypothesis, List.any_cons, List.filterMap_cons, applies]
      cases reference.replaces with
      | none => rfl
      | some replaced =>
          by_cases other : replaced.module_ ≠ module_ ∨ replaced.version.any (· != version)
          · simp only [if_pos other, Option.isNone_some, Bool.false_or, Option.bind_some]
          · simp only [if_neg other, Option.isNone_some, Bool.false_or, Option.bind_some]
            cases rest.any fun entry => entry.2.2.replaces.isNone with
            | true => rfl
            | false => rfl

theorem reconcile_perm (reference : Reference) {context context' : List (ReferenceMember × Bool)} {sums sums' : List Reference}
    {members members' : List ReferenceMember} (around : context.Perm context') (summed : sums.Perm sums')
    (supplied : members.Perm members') :
    outcome (reconcile reference context sums members) = outcome (reconcile reference context' sums' members') := by
  have directives : (replaceDirectives context).Perm (replaceDirectives context') := around.flatMap_right _
  rw [reconcile, reconcile]
  by_cases other : reference.source ≠ Source.mod ∨ reference.kind ≠ .dependency
  · rw [if_pos other, if_pos other]
  · rw [if_neg other, if_neg other]
    cases coordinate reference with
    | none => rfl
    | some place =>
        dsimp only
        rw [any_perm _ context context' around, any_perm _ context context' around, collect_matches_eq, collect_matches_eq,
          any_perm _ _ _ directives]
        split
        · rfl
        · split
          · rfl
          · cases (replaceDirectives context').any fun entry => entry.2.2.replaces.isNone with
            | true => rfl
            | false => exact settle_perm members members' sums sums' reference supplied summed _ _ (directives.filterMap _)

end Filefacts.GoDependency
