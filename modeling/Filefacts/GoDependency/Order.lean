import Filefacts.GoDependency.Context

set_option autoImplicit false

namespace Filefacts.GoDependency

open Choice Output PackageContext

def Distinct (members : List ReferenceMember) : Prop := (members.map ReferenceMember.path).Nodup

variable (members : List ReferenceMember)

theorem distinct_perm (members' : List ReferenceMember) (supplied : members.Perm members') (distinct : Distinct members) :
    Distinct members' := (supplied.map _).nodup_iff.mp distinct

theorem member_of_path (distinct : Distinct members) (one other : ReferenceMember)
    (left : one ∈ members) (right : other ∈ members) (same : one.path = other.path) : one = other :=
  List.inj_on_of_nodup_map distinct left right same

theorem path_of_drop (path front rest : List Char) (dropped : path.dropPrefix? front = some rest) : path = front ++ rest := by
  obtain ⟨front', split, same⟩ := List.dropPrefix?_eq_some_iff.mp dropped
  rw [split, beq_iff_eq.mp same]

section Supplied

variable (members members' : List ReferenceMember) (supplied : members.Perm members') (distinct : Distinct members)

include supplied distinct

theorem find_path_perm (front rest : List Char) :
    (members.find? fun m => m.path.dropPrefix? front == some rest) =
      members'.find? fun m => m.path.dropPrefix? front == some rest := by
  apply find_perm _ members members' supplied
  intro one left other right first second
  apply member_of_path members distinct one other left right
  rw [path_of_drop _ _ _ (beq_iff_eq.mp first), path_of_drop _ _ _ (beq_iff_eq.mp second)]

variable (main : ReferenceMember)

theorem vendor_of_perm : vendorOf members main = vendorOf members' main :=
  find_path_perm members members' supplied distinct _ _

theorem sums_of_perm {context context' : List (ReferenceMember × Bool)} (around : context.Perm context') :
    (sumsOf members context).Perm (sumsOf members' context') := by
  have found : ∀ owner, members.find? (isSum owner) = members'.find? (isSum owner) :=
    fun owner => find_path_perm members members' supplied distinct _ _
  simp only [sumsOf, found]
  exact around.flatMap_right _

omit distinct in
theorem context_of_perm (workspace : Option ReferenceMember) :
    (contextOf members main workspace).Perm (contextOf members' main workspace) := by
  cases workspace with
  | none => exact List.Perm.refl _
  | some work => exact (((supplied.filter _).map _).append_right _).cons _

omit distinct in
theorem supply_perm (vendorDirectory : List Char) (vendor : Option ReferenceMember) (reference one other : Reference)
    (same : outcome one = outcome other) :
    outcome (supply members vendorDirectory vendor reference one) =
      outcome (supply members' vendorDirectory vendor reference other) := by
  rw [supply.eq_def, supply.eq_def, outcome_kind one other same]
  by_cases kind : other.kind ≠ .dependency
  · rw [if_pos kind, if_pos kind]
    exact same
  · rw [if_neg kind, if_neg kind]
    cases vendor with
    | none => exact same
    | some vendor =>
        dsimp only
        split
        · rfl
        · cases vendor.references.find? fun v => v.source == Source.vendorModule &&
              (coordinate v).map Prod.fst == (coordinate reference).map Prod.fst with
          | none => rfl
          | some selected =>
              dsimp only
              cases coordinate selected with
              | none => rfl
              | some place =>
                  dsimp only
                  rw [any_perm _ members members' supplied]
                  cases members'.any fun m => inVendor vendorDirectory place.1 m.path with
                  | false => rfl
                  | true =>
                      have fields : ({ outcome one with
                          kind := .local_, locator := .path ("vendor/".toList ++ place.1), resolution := some .vendored } : Reference) =
                        { outcome other with
                          kind := .local_, locator := .path ("vendor/".toList ++ place.1), resolution := some .vendored } := by
                        rw [same]
                      exact fields

theorem resolved_perm (context context' : List (ReferenceMember × Bool)) (around : context.Perm context') :
    (resolved members main context).map outcome = (resolved members' main context').map outcome := by
  rw [resolved, resolved, List.map_map, List.map_map, vendor_of_perm members members' supplied distinct main]
  apply List.map_congr_left
  intro reference _
  exact supply_perm members members' supplied _ _ reference _ _
    (reconcile_perm reference around
      (sums_of_perm members members' supplied distinct around) supplied)

end Supplied

def OneWorkspace (members : List ReferenceMember) : Prop :=
  ∀ main ∈ manifests members, ∀ one other,
    Tops depth (owners members main) one → Tops depth (owners members main) other → one = other

theorem workspace_of_perm {members' : List ReferenceMember} (supplied : members.Perm members')
    (single : OneWorkspace members) {main : ReferenceMember} (manifest : main ∈ manifests members) :
    workspaceOf members main = workspaceOf members' main :=
  max_by_key_perm depth _ _ (supplied.filter _) (single main manifest)

theorem workspace_of_last {main work : ReferenceMember}
    (tops : Tops depth (owners members main) work) : workspaceOf (members.erase work ++ [work]) main = some work := by
  have kept := (List.mem_filter.mp tops.mem).2
  have others : owners (members.erase work ++ [work]) main = owners (members.erase work) main ++ [work] := by
    rw [owners, List.filter_append, List.filter_singleton, kept]
    rfl
  rw [workspaceOf, others]
  apply max_by_key_last
  intro other member
  have inside := List.mem_filter.mp member
  exact tops.above other (List.mem_filter.mpr ⟨List.mem_of_mem_erase inside.1, inside.2⟩)

def charge (members : List ReferenceMember) (main : ReferenceMember) : Nat :=
  lookupCost members + workCost members (workspaceOf members main) +
    resolveCost members main (contextOf members main (workspaceOf members main))

structure WithinBudgets (members : List ReferenceMember) (limits : ContextLimits) : Prop where
  counts : overBudget members limits = false
  work : ((manifests members).map (charge members)).sum ≤ limits.maxReferenceWork

def settled (members : List ReferenceMember) (main : ReferenceMember) : List Reference :=
  resolved members main (contextOf members main (workspaceOf members main))

theorem visit_within (remaining : Nat) (main : ReferenceMember) (enough : charge members main ≤ remaining) :
    visit members false remaining main = (settled members main, remaining - charge members main) := by
  rw [charge] at enough ⊢
  have lookup : ¬ (false || decide (remaining < lookupCost members)) = true := by
    rw [Bool.false_or, decide_eq_true_eq]
    omega
  rw [visit, if_neg lookup]
  rw [if_neg (by omega), if_neg (by omega), Nat.sub_sub, Nat.sub_sub, ← Nat.add_assoc]
  rfl

theorem visit_all_other (path : List Char) :
    ∀ (rest : List ReferenceMember) (remaining : Nat) (facts : Facts), path ∉ rest.map ReferenceMember.path →
      visitAll members false rest remaining facts path = facts path := by
  intro rest
  induction rest with
  | nil => exact fun _ _ _ => rfl
  | cons main rest hypothesis =>
      intro remaining facts absent
      rw [List.map_cons, List.mem_cons, not_or] at absent
      rw [visitAll]
      dsimp only
      rw [hypothesis _ _ absent.2, Facts.insert, if_neg absent.1]

theorem visit_all_within :
    ∀ (rest : List ReferenceMember) (remaining : Nat) (facts : Facts), (rest.map (charge members)).sum ≤ remaining →
      (rest.map ReferenceMember.path).Nodup → ∀ main ∈ rest,
        visitAll members false rest remaining facts main.path = some (settled members main) := by
  intro rest
  induction rest with
  | nil => exact fun _ _ _ _ _ member => absurd member List.not_mem_nil
  | cons head rest hypothesis =>
      intro remaining facts enough nodup main member
      rw [List.map_cons, List.sum_cons] at enough
      rw [List.map_cons, List.nodup_cons] at nodup
      rw [visitAll, visit_within members remaining head (by omega)]
      dsimp only
      rcases List.mem_cons.mp member with same | inside
      · rw [same, visit_all_other members head.path rest _ _ nodup.1, Facts.insert, if_pos rfl]
      · exact hypothesis _ _ (by omega) nodup.2 main inside

theorem go_dependency_context_within (limits : ContextLimits) (distinct : Distinct members)
    (within : WithinBudgets members limits) (main : ReferenceMember) (manifest : main ∈ manifests members) :
    goDependencyContext members limits main.path = some (settled members main) := by
  rw [goDependencyContext, within.counts]
  exact visit_all_within members _ _ _ within.work (distinct.sublist (List.filter_sublist.map _)) main manifest

section Once

variable (members members' : List ReferenceMember) (supplied : members.Perm members') (distinct : Distinct members)
variable (single : OneWorkspace members)

include supplied

theorem reference_count_perm : referenceCount members = referenceCount members' := (supplied.map _).sum_nat

theorem lookup_cost_perm : lookupCost members = lookupCost members' := by
  rw [lookupCost, lookupCost, reference_count_perm members members' supplied, supplied.length_eq]

include distinct single

theorem charge_perm (main : ReferenceMember) (manifest : main ∈ manifests members) : charge members main = charge members' main := by
  have around := context_of_perm members members' supplied main (workspaceOf members' main)
  have summed := sums_of_perm members members' supplied distinct around
  have resolve : ∀ work, workCost members work = workCost members' work := by
    intro work
    cases work with
    | none => rfl
    | some work => rw [workCost, workCost, supplied.length_eq]
  rw [charge, charge, lookup_cost_perm members members' supplied, workspace_of_perm members supplied single manifest,
    resolve, resolveCost, resolveCost, (around.map _).sum_nat, summed.length_eq, supplied.length_eq]

theorem within_perm (limits : ContextLimits) (within : WithinBudgets members limits) : WithinBudgets members' limits := by
  have counted := reference_count_perm members members' supplied
  refine ⟨?_, ?_⟩
  · rw [overBudget, ← supplied.length_eq, ← counted]
    exact within.counts
  · have charges : (manifests members).map (charge members) = (manifests members).map (charge members') :=
      List.map_congr_left fun main manifest => charge_perm members members' supplied distinct single main manifest
    have sums : ((manifests members).map (charge members')).sum = ((manifests members').map (charge members')).sum :=
      ((supplied.filter _).map _).sum_nat
    rw [← sums, ← charges]
    exact within.work

theorem settled_perm (main : ReferenceMember) (manifest : main ∈ manifests members) :
    (settled members main).map outcome = (settled members' main).map outcome := by
  rw [settled, settled, workspace_of_perm members supplied single manifest]
  exact resolved_perm members members' supplied distinct main _ _ (context_of_perm members members' supplied main _)

end Once

structure SameFor (first second : List ReferenceMember) (limits : ContextLimits) (main : ReferenceMember) : Prop where
  workspace : workspaceOf first main = workspaceOf second main
  references : (goDependencyContext first limits main.path).map (List.map outcome) =
    (goDependencyContext second limits main.path).map (List.map outcome)

def OrderFree (members : List ReferenceMember) (limits : ContextLimits) : Prop :=
  ∀ first second : List ReferenceMember, first.Perm members → second.Perm members →
    ∀ main ∈ manifests members, SameFor first second limits main

theorem order_free_iff (members : List ReferenceMember) (limits : ContextLimits) (distinct : Distinct members)
    (within : WithinBudgets members limits) : OrderFree members limits ↔ OneWorkspace members := by
  constructor
  · intro free main manifest one other left right
    have ends : ∀ work, Tops depth (owners members main) work → (members.erase work ++ [work]).Perm members := by
      intro work tops
      exact (List.perm_append_singleton _ _).trans (List.perm_cons_erase (List.mem_filter.mp tops.mem).1).symm
    have same := (free _ _ (ends one left) (ends other right) main manifest).workspace
    rw [workspace_of_last members left, workspace_of_last members right] at same
    exact Option.some.inj same
  · intro single first second left right main manifest
    have run : ∀ order : List ReferenceMember, order.Perm members →
        (goDependencyContext order limits main.path).map (List.map outcome) = some ((settled members main).map outcome) := by
      intro order perm
      have reordered := go_dependency_context_within order limits (distinct_perm members order perm.symm distinct)
        (within_perm members order perm.symm distinct single limits within) main ((perm.symm.filter _).mem_iff.mp manifest)
      rw [reordered, Option.map_some, ← settled_perm members order perm.symm distinct single main manifest]
    refine ⟨?_, by rw [run first left, run second right]⟩
    rw [← workspace_of_perm members left.symm single manifest,
      workspace_of_perm members right.symm single manifest]

def moduleFile : ReferenceMember :=
  ⟨"m/go.mod".toList, [{ locator := .purl "pkg:golang/x@v1".toList, kind := .dependency, source := Source.mod, evidence := [] }]⟩

def workFile (directory fork : List Char) : ReferenceMember :=
  ⟨directory ++ "/go.work".toList,
    [{ locator := .path "../m".toList, kind := .undefined, source := Source.workUse, evidence := [] },
      { locator := .purl ("pkg:golang/".toList ++ fork ++ "@v1".toList), kind := .undefined, source := Source.workReplace,
        evidence := [], replaces := some ⟨"x".toList, none⟩ }]⟩

def tied : List ReferenceMember := [moduleFile, workFile "a".toList "y".toList, workFile "b".toList "z".toList]

theorem order_free_iff_tied : OrderFree tied {} ↔ OneWorkspace tied :=
  order_free_iff tied {} (by decide +kernel : (tied.map ReferenceMember.path).Nodup) ⟨by decide +kernel, by decide +kernel⟩

def decision (reference : Reference) : Option Resolution × RefKind × RefLocator × Option PinnedHash :=
  (reference.resolution, reference.kind, reference.locator, reference.pinnedHash)

theorem tied_workspaces_follow_order :
    ¬ ∀ (first second : List ReferenceMember) (limits : ContextLimits), first.Perm second → Distinct first →
      WithinBudgets first limits → WithinBudgets second limits → ∀ main ∈ manifests first,
        (goDependencyContext first limits main.path).map (List.map decision) =
          (goDependencyContext second limits main.path).map (List.map decision) := by
  intro free
  have same := free tied tied.reverse {} (List.reverse_perm tied).symm (by decide +kernel : (tied.map ReferenceMember.path).Nodup)
    ⟨by decide +kernel, by decide +kernel⟩ ⟨by decide +kernel, by decide +kernel⟩ moduleFile (by decide +kernel)
  revert same
  decide +kernel

end Filefacts.GoDependency
