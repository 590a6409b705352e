import Filefacts.Bytes
import Filefacts.Lib.Keyed
import Filefacts.Lib.Ranked

set_option autoImplicit false

namespace Filefacts.ApiHash

open Bytes (maxU64 saturatingAdd)

open Ranked (StartsAt lowest partitionPoint sortByKey)

inductive HashKind where
  | multiplyXorRotate
  | xorRotateMultiplyXor
deriving DecidableEq, Repr

structure ApiHashProfile where
  loopOffset : Nat
  kind : HashKind
  seed : Option Nat
  multiplier : Nat
  xorConstant : Nat
  rotateBits : Nat
  asciiLowercase : Bool
deriving DecidableEq, Repr

structure LocatedHashProfile where
  va : Nat
  seed : Nat
  profile : ApiHashProfile
deriving DecidableEq, Repr

structure CallEdge where
  caller : Nat
  callsite : Nat
  target : Nat
deriving DecidableEq, Repr

-- A zero-sized function holds only its entry.
def vaInFunction (va start size : Nat) : Bool :=
  if size = 0 then va = start else va ≥ start && va < saturatingAdd start size

def sizeOf (ranges : List (Nat × Nat)) : List (Nat × Nat) :=
  ranges.foldl (fun sizes range => if (Keyed.find range.1 sizes).isSome then sizes else Keyed.put range.1 range.2 sizes) []

def firstIn (sizes : List (Nat × Nat)) (byVa : List LocatedHashProfile) (start : Nat) : Option LocatedHashProfile := do
  let size ← Keyed.find start sizes
  (byVa[partitionPoint (fun profile => profile.va < start) byVa]?).filter fun profile => vaInFunction profile.va start size

def holdsWalk (walkSites : List Nat) (range : Nat × Nat) : Bool :=
  (walkSites[partitionPoint (fun site => site < range.1) walkSites]?).any fun site => vaInFunction site range.1 range.2

abbrev Resolvers := List (Nat × Option LocatedHashProfile)

-- A call fills the slot of its caller, when that is a resolver still without a
-- profile.
def delegate (profileIn : Nat → Option LocatedHashProfile) (resolvers : Resolvers) (edge : CallEdge) : Resolvers :=
  match Keyed.find edge.caller resolvers with
  | some none => Keyed.put edge.caller (profileIn edge.target) resolvers
  | _ => resolvers

def resolverCalls (ranges : List (Nat × Nat)) (callEdges : List CallEdge) (walkSites : List Nat)
    (profiles : List LocatedHashProfile) : List (CallEdge × LocatedHashProfile) :=
  let profileIn := firstIn (sizeOf ranges) (sortByKey LocatedHashProfile.va profiles)
  let walking := ranges.filter (holdsWalk (sortByKey id walkSites))
  let own := walking.foldl (fun resolvers range => Keyed.put range.1 (profileIn range.1) resolvers) []
  let resolvers := callEdges.foldl (delegate profileIn) own
  callEdges.filterMap fun edge => do
    let slot ← Keyed.find edge.target resolvers
    let profile ← slot
    some (edge, profile)

-- The same calls by nested linear searches. A function ends where its size
-- says, at the latest at the top address.
def contains (range : Nat × Nat) (va : Nat) : Bool :=
  if range.2 = 0 then va = range.1 else range.1 ≤ va && va < min (range.1 + range.2) maxU64

def isResolver (ranges : List (Nat × Nat)) (walkSites : List Nat) (target : Nat) : Bool :=
  ranges.any fun range => range.1 = target && walkSites.any (contains range)

-- Where several ranges share a start, the first is the function.
def profileInside (ranges : List (Nat × Nat)) (profiles : List LocatedHashProfile) (start : Nat) :
    Option LocatedHashProfile := do
  let range ← ranges.find? fun range => range.1 = start
  lowest LocatedHashProfile.va (fun profile => contains range profile.va) profiles

def profileOfCallee (ranges : List (Nat × Nat)) (callEdges : List CallEdge) (profiles : List LocatedHashProfile) (caller : Nat) :
    Option LocatedHashProfile :=
  (callEdges.filter fun edge => edge.caller = caller).findSome? fun edge => profileInside ranges profiles edge.target

def linearCalls (ranges : List (Nat × Nat)) (callEdges : List CallEdge) (walkSites : List Nat)
    (profiles : List LocatedHashProfile) : List (CallEdge × LocatedHashProfile) :=
  callEdges.filterMap fun edge =>
    if isResolver ranges walkSites edge.target then
      ((profileInside ranges profiles edge.target).or (profileOfCallee ranges callEdges profiles edge.target)).map
        fun profile => (edge, profile)
    else none

theorem contains_starts (range : Nat × Nat) : StartsAt (contains range) range.1 := by
  obtain ⟨start, size⟩ := range
  by_cases empty : size = 0
  · refine ⟨fun n inside => ?_, fun n m inside above below => ?_⟩
    · simp only [contains, empty, if_pos, decide_eq_true_eq] at inside
      exact inside.ge
    · simp only [contains, empty, if_pos, decide_eq_true_eq] at inside ⊢
      omega
  · refine ⟨fun n inside => ?_, fun n m inside above below => ?_⟩
    · simp only [contains, if_neg empty, Bool.and_eq_true, decide_eq_true_eq] at inside
      exact inside.1
    · simp only [contains, if_neg empty, Bool.and_eq_true, decide_eq_true_eq] at inside ⊢
      omega

variable (ranges : List (Nat × Nat)) (profileIn : Nat → Option LocatedHashProfile)

theorem find_size_from (sizes : List (Nat × Nat)) (start : Nat) : Keyed.find start (ranges.foldl
      (fun sizes range => if (Keyed.find range.1 sizes).isSome then sizes else Keyed.put range.1 range.2 sizes) sizes) =
        (Keyed.find start sizes).or ((ranges.find? fun range => range.1 = start).map Prod.snd) := by
  induction ranges generalizing sizes with
  | nil => exact (Option.or_none).symm
  | cons range rest ih =>
      rw [List.foldl_cons, ih, List.find?_cons]
      by_cases same : range.1 = start
      · rw [← same, decide_eq_true rfl]
        cases known : Keyed.find range.1 sizes with
        | some size => rw [Option.isSome_some, if_pos rfl, known, Option.some_or, Option.some_or]
        | none =>
            rw [Option.isSome_none, if_neg Bool.false_ne_true, Keyed.find_put_same]
            rfl
      · rw [decide_eq_false same]
        split
        · rfl
        · rw [Keyed.find_put_other range.1 range.2 sizes (Ne.symm same)]

theorem find_size_of (start : Nat) :
    Keyed.find start (sizeOf ranges) = (ranges.find? fun range => range.1 = start).map Prod.snd :=
  find_size_from ranges [] start

theorem first_in_inside (profiles : List LocatedHashProfile) (start : Nat) :
    firstIn (sizeOf ranges) (sortByKey LocatedHashProfile.va profiles) start = profileInside ranges profiles start := by
  unfold firstIn profileInside
  rw [find_size_of]
  cases found : ranges.find? fun range => range.1 = start with
  | none => rfl
  | some range =>
      have here : range.1 = start := by simpa using List.find?_some found
      subst here
      exact Ranked.probe_lowest LocatedHashProfile.va (contains range) range.1 (contains_starts range) profiles

theorem holds_walk_any (walkSites : List Nat) (range : Nat × Nat) :
    holdsWalk (sortByKey id walkSites) range = walkSites.any (contains range) :=
  Ranked.probe_any id (contains range) range.1 (contains_starts range) walkSites

theorem find_own (walking : List (Nat × Nat)) (resolvers : Resolvers) (target : Nat) :
    Keyed.find target (walking.foldl (fun resolvers range => Keyed.put range.1 (profileIn range.1) resolvers) resolvers) =
      if walking.any fun range => range.1 = target then some (profileIn target) else Keyed.find target resolvers := by
  induction walking generalizing resolvers with
  | nil => rfl
  | cons range rest ih =>
      rw [List.foldl_cons, ih, List.any_cons]
      by_cases same : range.1 = target
      · rw [same, Keyed.find_put_same, ite_self, decide_eq_true rfl, Bool.true_or, if_pos rfl]
      · rw [Keyed.find_put_other range.1 _ _ (Ne.symm same), decide_eq_false same, Bool.false_or]

theorem find_delegate (resolvers : Resolvers) (edge : CallEdge) (caller : Nat) :
    Keyed.find caller (delegate profileIn resolvers edge) =
      (Keyed.find caller resolvers).map fun slot => slot.or (if edge.caller = caller then profileIn edge.target else none) := by
  unfold delegate
  by_cases same : edge.caller = caller
  · subst same
    rw [if_pos rfl]
    split
    · next waiting => rw [Keyed.find_put_same, waiting, Option.map_some, Option.none_or]
    · next settled =>
        cases slot : Keyed.find edge.caller resolvers with
        | none => rfl
        | some profile =>
            cases profile with
            | none => exact absurd slot settled
            | some profile => rfl
  · have kept : (Keyed.find caller resolvers).map (fun slot => slot.or none) = Keyed.find caller resolvers := by
      simp only [Option.or_none, Option.map_id']
    rw [if_neg same, kept]
    split
    · exact Keyed.find_put_other edge.caller _ resolvers (Ne.symm same)
    · rfl

theorem find_delegated (callEdges : List CallEdge) (resolvers : Resolvers) (caller : Nat) :
    Keyed.find caller (callEdges.foldl (delegate profileIn) resolvers) =
      (Keyed.find caller resolvers).map fun slot =>
        slot.or ((callEdges.filter fun edge => edge.caller = caller).findSome? fun edge => profileIn edge.target) := by
  induction callEdges generalizing resolvers with
  | nil => simp
  | cons edge rest ih =>
      rw [List.foldl_cons, ih, find_delegate, Option.map_map, List.filter_cons]
      congr 1
      funext slot
      by_cases same : edge.caller = caller
      · rw [Function.comp_apply, if_pos same, if_pos (decide_eq_true same), List.findSome?_cons, Option.or_assoc]
        cases profileIn edge.target with
        | none => rfl
        | some profile => rfl
      · rw [Function.comp_apply, if_neg same, if_neg (by simpa using same), Option.or_none]

theorem walking_any (walkSites : List Nat) (target : Nat) :
    ((ranges.filter (holdsWalk (sortByKey id walkSites))).any fun range => range.1 = target) = isResolver ranges walkSites target := by
  rw [List.any_filter, isResolver]
  congr 1
  funext range
  rw [holds_walk_any, Bool.and_comm]

theorem resolver_calls_linear (ranges : List (Nat × Nat)) (callEdges : List CallEdge) (walkSites : List Nat)
    (profiles : List LocatedHashProfile) :
    resolverCalls ranges callEdges walkSites profiles = linearCalls ranges callEdges walkSites profiles := by
  have searched : firstIn (sizeOf ranges) (sortByKey LocatedHashProfile.va profiles) = profileInside ranges profiles := by
    funext start
    exact first_in_inside ranges profiles start
  simp only [resolverCalls, linearCalls, searched]
  congr 1
  funext edge
  rw [find_delegated, find_own, walking_any]
  split
  · rw [Option.map_some, ← profileOfCallee]
    cases (profileInside ranges profiles edge.target).or (profileOfCallee ranges callEdges profiles edge.target) with
    | none => rfl
    | some profile => rfl
  · rfl

end Filefacts.ApiHash
