import Mathlib.Data.Set.Card
import Filefacts.Bytes
import Filefacts.Lib.Runs
import Filefacts.Lib.Covered
import Filefacts.Lib.Crossing

set_option autoImplicit false

namespace Filefacts.Media

open Bytes (saturatingAdd maxU64)
open Crossing (Solid Apart Follows Crosses sweep)

def alignmentSlack : Nat := 3

def concealmentFloor : Nat := 64

def gzipProbePasses : Nat := 2

def gzipProbeFloor : Nat := 2 ^ 20

def gzipProbeBudget (len : Nat) : Nat := saturatingAdd (Bytes.saturatingMul len gzipProbePasses) gzipProbeFloor

structure Claim where
  start : Nat
  stop : Nat
  freeform : Bool
deriving DecidableEq

structure Coverage where
  container : Option String
  headerEnd : Nat
  claims : List Claim
  problems : List String
  declaredLen : Option Nat

-- The label of a region's content, and the budget left.
abbrev Classify := List UInt8 → Nat → Option String × Nat

structure Noted where
  stowaway : List String
  stowawayBytes : Nat
  gzipBudget : Nat

structure MediaFacts where
  container : Option String
  contentKind : Option String
  trailingContentKind : Option String
  valid : Bool
  stowaway : List String
  problems : List String
  trailingBytes : Nat
  gapBytes : Nat
  stowawayBytes : Nat

section Emit

variable (classify : Classify) (bytes : List UInt8)

def note (noted : Noted) (region : List UInt8) (counted allowText : Bool) : Noted × Option String :=
  if region = [] then (noted, none)
  else
    let stowawayBytes := if counted then saturatingAdd noted.stowawayBytes region.length else noted.stowawayBytes
    let (kind, gzipBudget) := classify region noted.gzipBudget
    let stowaway :=
      match kind with
      | none => noted.stowaway
      | some kind =>
          if (!allowText && kind ∈ ["text", "base64", "high_entropy"]) || kind ∈ noted.stowaway then noted.stowaway
          else noted.stowaway ++ [kind]
    (⟨stowaway, stowawayBytes, gzipBudget⟩, kind)

-- `bytes.get(start..stop.min(bytes.len()))`.
def region (start stop : Nat) : Option (List UInt8) := Bytes.get bytes start (min stop bytes.length)

def noteFreeform (noted : Noted) (claim : Claim) : Noted :=
  if claim.freeform then
    match region bytes claim.start claim.stop with
    | some region => (note classify noted region false false).1
    | none => noted
  else noted

structure Sweep where
  coveredTo : Nat
  gapBytes : Nat
  overlapping : Bool
  structuralTo : Nat
  noted : Noted

def extentOrder (one other : Nat × Nat × Bool) : Prop :=
  one.1 < other.1 ∨ one.1 = other.1 ∧ (one.2.1 < other.2.1 ∨ one.2.1 = other.2.1 ∧ one.2.2.toNat ≤ other.2.2.toNat)

instance (one other : Nat × Nat × Bool) : Decidable (extentOrder one other) := inferInstanceAs (Decidable (_ ∨ _ ∧ (_ ∨ _ ∧ _)))

def extents (claims : List Claim) : List (Nat × Nat × Bool) :=
  (claims.filterMap fun claim => if claim.start < claim.stop then some (claim.start, claim.stop, claim.freeform) else none).insertionSort
    extentOrder

def sweepStep (state : Sweep) (extent : Nat × Nat × Bool) : Sweep :=
  let (start, stop, freeform) := extent
  let gap := if state.coveredTo ≤ start ∧ alignmentSlack < start - state.coveredTo then region bytes state.coveredTo start else none
  { coveredTo := max state.coveredTo stop
    gapBytes := gap.elim state.gapBytes fun region => saturatingAdd state.gapBytes region.length
    overlapping := state.overlapping || (!freeform && decide (start < state.structuralTo))
    structuralTo := if freeform then state.structuralTo else max state.structuralTo stop
    noted := gap.elim state.noted fun region => (note classify state.noted region true true).1 }

def swept (coverage : Coverage) : Sweep :=
  (extents coverage.claims).foldl (sweepStep classify bytes)
    ⟨coverage.headerEnd, 0, false, coverage.headerEnd, coverage.claims.foldl (noteFreeform classify bytes) ⟨[], 0, gzipProbeBudget bytes.length⟩⟩

def overlapProblem : String := "container regions overlap"

-- What `emit` reports, the entropy of the stowaways left out.
def emit (coverage : Coverage) : MediaFacts :=
  let state := swept classify bytes coverage
  let logicalEnd := coverage.declaredLen.elim state.coveredTo fun declared => max state.coveredTo declared
  let behind := bytes.length - logicalEnd
  let trailing := coverage.container.isSome && decide (concealmentFloor < behind)
  let (noted, trailingContentKind) :=
    match if trailing then region bytes logicalEnd bytes.length else none with
    | some region => note classify state.noted region true true
    | none => (state.noted, none)
  let problems := coverage.problems ++ (if trailing then ["data beyond parsed container regions"] else []) ++
    (if concealmentFloor < state.gapBytes then ["bytes not claimed by the container"] else []) ++
    (if state.overlapping then [overlapProblem] else [])
  { container := coverage.container
    contentKind := if coverage.container = none then some ((classify bytes (gzipProbeBudget bytes.length)).1.getD "unknown") else none
    trailingContentKind := trailingContentKind
    valid := coverage.container.isSome && problems.isEmpty
    stowaway := noted.stowaway
    problems := problems
    trailingBytes := if trailing then behind - alignmentSlack else 0
    gapBytes := state.gapBytes
    stowawayBytes := noted.stowawayBytes }

end Emit

def Covers (claim : Claim) (position : Nat) : Prop := claim.start ≤ position ∧ position < claim.stop

def Claim.solid (claim : Claim) : Bool := decide (claim.start < claim.stop)

def greatestStart (claims : List Claim) : Nat := (claims.map Claim.start).foldr max 0

-- The positions from the header's end up to a reach that no claim covers.
def Unclaimed (coverage : Coverage) (reach position : Nat) : Prop :=
  coverage.headerEnd ≤ position ∧ position < reach ∧ ∀ claim ∈ coverage.claims, ¬ Covers claim position

-- The positions of a file inside maximal runs of these that no alignment explains.
def Hidden (coverage : Coverage) (reach length : Nat) : Set Nat :=
  {position | position < length ∧ ∃ low high, Runs.Maximal (Unclaimed coverage reach) low high ∧ alignmentSlack < high - low ∧
    low ≤ position ∧ position < high}

def structural (claims : List Claim) : List Claim := claims.filter fun claim => !claim.freeform && claim.solid

def Meet (one other : Claim) : Prop := ∃ position, Covers one position ∧ Covers other position

def Overlaps (coverage : Coverage) : Prop :=
  ¬ (structural coverage.claims).Pairwise (fun one other => ¬ Meet one other) ∨
    ∃ claim ∈ structural coverage.claims, claim.start < coverage.headerEnd

def rangeOf (extent : Nat × Nat × Bool) : Nat × Nat := (extent.1, extent.2.1)

def extentOf (claim : Claim) : Nat × Nat × Bool := (claim.start, claim.stop, claim.freeform)

variable (claims : List Claim)

theorem extents_perm : (extents claims).Perm ((claims.filter Claim.solid).map extentOf) := by
  rw [extents]
  refine (List.perm_insertionSort extentOrder _).trans (List.Perm.of_eq ?_)
  induction claims with
  | nil => rfl
  | cons claim claims ih =>
      by_cases solid : claim.start < claim.stop
      · rw [List.filter_cons_of_pos (show claim.solid = true from decide_eq_true solid), List.map_cons, ← ih, List.filterMap_cons, if_pos solid]
        rfl
      · rw [List.filter_cons_of_neg (by rwa [Claim.solid, decide_eq_true_eq]), ← ih, List.filterMap_cons, if_neg solid]

theorem extents_sorted : (extents claims).Pairwise fun one other => one.1 ≤ other.1 := by
  have total : Std.Total extentOrder := ⟨fun one other => by unfold extentOrder; omega⟩
  have trans : IsTrans (Nat × Nat × Bool) extentOrder := ⟨fun one two three first second => by unfold extentOrder at *; omega⟩
  refine (List.pairwise_insertionSort extentOrder _).imp fun order => ?_
  rcases order with before | level
  · exact Nat.le_of_lt before
  · exact Nat.le_of_eq level.1

theorem mem_extents (extent : Nat × Nat × Bool) :
    extent ∈ extents claims ↔ ∃ claim ∈ claims, claim.solid = true ∧ extentOf claim = extent := by
  rw [(extents_perm claims).mem_iff, List.mem_map]
  exact exists_congr fun claim => by rw [List.mem_filter, and_assoc]

def long (length : Nat) (gaps : List (Nat × Nat)) : List (Nat × Nat) :=
  (gaps.filter fun gap => decide (alignmentSlack < gap.2 - gap.1)).map fun gap => (gap.1, min gap.2 length)

theorem long_cons (length : Nat) (gap : Nat × Nat) (gaps : List (Nat × Nat)) :
    Covered.total (long length (gap :: gaps)) =
      (if alignmentSlack < gap.2 - gap.1 then min gap.2 length - gap.1 else 0) + Covered.total (long length gaps) := by
  rw [long, List.filter_cons]
  by_cases wide : alignmentSlack < gap.2 - gap.1
  · rw [if_pos (decide_eq_true wide), if_pos wide, List.map_cons, Covered.total, List.map_cons, List.sum_cons]
    rfl
  · rw [if_neg (by rwa [decide_eq_true_eq]), if_neg wide, Nat.zero_add]
    rfl

section Run

variable (classify : Classify) (bytes : List UInt8)

theorem region_length (start stop : Nat) :
    (region bytes start stop).elim 0 List.length = min stop bytes.length - start := by
  rw [region, Bytes.get]
  by_cases inside : start ≤ min stop bytes.length
  · rw [if_pos ⟨inside, Nat.min_le_right _ _⟩, Option.elim_some, List.length_take, List.length_drop]
    omega
  · rw [if_neg fun both => inside both.1, Option.elim_none]
    omega

theorem step_gap_bytes (state : Sweep) (extent : Nat × Nat × Bool) (room : state.gapBytes ≤ maxU64) :
    (sweepStep classify bytes state extent).gapBytes = min (state.gapBytes +
      if alignmentSlack < extent.1 - state.coveredTo then min extent.1 bytes.length - state.coveredTo else 0) maxU64 := by
  obtain ⟨start, stop, freeform⟩ := extent
  have length := region_length bytes state.coveredTo start
  dsimp only [sweepStep]
  by_cases wide : alignmentSlack < start - state.coveredTo
  · have above : state.coveredTo ≤ start := by omega
    rw [if_pos ⟨above, wide⟩, if_pos wide, ← length]
    cases region bytes state.coveredTo start with
    | none => exact (Nat.min_eq_left room).symm
    | some region => rfl
  · rw [if_neg fun both => wide both.2, if_neg wide, Option.elim_none, Nat.add_zero, Nat.min_eq_left room]

theorem sweep_gap_bytes (extents : List (Nat × Nat × Bool)) : ∀ state : Sweep, state.gapBytes ≤ maxU64 →
    (extents.foldl (sweepStep classify bytes) state).gapBytes =
      min (state.gapBytes + Covered.total (long bytes.length (Runs.gaps 0 state.coveredTo (extents.map rangeOf)))) maxU64 := by
  induction extents with
  | nil =>
      intro state room
      exact (Nat.min_eq_left room).symm
  | cons extent extents ih =>
      intro state room
      have step := step_gap_bytes classify bytes state extent room
      have after := ih (sweepStep classify bytes state extent) (by rw [step]; exact Nat.min_le_right _ _)
      have moved : (sweepStep classify bytes state extent).coveredTo = max state.coveredTo extent.2.1 := rfl
      rw [List.foldl_cons, after, step, moved, List.map_cons, rangeOf, Runs.gaps_cons]
      by_cases gap : state.coveredTo < extent.1
      · rw [if_pos gap, long_cons]
        dsimp only
        omega
      · have narrow : ¬ alignmentSlack < extent.1 - state.coveredTo := by
          rw [alignmentSlack]
          omega
        rw [if_neg gap, if_neg narrow, Nat.add_zero, Nat.min_eq_left room]

theorem sweep_overlapping (extents : List (Nat × Nat × Bool)) : ∀ state : Sweep,
    (extents.foldl (sweepStep classify bytes) state).overlapping =
      (state.overlapping || sweep state.structuralTo ((extents.filter (!·.2.2)).map rangeOf)) := by
  induction extents with
  | nil => exact fun state => (Bool.or_false _).symm
  | cons extent extents ih =>
      intro state
      obtain ⟨start, stop, freeform⟩ := extent
      rw [List.foldl_cons, ih]
      cases freeform with
      | true => simp only [sweepStep, if_true, Bool.not_true, Bool.false_and, Bool.or_false, List.filter_cons, Bool.false_eq_true, if_false]
      | false =>
          simp only [sweepStep, Bool.not_false, Bool.true_and, Bool.false_eq_true, if_false, List.filter_cons, if_true, List.map_cons,
            rangeOf, sweep, Bool.or_assoc]

end Run

theorem lt_greatest (position : Nat) : position < greatestStart claims ↔ ∃ claim ∈ claims, position < claim.start := by
  rw [greatestStart]
  induction claims with
  | nil => exact iff_of_false (Nat.not_lt_zero _) fun ⟨_, member, _⟩ => List.not_mem_nil member
  | cons claim claims ih => rw [List.map_cons, List.foldr_cons, lt_max_iff, ih, List.exists_mem_cons_iff]

section Positions

variable (coverage : Coverage)

def ranges : List (Nat × Nat) := (extents coverage.claims).map rangeOf

-- The reach of the sweep: it ends with the last claim that is not empty.
def reach : Nat := greatestStart (coverage.claims.filter Claim.solid)

theorem mem_ranges (range : Nat × Nat) :
    range ∈ ranges coverage ↔ ∃ claim ∈ coverage.claims, claim.solid = true ∧ (claim.start, claim.stop) = range := by
  rw [ranges, List.mem_map]
  constructor
  · rintro ⟨extent, member, rfl⟩
    obtain ⟨claim, claimed, solid, rfl⟩ := (mem_extents _ _).mp member
    exact ⟨claim, claimed, solid, rfl⟩
  · rintro ⟨claim, claimed, solid, rfl⟩
    exact ⟨extentOf claim, (mem_extents _ _).mpr ⟨claim, claimed, solid, rfl⟩, rfl⟩

theorem ranges_sorted : (ranges coverage).Pairwise fun one other => one.1 ≤ other.1 :=
  List.pairwise_map.mpr (extents_sorted coverage.claims)

theorem ranges_solid : ∀ range ∈ ranges coverage, range.1 < range.2 := by
  intro range member
  obtain ⟨claim, _, solid, rfl⟩ := (mem_ranges coverage range).mp member
  exact of_decide_eq_true solid

theorem unclaimed_open : Unclaimed coverage (reach coverage) = Runs.Open 0 coverage.headerEnd (ranges coverage) := by
  funext position
  apply propext
  have covered : Runs.Covered (ranges coverage) position ↔ ∃ claim ∈ coverage.claims, Covers claim position := by
    constructor
    · rintro ⟨range, member, covers⟩
      obtain ⟨claim, claimed, _, rfl⟩ := (mem_ranges coverage range).mp member
      exact ⟨claim, claimed, covers⟩
    · rintro ⟨claim, claimed, covers⟩
      have solid : claim.solid = true := decide_eq_true (Nat.lt_of_le_of_lt covers.1 covers.2)
      exact ⟨_, (mem_ranges coverage _).mpr ⟨claim, claimed, solid, rfl⟩, covers⟩
  have reached : position < reach coverage ↔ ∃ range ∈ ranges coverage, position < range.1 := by
    rw [reach, lt_greatest]
    constructor
    · rintro ⟨claim, member, below⟩
      obtain ⟨claimed, solid⟩ := List.mem_filter.mp member
      exact ⟨_, (mem_ranges coverage _).mpr ⟨claim, claimed, solid, rfl⟩, below⟩
    · rintro ⟨range, member, below⟩
      obtain ⟨claim, claimed, solid, rfl⟩ := (mem_ranges coverage range).mp member
      exact ⟨claim, List.mem_filter.mpr ⟨claimed, solid⟩, below⟩
  rw [Unclaimed, Runs.Open, covered, reached]
  simp only [Nat.not_lt_zero, false_or, not_exists, not_and]
  tauto

variable (length : Nat)

theorem hidden_covered : Hidden coverage (reach coverage) length =
    ↑(Covered.covered (long length (Runs.gaps 0 coverage.headerEnd (ranges coverage)))) := by
  have gaps := Runs.mem_gaps 0 (ranges coverage) (ranges_sorted coverage) (ranges_solid coverage) coverage.headerEnd
  ext position
  rw [Hidden, unclaimed_open, Set.mem_ofPred_eq, Finset.mem_coe, Covered.mem_covered]
  constructor
  · rintro ⟨inside, low, high, run, wide, above, below⟩
    have kept := (List.mem_filter (p := fun gap : Nat × Nat => decide (alignmentSlack < gap.2 - gap.1))).mpr
      ⟨(gaps low high).mpr run, decide_eq_true wide⟩
    exact ⟨_, List.mem_map_of_mem kept, above, Nat.lt_min.mpr ⟨below, inside⟩⟩
  · rintro ⟨extent, member, above, below⟩
    obtain ⟨⟨low, high⟩, kept, rfl⟩ := List.mem_map.mp member
    obtain ⟨gap, wide⟩ := List.mem_filter.mp kept
    obtain ⟨under, inside⟩ := Nat.lt_min.mp below
    exact ⟨inside, low, high, (gaps low high).mp gap, of_decide_eq_true wide, above, under⟩

theorem hidden_total : (Hidden coverage (reach coverage) length).ncard =
    Covered.total (long length (Runs.gaps 0 coverage.headerEnd (ranges coverage))) := by
  rw [hidden_covered, Set.ncard_coe_finset]
  apply Covered.card_covered
  rw [long, List.pairwise_map]
  refine ((Runs.gaps_apart 0 (ranges coverage) (ranges_solid coverage) coverage.headerEnd).filter _).imp fun follows => ?_
  exact Nat.le_trans (Nat.min_le_left _ _) follows.2

theorem hidden_within : (Hidden coverage (reach coverage) length).ncard ≤ length := by
  have within : Hidden coverage (reach coverage) length ⊆ ↑(Finset.range length) :=
    fun position hidden => Finset.mem_coe.mpr (Finset.mem_range.mpr hidden.1)
  have most := Set.ncard_le_ncard within
  rwa [Set.ncard_coe_finset, Finset.card_range] at most

theorem structural_perm : (((extents coverage.claims).filter (!·.2.2)).map rangeOf).Perm
    ((structural coverage.claims).map fun claim => (claim.start, claim.stop)) := by
  have kept := ((extents_perm coverage.claims).filter fun extent => !extent.2.2).map rangeOf
  refine kept.trans (List.Perm.of_eq ?_)
  rw [List.filter_map, List.filter_filter, List.map_map, structural]
  rfl

theorem claim_solid (claim : Claim) (solid : claim.solid = true) : Solid (claim.start, claim.stop) :=
  of_decide_eq_true (p := claim.start < claim.stop) solid

theorem meet_iff (one other : Claim) (first : one.solid = true) (second : other.solid = true) :
    Apart (one.start, one.stop) (other.start, other.stop) ↔ ¬ Meet one other :=
  Crossing.apart_iff _ _ (claim_solid one first) (claim_solid other second)

theorem structural_solid (claim : Claim) (member : claim ∈ structural coverage.claims) : claim.solid = true :=
  (Bool.and_eq_true_iff.mp (List.mem_filter.mp member).2).2

theorem sweep_structural :
    sweep coverage.headerEnd (((extents coverage.claims).filter (!·.2.2)).map rangeOf) = true ↔ Overlaps coverage := by
  have perm := structural_perm coverage
  have sorted : (((extents coverage.claims).filter (!·.2.2)).map rangeOf).Pairwise fun one other => one.1 ≤ other.1 :=
    List.pairwise_map.mpr ((extents_sorted coverage.claims).filter _)
  have solid : ∀ range ∈ ((extents coverage.claims).filter (!·.2.2)).map rangeOf, Solid range := by
    intro range member
    obtain ⟨claim, claimed, rfl⟩ := List.mem_map.mp (perm.mem_iff.mp member)
    exact claim_solid claim (structural_solid coverage claim claimed)
  have apart : (((extents coverage.claims).filter (!·.2.2)).map rangeOf).Pairwise Follows ↔
      (structural coverage.claims).Pairwise fun one other => ¬ Meet one other := by
    rw [← Crossing.follows_of_apart _ sorted solid, ← not_iff_not]
    refine (Crossing.crosses_perm _ _ perm).trans (not_congr ?_)
    rw [List.pairwise_map]
    have each : ∀ one ∈ structural coverage.claims, ∀ other ∈ structural coverage.claims,
        Apart (one.start, one.stop) (other.start, other.stop) ↔ ¬ Meet one other := fun one member other found =>
      meet_iff one other (structural_solid coverage one member) (structural_solid coverage other found)
    exact ⟨fun ends => ends.imp_of_mem fun member found => (each _ member _ found).mp,
      fun never => never.imp_of_mem fun member found => (each _ member _ found).mpr⟩
  rw [← Bool.not_eq_false, Crossing.sweep_false, apart, not_and_or, or_comm, Overlaps]
  refine or_congr_right ?_
  simp only [perm.mem_iff, List.forall_mem_map, not_forall, Nat.not_le, exists_prop]

theorem unclaimed_perm (claims : List Claim) (perm : claims.Perm coverage.claims) :
    Unclaimed { coverage with claims } (reach { coverage with claims }) = Unclaimed coverage (reach coverage) := by
  funext position
  simp only [Unclaimed, reach, lt_greatest, List.mem_filter, perm.mem_iff]

theorem overlaps_perm (claims : List Claim) (perm : claims.Perm coverage.claims) :
    Overlaps { coverage with claims } ↔ Overlaps coverage := by
  have kept : (structural claims).Perm (structural coverage.claims) := perm.filter _
  have symmetric : ∀ one other : Claim, ¬ Meet one other → ¬ Meet other one :=
    fun one other never ⟨position, first, second⟩ => never ⟨position, second, first⟩
  rw [Overlaps, Overlaps, kept.pairwise_iff fun {one other} => symmetric one other]
  simp only [kept.mem_iff]

theorem overlaps_structural :
    Overlaps { coverage with claims := coverage.claims.filter (!·.freeform) } ↔ Overlaps coverage := by
  have same : structural (coverage.claims.filter (!·.freeform)) = structural coverage.claims := by
    rw [structural, List.filter_filter, structural]
    refine List.filter_congr fun claim _ => ?_
    cases claim.freeform <;> simp
  rw [Overlaps, Overlaps, same]

variable (classify : Classify) (bytes : List UInt8)

theorem emit_gap_bytes (small : bytes.length < 2 ^ 64) :
    (emit classify bytes coverage).gapBytes = (Hidden coverage (reach coverage) bytes.length).ncard := by
  have within := hidden_within coverage bytes.length
  have gap := sweep_gap_bytes classify bytes (extents coverage.claims) ⟨coverage.headerEnd, 0, false, coverage.headerEnd,
    coverage.claims.foldl (noteFreeform classify bytes) ⟨[], 0, gzipProbeBudget bytes.length⟩⟩ (Nat.zero_le _)
  have room : Covered.total (long bytes.length (Runs.gaps 0 coverage.headerEnd (ranges coverage))) ≤ maxU64 := by
    rw [← hidden_total, maxU64]
    omega
  rw [hidden_total, ← Nat.min_eq_left room, ← Nat.zero_add (Covered.total _)]
  exact gap

theorem emit_overlap :
    overlapProblem ∈ (emit classify bytes coverage).problems ↔ overlapProblem ∈ coverage.problems ∨ Overlaps coverage := by
  have flag : (swept classify bytes coverage).overlapping = true ↔ Overlaps coverage := by
    rw [← sweep_structural, swept, sweep_overlapping, Bool.false_or]
  rw [← flag]
  simp only [emit, List.mem_append]
  have others : ∀ condition : Prop, ∀ [Decidable condition], ∀ problem : String, overlapProblem ≠ problem →
      overlapProblem ∉ (if condition then [problem] else []) := by
    intro condition decision problem differ
    split
    · exact fun member => differ (List.mem_singleton.mp member)
    · exact List.not_mem_nil
  have behind := others ((coverage.container.isSome && decide (concealmentFloor < bytes.length -
    coverage.declaredLen.elim (swept classify bytes coverage).coveredTo fun declared =>
      max (swept classify bytes coverage).coveredTo declared)) = true) "data beyond parsed container regions" (by decide)
  have between := others (concealmentFloor < (swept classify bytes coverage).gapBytes) "bytes not claimed by the container" (by decide)
  rw [or_iff_left between, or_iff_left behind]
  refine or_congr_right ?_
  split
  · exact iff_of_true List.mem_cons_self ‹_›
  · exact iff_of_false List.not_mem_nil ‹_›

theorem emit_accounts (small : bytes.length < 2 ^ 64) :
    (emit classify bytes coverage).gapBytes = (Hidden coverage (reach coverage) bytes.length).ncard ∧
      (overlapProblem ∈ (emit classify bytes coverage).problems ↔ overlapProblem ∈ coverage.problems ∨ Overlaps coverage) ∧
      (∀ claims : List Claim, claims.Perm coverage.claims →
        (emit classify bytes { coverage with claims }).gapBytes = (emit classify bytes coverage).gapBytes ∧
        (overlapProblem ∈ (emit classify bytes { coverage with claims }).problems ↔
          overlapProblem ∈ (emit classify bytes coverage).problems)) ∧
      (overlapProblem ∈ (emit classify bytes { coverage with claims := coverage.claims.filter (!·.freeform) }).problems ↔
        overlapProblem ∈ (emit classify bytes coverage).problems) := by
  refine ⟨emit_gap_bytes coverage classify bytes small, emit_overlap coverage classify bytes, fun claims perm => ⟨?_, ?_⟩, ?_⟩
  · rw [emit_gap_bytes _ classify bytes small, emit_gap_bytes _ classify bytes small, Hidden, Hidden, unclaimed_perm coverage claims perm]
  · rw [emit_overlap, emit_overlap, overlaps_perm coverage claims perm]
  · rw [emit_overlap, emit_overlap, overlaps_structural]

end Positions

def noKind : Classify := fun _ budget => (none, budget)

-- A hole of ten octets, closed by a claim that begins below the header's end, and a freeform claim inside a structural one.
def holed : Coverage := ⟨some "png", 8, [⟨18, 40, false⟩, ⟨0, 4, true⟩, ⟨20, 30, true⟩], [], none⟩

theorem emit_accounts_holed : (List.replicate 40 (0 : UInt8)).length < 2 ^ 64 ∧
    (emit noKind (List.replicate 40 0) holed).gapBytes = (Hidden holed (reach holed) 40).ncard :=
  ⟨by decide +kernel, (emit_accounts holed noKind (List.replicate 40 0) (by decide +kernel)).1⟩

def onlyEmpty : Coverage := ⟨some "png", 0, [⟨10, 5, false⟩], [], none⟩

theorem empty_claim_unswept : (emit noKind (List.replicate 10 0) onlyEmpty).gapBytes ≠
    (Hidden onlyEmpty (greatestStart onlyEmpty.claims) 10).ncard := by
  have none_ : (emit noKind (List.replicate 10 0) onlyEmpty).gapBytes = 0 := by decide +kernel
  have unclaimed : ∀ position, Unclaimed onlyEmpty (greatestStart onlyEmpty.claims) position ↔ position < 10 := by
    intro position
    have never : ∀ claim ∈ onlyEmpty.claims, ¬ Covers claim position := by
      intro claim member covers
      obtain rfl := List.mem_singleton.mp member
      exact absurd (Nat.lt_of_le_of_lt covers.1 covers.2) (by decide)
    exact ⟨fun open_ => open_.2.1, fun below => ⟨Nat.zero_le _, below, never⟩⟩
  have run : Runs.Maximal (Unclaimed onlyEmpty (greatestStart onlyEmpty.claims)) 0 10 :=
    ⟨by decide, fun position _ below => (unclaimed position).mpr below, .inl rfl, fun open_ => absurd ((unclaimed 10).mp open_) (by decide)⟩
  have found : 0 ∈ Hidden onlyEmpty (greatestStart onlyEmpty.claims) 10 := ⟨by decide, 0, 10, run, by decide, by decide, by decide⟩
  have finite : (Hidden onlyEmpty (greatestStart onlyEmpty.claims) 10).Finite :=
    (Finset.range 10).finite_toSet.subset fun position hidden => Finset.mem_coe.mpr (Finset.mem_range.mpr hidden.1)
  rw [none_]
  exact (Nat.ne_of_lt ((Set.ncard_pos finite).mpr ⟨0, found⟩))

end Filefacts.Media
