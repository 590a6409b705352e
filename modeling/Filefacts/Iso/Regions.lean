import Filefacts.Bytes
import Filefacts.Lib.Runs
import Filefacts.Lib.Largest

set_option autoImplicit false

namespace Filefacts.Iso

def maxUnclaimedRegions : Nat := 8

def minUnclaimedBytes : Nat := 4096

def sector : Nat := 2048

def systemAreaSectors : Nat := 16

inductive EntryType where
  | slack
  | trailing
deriving DecidableEq

structure Region where
  kind : EntryType
  offset : Nat
  length : Nat
deriving DecidableEq

structure File where
  offset : Nat
  size : Nat

structure Pvd where
  volumeSpaceSectors : Nat

def partitionRange (area : List UInt8) (total i : Nat) : Option (Nat × Nat) :=
  (Bytes.get area (446 + i * 16) (446 + i * 16 + 16)).bind fun e =>
    let ptype := (Bytes.u8 e 4).getD 0
    let start := (Bytes.u32le e 8).getD 0
    let count := (Bytes.u32le e 12).getD 0
    if ptype = 0 ∨ count = 0 then none
    else
      let begin_ := min (Bytes.saturatingMul start 512) total
      let end_ := min (Bytes.saturatingMul (Bytes.saturatingAdd start count) 512) total
      if begin_ < end_ then some (begin_, end_) else none

def partitionClaimedRanges (bytes : List UInt8) : List (Nat × Nat) :=
  let area := (Bytes.get bytes 0 (systemAreaSectors * sector)).getD []
  if Bytes.get area 510 512 ≠ some [0x55, 0xAA] then []
  else (List.range 4).filterMap (partitionRange area bytes.length)

def roundUp (number : Nat) : Nat := Bytes.saturatingMul (Bytes.divCeil number sector) sector

def extent (file : File) : Nat × Nat := (file.offset, Bytes.saturatingAdd file.offset (max (roundUp file.size) sector))

def claimOrder (one other : Nat × Nat) : Prop := one.1 < other.1 ∨ (one.1 = other.1 ∧ one.2 ≤ other.2)

instance (one other : Nat × Nat) : Decidable (claimOrder one other) :=
  inferInstanceAs (Decidable (one.1 < other.1 ∨ (one.1 = other.1 ∧ one.2 ≤ other.2)))

def allClaims (files : List File) (claimed : List (Nat × Nat)) : List (Nat × Nat) :=
  (claimed ++ files.map extent).insertionSort claimOrder

def declaredBytes (pvd : Pvd) : Nat := Bytes.saturatingMul pvd.volumeSpaceSectors sector

def sweepStep (state : Nat × List Region) (claim : Nat × Nat) : Nat × List Region :=
  let (cursor, out) := state
  let (start, end_) := claim
  (max cursor end_,
    if start > cursor ∧ start - cursor ≥ minUnclaimedBytes then out ++ [⟨.slack, cursor, start - cursor⟩] else out)

def sweepEnd (declared : Nat) (state : Nat × List Region) : List Region :=
  let (cursor, out) := state
  if declared > cursor ∧ declared - cursor ≥ minUnclaimedBytes then out ++ [⟨.slack, cursor, declared - cursor⟩] else out

def partitionEnd (bytes : List UInt8) : Nat := ((partitionClaimedRanges bytes).map Prod.snd).foldl max 0

def trailingFrom (pvd : Pvd) (bytes : List UInt8) : Nat := max (declaredBytes pvd) (partitionEnd bytes)

-- Interior padding is normally zeroed, so of the interior only a populated region is kept.
def retained (bytes : List UInt8) (region : Region) : Bool :=
  region.kind = .trailing ||
    ((Bytes.get bytes region.offset (Bytes.saturatingAdd region.offset region.length)).map
      fun octets => octets.any (· ≠ 0)).getD false

def foundRegions (files : List File) (pvd : Pvd) (bytes : List UInt8) (claimed : List (Nat × Nat)) : List Region :=
  let declared := declaredBytes pvd
  let out := sweepEnd declared ((allClaims files claimed).foldl sweepStep (0, []))
  let actual := bytes.length
  if actual > declared then
    let from_ := trailingFrom pvd bytes
    if actual > from_ then out ++ [⟨.trailing, from_, actual - from_⟩] else out
  else out

def unclaimedRegions (files : List File) (pvd : Pvd) (bytes : List UInt8) (claimed : List (Nat × Nat)) : List Region :=
  Largest.largest Region.length maxUnclaimedRegions ((foundRegions files pvd bytes claimed).filter (retained bytes))

open Runs (Maximal Covered Open gaps)

-- What claims a part of the image: the ranges handed in, and every file's extent.
def spaceClaims (files : List File) (claimed : List (Nat × Nat)) : List (Nat × Nat) := claimed ++ files.map extent

-- A position no claim covers, below the declared volume size or with a claim still to come.
def Unclaimed (files : List File) (pvd : Pvd) (claimed : List (Nat × Nat)) (position : Nat) : Prop :=
  Open (declaredBytes pvd) 0 (spaceClaims files claimed) position

structure PopulatedRun (files : List File) (pvd : Pvd) (bytes : List UInt8) (claimed : List (Nat × Nat)) (low high : Nat) :
    Prop where
  inside : high ≤ bytes.length
  long : low + minUnclaimedBytes ≤ high
  unclaimed : ∀ position, low ≤ position → position < high → Unclaimed files pvd claimed position
  before : low = 0 ∨ ¬ Unclaimed files pvd claimed (low - 1)
  behind : high = bytes.length ∨ ¬ Unclaimed files pvd claimed high
  populated : ∃ position octet, low ≤ position ∧ position < high ∧ bytes[position]? = some octet ∧ octet ≠ 0

def Reported (regions : List Region) (position : Nat) : Prop :=
  ∃ region ∈ regions, region.offset ≤ position ∧ position < region.offset + region.length

-- As many regions as are reported at all, none of them shorter.
def Full (regions : List Region) (length : Nat) : Prop :=
  regions.length = maxUnclaimedRegions ∧ ∀ region ∈ regions, length ≤ region.length

structure Accounts (files : List File) (pvd : Pvd) (bytes : List UInt8) (claimed : List (Nat × Nat)) (regions : List Region) :
    Prop where
  runs : ∀ low high, PopulatedRun files pvd bytes claimed low high → ∀ position, low ≤ position → position < high →
    Reported regions position ∨ Full regions (high - low)
  trailing : ∀ position, position < bytes.length → declaredBytes pvd ≤ position →
    (∀ range ∈ partitionClaimedRanges bytes, range.2 ≤ position) →
      Reported regions position ∨ Full regions (bytes.length - trailingFrom pvd bytes)
  claims : ∀ region ∈ regions, region.kind = .slack → ∀ position, region.offset ≤ position →
    position < region.offset + region.length → ¬ Covered (spaceClaims files claimed) position

-- A region that lies in the file: a populated run whose unclaimed space ends with it, or the octets past the volume
-- and the partitions.
def Settled (files : List File) (pvd : Pvd) (bytes : List UInt8) (claimed : List (Nat × Nat)) (region : Region) : Prop :=
  (region.kind = .slack ∧ PopulatedRun files pvd bytes claimed region.offset (region.offset + region.length) ∧
    ¬ Unclaimed files pvd claimed (region.offset + region.length)) ∨
  (region.kind = .trailing ∧ region.offset = trailingFrom pvd bytes ∧ region.offset + region.length = bytes.length ∧
    0 < region.length)

def slackRegion (gap : Nat × Nat) : Region := ⟨.slack, gap.1, gap.2 - gap.1⟩

def long (gap : Nat × Nat) : Bool := minUnclaimedBytes ≤ gap.2 - gap.1

theorem sweep_gaps (declared : Nat) (claims : List (Nat × Nat)) : ∀ cursor out,
    sweepEnd declared (claims.foldl sweepStep (cursor, out)) =
      out ++ ((gaps declared cursor claims).filter long).map slackRegion := by
  induction claims with
  | nil =>
      intro cursor out
      rw [List.foldl_nil, sweepEnd, gaps]
      by_cases room : cursor < declared
      · rw [if_pos room]
        by_cases enough : declared - cursor ≥ minUnclaimedBytes
        · have kept : long (cursor, declared) = true := decide_eq_true enough
          rw [if_pos ⟨room, enough⟩, List.filter_cons_of_pos kept]
          rfl
        · rw [if_neg fun both => enough both.2, List.filter_cons_of_neg (by simpa [long] using enough)]
          exact (List.append_nil out).symm
      · rw [if_neg room, if_neg fun both => room both.1]
        exact (List.append_nil out).symm
  | cons claim rest ih =>
      intro cursor out
      obtain ⟨start, stop⟩ := claim
      rw [List.foldl_cons, sweepStep, ih, gaps]
      by_cases room : cursor < start
      · rw [if_pos room]
        by_cases enough : start - cursor ≥ minUnclaimedBytes
        · have kept : long (cursor, start) = true := decide_eq_true enough
          rw [if_pos ⟨room, enough⟩, List.filter_cons_of_pos kept, List.map_cons, List.append_assoc]
          rfl
        · rw [if_neg fun both => enough both.2, List.filter_cons_of_neg (by simpa [long] using enough)]
      · rw [if_neg room, if_neg fun both => room both.1]

variable (files : List File) (pvd : Pvd) (bytes : List UInt8) (claimed : List (Nat × Nat))

theorem found_regions_eq : foundRegions files pvd bytes claimed =
      ((gaps (declaredBytes pvd) 0 (allClaims files claimed)).filter long).map slackRegion ++
        if trailingFrom pvd bytes < bytes.length then
          [⟨.trailing, trailingFrom pvd bytes, bytes.length - trailingFrom pvd bytes⟩]
        else [] := by
  rw [foundRegions, sweep_gaps, List.nil_append]
  by_cases past : trailingFrom pvd bytes < bytes.length
  · have beyond : declaredBytes pvd < bytes.length := Nat.lt_of_le_of_lt (Nat.le_max_left _ _) past
    rw [if_pos beyond, if_pos past, if_pos past]
  · simp only [gt_iff_lt, if_neg past, ite_self, List.append_nil]

theorem covered_congr (ranges other : List (Nat × Nat)) (same : ∀ range, range ∈ ranges ↔ range ∈ other) (position : Nat) :
    Covered ranges position ↔ Covered other position := by
  constructor
  · rintro ⟨range, member, covers⟩
    exact ⟨range, (same range).mp member, covers⟩
  · rintro ⟨range, member, covers⟩
    exact ⟨range, (same range).mpr member, covers⟩

theorem mem_all_claims (claim : Nat × Nat) : claim ∈ allClaims files claimed ↔ claim ∈ spaceClaims files claimed := List.mem_insertionSort _

theorem unclaimed_iff (position : Nat) :
    Open (declaredBytes pvd) 0 (allClaims files claimed) position ↔ Unclaimed files pvd claimed position := by
  have same := mem_all_claims files claimed
  have covers := not_congr (covered_congr _ _ same position)
  have later : (∃ claim ∈ allClaims files claimed, position < claim.1) ↔ ∃ claim ∈ spaceClaims files claimed, position < claim.1 :=
    exists_congr fun claim => and_congr_left fun _ => same claim
  exact and_congr_right fun _ => and_congr covers (or_congr_right later)

theorem all_claims_sorted : (allClaims files claimed).Pairwise fun earlier later => earlier.1 ≤ later.1 := by
  have total : Std.Total claimOrder := ⟨fun one other => by unfold claimOrder; omega⟩
  have trans : IsTrans (Nat × Nat) claimOrder := ⟨fun one two three first second => by unfold claimOrder at *; omega⟩
  apply (List.pairwise_insertionSort claimOrder _).imp
  intro earlier later order
  unfold claimOrder at order
  omega

section
variable (files : List File) (pvd : Pvd) (bytes : List UInt8) (claimed : List (Nat × Nat))
variable (solid : ∀ claim ∈ claimed, claim.1 < claim.2) (extents : ∀ file ∈ files, file.offset < Bytes.maxU64)

include solid extents

theorem all_claims_solid : ∀ claim ∈ allClaims files claimed, claim.1 < claim.2 := by
  intro claim member
  rcases List.mem_append.mp ((mem_all_claims files claimed claim).mp member) with given | extent_
  · exact solid claim given
  · obtain ⟨file, listed, rfl⟩ := List.mem_map.mp extent_
    have bound := extents file listed
    have room : 0 < sector := by decide
    change file.offset < min (file.offset + max (roundUp file.size) sector) Bytes.maxU64
    omega

theorem mem_space_gaps (low high : Nat) :
    (low, high) ∈ gaps (declaredBytes pvd) 0 (allClaims files claimed) ↔ Maximal (Unclaimed files pvd claimed) low high := by
  rw [Runs.mem_gaps _ _ (all_claims_sorted files claimed) (all_claims_solid files claimed solid extents)]
  have same : Open (declaredBytes pvd) 0 (allClaims files claimed) = Unclaimed files pvd claimed :=
    funext fun position => propext (unclaimed_iff files pvd claimed position)
  rw [same]

end

theorem retained_slack {low high : Nat} (fits : bytes.length < 2 ^ 63) (order : low ≤ high) :
    retained bytes (slackRegion (low, high)) = true ↔
      high ≤ bytes.length ∧ ∃ position octet, low ≤ position ∧ position < high ∧ bytes[position]? = some octet ∧ octet ≠ 0 := by
  have stop : low + (high - low) = high := by omega
  have saturated : Bytes.saturatingAdd low (high - low) = min high Bytes.maxU64 := by rw [Bytes.saturatingAdd, stop]
  have unfolded : retained bytes (slackRegion (low, high)) =
      ((Bytes.get bytes low (min high Bytes.maxU64)).map fun octets => octets.any (· ≠ 0)).getD false := by
    rw [← saturated]
    rfl
  rw [unfolded, Bytes.get]
  have room : Bytes.maxU64 = 2 ^ 64 - 1 := rfl
  by_cases inside : high ≤ bytes.length
  · have whole : min high Bytes.maxU64 = high := by omega
    rw [whole, if_pos ⟨order, inside⟩, Option.map_some, Option.getD_some, List.any_eq_true]
    constructor
    · rintro ⟨octet, member, nonzero⟩
      obtain ⟨index, there⟩ := List.mem_iff_getElem?.mp member
      rw [List.getElem?_take] at there
      split at there
      · rw [List.getElem?_drop] at there
        exact ⟨inside, low + index, octet, by omega, by omega, there, of_decide_eq_true nonzero⟩
      · cases there
    · rintro ⟨_, position, octet, above, below, there, nonzero⟩
      refine ⟨octet, ?_, decide_eq_true nonzero⟩
      apply List.mem_iff_getElem?.mpr
      refine ⟨position - low, ?_⟩
      rw [List.getElem?_take, if_pos (by omega), List.getElem?_drop]
      rwa [show low + (position - low) = position by omega]
  · rw [if_neg (by omega)]
    constructor
    · intro impossible
      cases impossible
    · intro both
      exact absurd both.1 inside

theorem settled_of_gap (low high : Nat) (run : Maximal (Unclaimed files pvd claimed) low high) (enough : long (low, high) = true)
    (inside : high ≤ bytes.length)
    (populated : ∃ position octet, low ≤ position ∧ position < high ∧ bytes[position]? = some octet ∧ octet ≠ 0) :
    Settled files pvd bytes claimed (slackRegion (low, high)) := by
  have stop : low + (high - low) = high := by
    have := run.filled
    omega
  have least : minUnclaimedBytes ≤ high - low := of_decide_eq_true enough
  refine Or.inl ⟨rfl, ?_, ?_⟩
  · change PopulatedRun files pvd bytes claimed low (low + (high - low))
    rw [stop]
    exact ⟨inside, by have := run.filled; omega, run.within, run.before, Or.inr run.behind, populated⟩
  · change ¬ Unclaimed files pvd claimed (low + (high - low))
    rw [stop]
    exact run.behind

def keptRegions (files : List File) (pvd : Pvd) (bytes : List UInt8) (claimed : List (Nat × Nat)) : List Region :=
  (foundRegions files pvd bytes claimed).filter (retained bytes)

section
variable (files : List File) (pvd : Pvd) (bytes : List UInt8) (claimed : List (Nat × Nat))
variable (solid : ∀ claim ∈ claimed, claim.1 < claim.2) (extents : ∀ file ∈ files, file.offset < Bytes.maxU64)
variable (fits : bytes.length < 2 ^ 63)

include solid extents fits

theorem mem_kept_regions (region : Region) :
    region ∈ keptRegions files pvd bytes claimed ↔ Settled files pvd bytes claimed region := by
  rw [keptRegions, List.mem_filter, found_regions_eq, List.mem_append]
  have trailing_ : (region ∈ if trailingFrom pvd bytes < bytes.length then
      [(⟨.trailing, trailingFrom pvd bytes, bytes.length - trailingFrom pvd bytes⟩ : Region)] else []) ↔
      region.kind = .trailing ∧ region.offset = trailingFrom pvd bytes ∧ region.offset + region.length = bytes.length ∧
        0 < region.length := by
    split
    · next past =>
        rw [List.mem_singleton]
        constructor
        · rintro rfl
          dsimp only
          exact ⟨rfl, rfl, by omega, by omega⟩
        · rintro ⟨kind, offset, ends, _⟩
          obtain ⟨kind_, offset_, length⟩ := region
          dsimp only at kind offset ends
          rw [kind, offset, show length = bytes.length - trailingFrom pvd bytes by omega]
    · next past =>
        constructor
        · intro member
          cases member
        · rintro ⟨_, offset, ends, filled⟩
          omega
  constructor
  · rintro ⟨slack | trailing, kept⟩
    · obtain ⟨⟨low, high⟩, member, rfl⟩ := List.mem_map.mp slack
      obtain ⟨gap, enough⟩ := List.mem_filter.mp member
      have run := (mem_space_gaps files pvd claimed solid extents low high).mp gap
      obtain ⟨inside, populated⟩ := (retained_slack bytes fits (Nat.le_of_lt run.filled)).mp kept
      exact settled_of_gap files pvd bytes claimed low high run enough inside populated
    · exact Or.inr (trailing_.mp trailing)
  · rintro (⟨kind, run, ends⟩ | trailing)
    · obtain ⟨kind_, low, length⟩ := region
      obtain rfl : kind_ = .slack := kind
      change PopulatedRun files pvd bytes claimed low (low + length) at run
      have least := run.long
      have positive : 0 < minUnclaimedBytes := by decide
      have same : (⟨.slack, low, length⟩ : Region) = slackRegion (low, low + length) := by
        rw [slackRegion, Nat.add_sub_cancel_left]
      have maximal : Maximal (Unclaimed files pvd claimed) low (low + length) := ⟨by omega, run.unclaimed, run.before, ends⟩
      have gap := (mem_space_gaps files pvd claimed solid extents low (low + length)).mpr maximal
      have enough : long (low, low + length) = true := decide_eq_true (by dsimp only; omega)
      rw [same]
      refine ⟨Or.inl (List.mem_map_of_mem (List.mem_filter.mpr ⟨gap, enough⟩)), ?_⟩
      exact (retained_slack bytes fits (Nat.le_add_right _ _)).mpr ⟨run.inside, run.populated⟩
    · refine ⟨Or.inr (trailing_.mpr trailing), ?_⟩
      rw [retained, trailing.1]
      rfl

omit fits

theorem kept_regions_nodup : (keptRegions files pvd bytes claimed).Nodup := by
  apply List.Nodup.filter
  rw [found_regions_eq]
  have ordered := Runs.gaps_apart (declaredBytes pvd) (allClaims files claimed)
    (all_claims_solid files claimed solid extents) 0
  apply List.nodup_append.mpr
  refine ⟨?_, ?_, ?_⟩
  · apply List.pairwise_map.mpr
    apply (ordered.sublist List.filter_sublist).imp
    intro earlier later ⟨before, _⟩ same
    have offsets : earlier.1 = later.1 := congrArg Region.offset same
    omega
  · split
    · exact List.nodup_singleton _
    · exact List.nodup_nil
  · intro slack front trailing back same
    obtain ⟨gap, _, rfl⟩ := List.mem_map.mp front
    split at back
    · rw [List.mem_singleton.mp back] at same
      cases same
    · cases back

end

theorem foldl_max_le (bound : Nat) (list : List Nat) : ∀ start, list.foldl max start ≤ bound ↔
    start ≤ bound ∧ ∀ number ∈ list, number ≤ bound := by
  induction list with
  | nil =>
      intro start
      exact ⟨fun below => ⟨below, fun _ member => nomatch member⟩, And.left⟩
  | cons first rest ih =>
      intro start
      rw [List.foldl_cons, ih, List.forall_mem_cons, Nat.max_le, and_assoc]

theorem trailing_from_le (position : Nat) : trailingFrom pvd bytes ≤ position ↔
    declaredBytes pvd ≤ position ∧ ∀ range ∈ partitionClaimedRanges bytes, range.2 ≤ position := by
  rw [trailingFrom, partitionEnd, Nat.max_le, foldl_max_le]
  simp only [Nat.zero_le, true_and, List.forall_mem_map]

theorem unclaimed_regions_account_iff (files : List File) (pvd : Pvd) (bytes : List UInt8) (claimed : List (Nat × Nat))
    (solid : ∀ claim ∈ claimed, claim.1 < claim.2) (extents : ∀ file ∈ files, file.offset < Bytes.maxU64)
    (fits : bytes.length < 2 ^ 63) :
    Accounts files pvd bytes claimed (unclaimedRegions files pvd bytes claimed) ↔
      ∀ low high, PopulatedRun files pvd bytes claimed low high → Unclaimed files pvd claimed high →
        low < trailingFrom pvd bytes →
          ∃ others : List Region, others.Nodup ∧ others.length = maxUnclaimedRegions ∧
            ∀ region ∈ others, Settled files pvd bytes claimed region ∧ high - low ≤ region.length := by
  have settled := mem_kept_regions files pvd bytes claimed solid extents fits
  have nodup := kept_regions_nodup files pvd bytes claimed solid extents
  have reported : ∀ region ∈ unclaimedRegions files pvd bytes claimed, Settled files pvd bytes claimed region := fun region member =>
    (settled region).mp (Largest.mem_of_largest Region.length member)
  have covers : ∀ region length, Settled files pvd bytes claimed region → length ≤ region.length → ∀ position,
      region.offset ≤ position → position < region.offset + region.length →
      Reported (unclaimedRegions files pvd bytes claimed) position ∨ Full (unclaimedRegions files pvd bytes claimed) length := by
    intro region length holds fewer position above below
    rcases Largest.largest_or_full Region.length maxUnclaimedRegions _ region ((settled region).mpr holds) with member | full
    · exact Or.inl ⟨region, member, above, below⟩
    · exact Or.inr ⟨full.1, fun other member => Nat.le_trans fewer (full.2 other member)⟩
  have past : trailingFrom pvd bytes < bytes.length → Settled files pvd bytes claimed
      ⟨.trailing, trailingFrom pvd bytes, bytes.length - trailingFrom pvd bytes⟩ := by
    intro room
    exact Or.inr ⟨rfl, rfl, by dsimp only; omega, by dsimp only; omega⟩
  have positive : 0 < minUnclaimedBytes := by decide
  constructor
  · intro accounts low high run goesOn early
    have least := run.long
    have ends : high = bytes.length := run.behind.resolve_right (not_not.mpr goesOn)
    rcases accounts.runs low high run low (Nat.le_refl _) (by omega) with ⟨region, member, above, below⟩ | full
    · -- The first octet of such a run is in no region that is settled.
      exfalso
      rcases reported region member with ⟨_, other, stops⟩ | ⟨_, offset, _, _⟩
      · have inside : region.offset + region.length < high ∨ region.offset + region.length = high := by
          have := other.inside
          omega
        rcases inside with short | same
        · exact stops (run.unclaimed _ (by omega) short)
        · rw [same] at stops
          exact stops goesOn
      · omega
    · exact ⟨unclaimedRegions files pvd bytes claimed, Largest.largest_nodup Region.length maxUnclaimedRegions _ nodup, full.1,
        fun region member => ⟨reported region member, full.2 region member⟩⟩
  · intro condition
    refine ⟨?_, ?_, ?_⟩
    · intro low high run position above below
      by_cases goesOn : Unclaimed files pvd claimed high
      · have ends : high = bytes.length := run.behind.resolve_right (not_not.mpr goesOn)
        by_cases early : low < trailingFrom pvd bytes
        · obtain ⟨others, distinct, enough, large⟩ := condition low high run goesOn early
          refine Or.inr (Largest.largest_full Region.length distinct enough ?_)
          intro region member
          exact ⟨(settled region).mpr (large region member).1, (large region member).2⟩
        · refine covers _ (high - low) (past (by omega)) ?_ position ?_ ?_
          · dsimp only
            omega
          · dsimp only
            omega
          · dsimp only
            omega
      · have same : low + (high - low) = high := by omega
        have region : Settled files pvd bytes claimed ⟨.slack, low, high - low⟩ := by
          refine Or.inl ⟨rfl, ?_, ?_⟩
          · dsimp only
            rw [same]
            exact run
          · dsimp only
            rw [same]
            exact goesOn
        refine covers _ (high - low) region (Nat.le_refl _) position above ?_
        dsimp only
        omega
    · intro position inside declared partitions
      have from_ := (trailing_from_le pvd bytes position).mpr ⟨declared, partitions⟩
      refine covers _ _ (past (by omega)) (Nat.le_refl _) position from_ ?_
      dsimp only
      omega
    · intro region member slack position above below covered
      rcases reported region member with ⟨_, run, _⟩ | ⟨trailing, _⟩
      · exact (run.unclaimed position above below).2.1 covered
      · rw [slack] at trailing
        cases trailing

theorem unclaimed_regions_account_iff_whole :
    Accounts [] ⟨2⟩ (List.replicate 4096 1) [] (unclaimedRegions [] ⟨2⟩ (List.replicate 4096 1) []) := by
  have length : (List.replicate 4096 (1 : UInt8)).length = 4096 := List.length_replicate
  refine (unclaimed_regions_account_iff [] ⟨2⟩ (List.replicate 4096 1) [] (fun _ member => nomatch member)
    (fun _ member => nomatch member) (by omega)).mpr ?_
  intro low high run goesOn _
  have ends := run.behind.resolve_right (not_not.mpr goesOn)
  rcases goesOn.2.2 with below | ⟨claim, member, _⟩
  · have declared : declaredBytes ⟨2⟩ = 4096 := by decide
    omega
  · cases member

-- Eighteen sectors of zeros that are claimed and a payload of two sectors, in a volume that declares thirty.
def stretched : List UInt8 := List.replicate 36864 0 ++ List.replicate 4096 0x41

theorem stretched_length : stretched.length = 40960 := by
  rw [stretched, List.length_append, List.length_replicate, List.length_replicate]

theorem stretched_kept : keptRegions [] ⟨30⟩ stretched [(0, 36864)] = [] := by
  have swept : ((gaps (declaredBytes ⟨30⟩) 0 (allClaims [] [(0, 36864)])).filter long).map slackRegion =
      [slackRegion (36864, 61440)] := rfl
  have declared : declaredBytes ⟨30⟩ = 61440 := by decide
  have past : ¬ trailingFrom ⟨30⟩ stretched < stretched.length := by
    have from_ : declaredBytes ⟨30⟩ ≤ trailingFrom ⟨30⟩ stretched := Nat.le_max_left _ _
    have := stretched_length
    omega
  have dropped : ¬ retained stretched (slackRegion (36864, 61440)) = true := by
    rw [retained_slack stretched (by rw [stretched_length]; omega) (by omega), stretched_length]
    omega
  rw [keptRegions, found_regions_eq, swept, if_neg past, List.append_nil, List.filter_cons_of_neg dropped, List.filter_nil]

theorem stretched_gap_vanishes :
    ¬ Accounts [] ⟨30⟩ stretched [(0, 36864)] (unclaimedRegions [] ⟨30⟩ stretched [(0, 36864)]) := by
  intro accounts
  have none_ : unclaimedRegions [] ⟨30⟩ stretched [(0, 36864)] = [] := by
    rw [unclaimedRegions]
    change Largest.largest Region.length maxUnclaimedRegions (keptRegions [] ⟨30⟩ stretched [(0, 36864)]) = []
    rw [stretched_kept]
    rfl
  have declared : declaredBytes ⟨30⟩ = 61440 := by decide
  have claims : spaceClaims [] [(0, 36864)] = [(0, 36864)] := rfl
  have apart : ∀ position, Covered [(0, 36864)] position ↔ position < 36864 := by
    intro position
    constructor
    · rintro ⟨range, member, covers⟩
      rw [List.mem_singleton.mp member] at covers
      exact covers.2
    · intro below
      exact ⟨(0, 36864), List.mem_singleton_self _, Nat.zero_le _, below⟩
  have run : PopulatedRun [] ⟨30⟩ stretched [(0, 36864)] 36864 40960 := by
    refine ⟨?_, ?_, ?_, ?_, ?_, ?_⟩
    · rw [stretched_length]
    · decide
    · intro position above below
      refine ⟨Nat.zero_le _, ?_, Or.inl (by omega)⟩
      rw [claims, apart]
      omega
    · right
      rintro ⟨_, uncovered, _⟩
      rw [claims, apart] at uncovered
      exact uncovered (by omega)
    · left
      rw [stretched_length]
    · refine ⟨36864, 0x41, Nat.le_refl _, by omega, ?_, by decide⟩
      rw [stretched, List.getElem?_append_right (by rw [List.length_replicate]), List.length_replicate,
        List.getElem?_replicate_of_lt (by omega)]
  rw [none_] at accounts
  rcases accounts.runs 36864 40960 run 36864 (Nat.le_refl _) (by omega) with ⟨region, member, _⟩ | full
  · cases member
  · cases full.1

end Filefacts.Iso
