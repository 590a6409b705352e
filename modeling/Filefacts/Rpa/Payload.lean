import Filefacts.Bytes
import Filefacts.Lib.Covered

set_option autoImplicit false

namespace Filefacts.Rpa

open Bytes (checkedAdd)

abbrev Text := List UInt8

def maxNodes : Nat := 1000000

def maxArchiveMembers : Nat := 65536

def maxMemberPathBytes : Nat := 4 * 1024

structure Header where
  version : Nat
  indexOffset : Nat
  key : Nat
  headerSize : Nat
  inside : headerSize ≤ indexOffset
  small : indexOffset < 2 ^ 64

structure Chunk where
  offset : Nat
  length : Nat
  pfx : List UInt8
deriving DecidableEq

structure Member where
  path : Text
  chunks : List Chunk
  size : Nat
deriving DecidableEq

-- A segment and an entry of the pickled dictionary, the numbers not yet under the key.
structure RawChunk where
  offset : Nat
  length : Nat
  pfx : List UInt8
deriving DecidableEq

abbrev RawEntry := Text × List RawChunk

structure Index where
  members : List Member
  duplicateKeyAssignmentCount : Nat
  totalChunks : Nat
  prefixBudget : Nat

def charged (budget : Nat) (raw : RawChunk) : Except String Nat :=
  if raw.pfx.length ≤ budget then .ok (budget - raw.pfx.length) else .error "chunk prefixes exceed the index"

def readChunk (header : Header) (size budget : Nat) (raw : RawChunk) : Except String (Chunk × Nat × Nat) := do
  let budget ← charged budget raw
  let offset := raw.offset ^^^ header.key
  let length := raw.length ^^^ header.key
  match checkedAdd offset length with
  | none => .error "chunk extent overflow"
  | some stop =>
      if offset < header.headerSize ∨ header.indexOffset < stop then .error "chunk extent outside payload region"
      else
        match (checkedAdd size length).bind fun size => checkedAdd size raw.pfx.length with
        | none => .error "member size overflow"
        | some size => .ok (⟨offset, length, raw.pfx⟩, size, budget)

def readChunks (header : Header) : Nat → Nat → List RawChunk → Except String (List Chunk × Nat × Nat)
  | size, budget, [] => .ok ([], size, budget)
  | size, budget, raw :: rest => do
      let (chunk, size, budget) ← readChunk header size budget raw
      let (chunks, size, budget) ← readChunks header size budget rest
      .ok (chunk :: chunks, size, budget)

-- The last value assigned to a key is kept, in the place of the first.
def assign (index : Index) (member : Member) : Index :=
  match index.members.findIdx? fun prior => prior.path == member.path with
  | some prior =>
      { index with
        members := index.members.set prior member
        duplicateKeyAssignmentCount := index.duplicateKeyAssignmentCount + 1 }
  | none => { index with members := index.members ++ [member] }

def readEntry (header : Header) (index : Index) (entry : RawEntry) : Except String Index := do
  let (path, items) := entry
  if path = [] ∨ maxMemberPathBytes < path.length ∨ 0 ∈ path then .error "invalid member path"
  else if maxNodes < index.totalChunks + items.length then .error "chunk limit exceeded"
  else
    let (chunks, size, budget) ← readChunks header 0 index.prefixBudget items
    .ok (assign { index with totalChunks := index.totalChunks + items.length, prefixBudget := budget } ⟨path, chunks, size⟩)

-- `parse_index` from the entries of the dictionary on, over an index of that many octets.
def parseIndex (header : Header) (indexLength : Nat) (entries : List RawEntry) : Except String Index :=
  if maxArchiveMembers < entries.length then .error "member limit exceeded"
  else entries.foldlM (readEntry header) ⟨[], 0, 0, indexLength⟩

def addU64 (a b : Nat) : Nat := (a + b) % 2 ^ 64

structure Accounting where
  memberCount : Nat
  chunkCount : Nat
  multiChunkMemberCount : Nat
  prefixMemberCount : Nat
  prefixBytes : Nat
  logicalMemberBytes : Nat
  physicalReferencedBytes : Nat
  physicalCoveredBytes : Nat
  overlappingReferenceBytes : Nat
  payloadRegionBytes : Nat
  unreferencedPayloadBytes : Nat
  nonMonotonicChunkCount : Nat
deriving DecidableEq

structure Sums where
  chunkCount : Nat
  prefixBytes : Nat
  referencedBytes : Nat
  nonMonotonicCount : Nat
  lastOffset : Nat
  ranges : List (Nat × Nat)

def chunkStep (sums : Sums) (chunk : Chunk) : Sums :=
  { chunkCount := addU64 sums.chunkCount 1
    prefixBytes := addU64 sums.prefixBytes chunk.pfx.length
    referencedBytes := addU64 sums.referencedBytes chunk.length
    nonMonotonicCount := if chunk.offset < sums.lastOffset then addU64 sums.nonMonotonicCount 1 else sums.nonMonotonicCount
    lastOffset := chunk.offset
    ranges := if 0 < chunk.length then sums.ranges ++ [(chunk.offset, chunk.offset + chunk.length)] else sums.ranges }

def rangeOrder (one other : Nat × Nat) : Prop := one.1 < other.1 ∨ one.1 = other.1 ∧ one.2 ≤ other.2

instance (one other : Nat × Nat) : Decidable (rangeOrder one other) := inferInstanceAs (Decidable (_ ∨ _ ∧ _))

def coverStep (state : Nat × Nat) (range : Nat × Nat) : Nat × Nat :=
  if state.2 < range.2 then (state.1 + (range.2 - max range.1 state.2), range.2) else state

def coveredBytes (header : Header) (ranges : List (Nat × Nat)) : Nat :=
  ((ranges.insertionSort rangeOrder).foldl coverStep (0, header.headerSize)).1

def prefixOf (member : Member) : Nat := (member.chunks.map fun chunk => chunk.pfx.length).foldl addU64 0

def account (header : Header) (members : List Member) : Accounting :=
  let sums := (members.flatMap Member.chunks).foldl chunkStep ⟨0, 0, 0, 0, 0, []⟩
  let covered := coveredBytes header sums.ranges
  let payload := header.indexOffset - header.headerSize
  { memberCount := members.length
    chunkCount := sums.chunkCount
    multiChunkMemberCount := members.countP fun member => decide (1 < member.chunks.length)
    prefixMemberCount := members.countP fun member => decide (0 < prefixOf member)
    prefixBytes := sums.prefixBytes
    logicalMemberBytes := (members.map Member.size).foldl addU64 0
    physicalReferencedBytes := sums.referencedBytes
    physicalCoveredBytes := covered
    overlappingReferenceBytes := sums.referencedBytes - covered
    payloadRegionBytes := payload
    unreferencedPayloadBytes := payload - covered
    nonMonotonicChunkCount := sums.nonMonotonicCount }

def Inside (header : Header) (chunk : Chunk) : Prop :=
  header.headerSize ≤ chunk.offset ∧ chunk.offset + chunk.length ≤ header.indexOffset

def AllInside (header : Header) (members : List Member) : Prop := ∀ member ∈ members, ∀ chunk ∈ member.chunks, Inside header chunk

def rangeOf (chunk : Chunk) : Nat × Nat := (chunk.offset, chunk.offset + chunk.length)

def Chunk.filled (chunk : Chunk) : Bool := decide (0 < chunk.length)

def referenced (members : List Member) : List (Nat × Nat) := (members.flatMap Member.chunks).map rangeOf

def clip (header : Header) (range : Nat × Nat) : Nat × Nat := (max range.1 header.headerSize, min range.2 header.indexOffset)

structure Exact (header : Header) (members : List Member) (accounting : Accounting) : Prop where
  covered : accounting.physicalCoveredBytes = (Covered.covered ((referenced members).map (clip header))).card
  region : accounting.physicalCoveredBytes + accounting.unreferencedPayloadBytes = header.indexOffset - header.headerSize
  overlap : accounting.overlappingReferenceBytes + accounting.physicalCoveredBytes = Covered.total ((referenced members).map (clip header))

variable (header : Header) (index : Index)

theorem read_chunk_ok {size budget : Nat} {raw : RawChunk} {chunk : Chunk} {after left : Nat}
    (read : readChunk header size budget raw = .ok (chunk, after, left)) : Inside header chunk := by
  unfold readChunk charged at read
  by_cases afford : raw.pfx.length ≤ budget
  · rw [if_pos afford] at read
    dsimp only [bind, Except.bind] at read
    split at read
    · cases read
    · rename_i stop added
      obtain ⟨sum, _⟩ := (Bytes.checked_add_some _ _ _).mp added
      split at read
      · cases read
      · rename_i within
        split at read
        · cases read
        · obtain ⟨rfl, _⟩ := Prod.mk.inj (Except.ok.inj read)
          rw [not_or, Nat.not_lt, Nat.not_lt] at within
          exact ⟨within.1, sum ▸ within.2⟩
  · rw [if_neg afford] at read
    cases read

theorem read_chunks_ok (items : List RawChunk) : ∀ (size budget : Nat) (chunks : List Chunk) (after left : Nat),
    readChunks header size budget items = .ok (chunks, after, left) → ∀ chunk ∈ chunks, Inside header chunk := by
  induction items with
  | nil =>
      intro size budget chunks after left read
      rw [readChunks, Except.ok.injEq, Prod.mk.injEq] at read
      rw [← read.1]
      exact fun chunk member => absurd member List.not_mem_nil
  | cons raw rest ih =>
      intro size budget chunks after left read
      rw [readChunks] at read
      cases first : readChunk header size budget raw with
      | error problem => rw [first] at read; cases read
      | ok done =>
          obtain ⟨chunk, grown, spent⟩ := done
          rw [first] at read
          dsimp only [bind, Except.bind] at read
          cases others : readChunks header grown spent rest with
          | error problem => rw [others] at read; cases read
          | ok later =>
              obtain ⟨tail, last, unspent⟩ := later
              rw [others] at read
              obtain ⟨rfl, _⟩ := Prod.mk.inj (Except.ok.inj read)
              exact List.forall_mem_cons.mpr ⟨read_chunk_ok header first, ih grown spent tail last unspent others⟩

variable (member : Member) (ranges : List (Nat × Nat))

theorem assign_inside (inside : AllInside header index.members)
    (own : ∀ chunk ∈ member.chunks, Inside header chunk) : AllInside header (assign index member).members := by
  rw [assign]
  split
  · intro other listed
    rcases List.mem_or_eq_of_mem_set listed with earlier | rfl
    · exact inside other earlier
    · exact own
  · intro other listed
    rcases List.mem_append.mp listed with earlier | last
    · exact inside other earlier
    · rw [List.mem_singleton.mp last]
      exact own

theorem read_entry_inside (entry : RawEntry) (after : Index) (inside : AllInside header index.members)
    (read : readEntry header index entry = .ok after) : AllInside header after.members := by
  obtain ⟨path, items⟩ := entry
  rw [readEntry] at read
  split at read
  · cases read
  · split at read
    · cases read
    · cases found : readChunks header 0 index.prefixBudget items with
      | error problem => rw [found] at read; cases read
      | ok done =>
          obtain ⟨chunks, size, budget⟩ := done
          rw [found] at read
          rw [← Except.ok.inj read]
          exact assign_inside header _ _ inside (read_chunks_ok header items 0 index.prefixBudget chunks size budget found)

theorem parse_index_inside {indexLength : Nat} {entries : List RawEntry} {index : Index}
    (parsed : parseIndex header indexLength entries = .ok index) : AllInside header index.members := by
  have run : ∀ (entries : List RawEntry) (start index : Index), AllInside header start.members →
      entries.foldlM (readEntry header) start = .ok index → AllInside header index.members := by
    intro entries
    induction entries with
    | nil => intro start index inside read; rwa [← Except.ok.inj read]
    | cons entry rest ih =>
        intro start index inside read
        rw [List.foldlM_cons] at read
        cases first : readEntry header start entry with
        | error problem => rw [first] at read; cases read
        | ok after =>
            rw [first] at read
            exact ih after index (read_entry_inside header start entry after inside first) read
  rw [parseIndex] at parsed
  split at parsed
  · cases parsed
  · exact run entries _ index (fun member listed => absurd listed List.not_mem_nil) parsed

theorem chunk_sums (chunks : List Chunk) : ∀ sums : Sums, sums.referencedBytes < 2 ^ 64 →
    (chunks.foldl chunkStep sums).referencedBytes = (sums.referencedBytes + (chunks.map Chunk.length).sum) % 2 ^ 64 ∧
      (chunks.foldl chunkStep sums).ranges = sums.ranges ++ (chunks.filter Chunk.filled).map rangeOf := by
  induction chunks with
  | nil => exact fun sums small => ⟨(Nat.mod_eq_of_lt small).symm, (List.append_nil _).symm⟩
  | cons chunk rest ih =>
      intro sums small
      obtain ⟨referenced, ranges⟩ := ih (chunkStep sums chunk) (Nat.mod_lt _ (Nat.two_pow_pos 64))
      rw [List.foldl_cons, referenced, ranges, List.map_cons, List.sum_cons]
      constructor
      · dsimp only [chunkStep, addU64]
        rw [Nat.mod_add_mod, Nat.add_assoc]
      · dsimp only [chunkStep]
        by_cases filled : 0 < chunk.length
        · rw [if_pos filled, List.filter_cons_of_pos (show chunk.filled = true from decide_eq_true filled), List.append_assoc]
          rfl
        · rw [if_neg filled, List.filter_cons_of_neg (by rwa [Chunk.filled, decide_eq_true_eq])]

theorem cover_merged : ∀ state : Nat × Nat, (ranges.foldl coverStep state).1 = state.1 + Covered.merged state.2 ranges := by
  induction ranges with
  | nil => exact fun _ => rfl
  | cons range rest ih =>
      intro state
      rw [List.foldl_cons, ih, Covered.merged, coverStep]
      by_cases further : state.2 < range.2
      · rw [if_pos further, Nat.max_eq_right (Nat.le_of_lt further)]
        exact Nat.add_assoc _ _ _
      · rw [if_neg further, Nat.max_eq_left (Nat.not_lt.mp further)]
        omega

theorem covered_bytes_card (inside : ∀ range ∈ ranges, header.headerSize ≤ range.1) :
    coveredBytes header ranges = (Covered.covered ranges).card := by
  have total : Std.Total rangeOrder := ⟨fun one other => by unfold rangeOrder; omega⟩
  have trans : IsTrans (Nat × Nat) rangeOrder := ⟨fun one two three first second => by unfold rangeOrder at *; omega⟩
  have sorted : (ranges.insertionSort rangeOrder).Pairwise fun one other => one.1 ≤ other.1 :=
    (List.pairwise_insertionSort rangeOrder ranges).imp fun order => by
      rcases order with before | level
      · exact Nat.le_of_lt before
      · exact Nat.le_of_eq level.1
  rw [coveredBytes, cover_merged, Nat.zero_add, Covered.merged_card _ sorted]
  congr 1
  ext i
  rw [Finset.mem_filter, Covered.mem_covered, Covered.mem_covered]
  simp only [List.mem_insertionSort]
  constructor
  · exact And.left
  · rintro ⟨range, member, start, stop⟩
    exact ⟨⟨range, member, start, stop⟩, (inside range member).trans start⟩

section Accounted

variable (header : Header) (members : List Member)

theorem clip_inside (inside : AllInside header members) : (referenced members).map (clip header) = referenced members := by
  rw [referenced, List.map_map]
  refine List.map_congr_left fun chunk listed => ?_
  obtain ⟨member, there, own⟩ := List.mem_flatMap.mp listed
  obtain ⟨start, stop⟩ := inside member there chunk own
  exact Prod.ext (Nat.max_eq_left start) (Nat.min_eq_left stop)

variable (chunks : List Chunk)

theorem covered_filled :
    Covered.covered ((chunks.filter Chunk.filled).map rangeOf) = Covered.covered (chunks.map rangeOf) := by
  ext i
  rw [Covered.mem_covered, Covered.mem_covered]
  constructor
  · rintro ⟨range, listed, covers⟩
    obtain ⟨chunk, kept, rfl⟩ := List.mem_map.mp listed
    exact ⟨_, List.mem_map_of_mem (List.mem_filter.mp kept).1, covers⟩
  · rintro ⟨range, listed, start, stop⟩
    obtain ⟨chunk, kept, rfl⟩ := List.mem_map.mp listed
    have filled : chunk.filled = true := by
      rw [rangeOf] at start stop
      exact decide_eq_true (by omega)
    exact ⟨_, List.mem_map_of_mem (List.mem_filter.mpr ⟨kept, filled⟩), start, stop⟩

theorem total_lengths : Covered.total (chunks.map rangeOf) = (chunks.map Chunk.length).sum := by
  rw [Covered.total, List.map_map]
  congr 1
  refine List.map_congr_left fun chunk _ => ?_
  exact Nat.add_sub_cancel_left _ _

theorem account_covered (inside : AllInside header members) :
    (account header members).physicalCoveredBytes = (Covered.covered (referenced members)).card := by
  have sums := (chunk_sums (members.flatMap Member.chunks) ⟨0, 0, 0, 0, 0, []⟩ (Nat.two_pow_pos 64)).2
  dsimp only [account]
  rw [sums, List.nil_append, covered_bytes_card, covered_filled, referenced]
  intro range listed
  obtain ⟨chunk, kept, rfl⟩ := List.mem_map.mp listed
  obtain ⟨member, there, own⟩ := List.mem_flatMap.mp (List.mem_filter.mp kept).1
  exact (inside member there chunk own).1

theorem account_overlap : (account header members).overlappingReferenceBytes =
    Covered.total (referenced members) % 2 ^ 64 - (account header members).physicalCoveredBytes := by
  have sums := (chunk_sums (members.flatMap Member.chunks) ⟨0, 0, 0, 0, 0, []⟩ (Nat.two_pow_pos 64)).1
  rw [referenced, total_lengths, ← Nat.zero_add (List.sum _), ← sums]
  rfl

theorem covered_region (inside : AllInside header members) :
    (Covered.covered (referenced members)).card ≤ header.indexOffset - header.headerSize := by
  have within : Covered.covered (referenced members) ⊆ Finset.Ico header.headerSize header.indexOffset := by
    intro i member
    obtain ⟨range, listed, above, below⟩ := (Covered.mem_covered _ i).mp member
    obtain ⟨chunk, kept, rfl⟩ := List.mem_map.mp listed
    obtain ⟨owner, there, own⟩ := List.mem_flatMap.mp kept
    obtain ⟨start, stop⟩ := inside owner there chunk own
    exact Finset.mem_Ico.mpr ⟨start.trans above, below.trans_le stop⟩
  have most := Finset.card_le_card within
  rwa [Nat.card_Ico] at most

theorem account_region (inside : AllInside header members) :
    (account header members).physicalCoveredBytes + (account header members).unreferencedPayloadBytes =
      header.indexOffset - header.headerSize := by
  have most := covered_region header members inside
  have same := account_covered header members inside
  have left : (account header members).unreferencedPayloadBytes =
      header.indexOffset - header.headerSize - (account header members).physicalCoveredBytes := rfl
  omega

theorem wrapped_inexact (inside : AllInside header members) (large : 2 ^ 64 ≤ Covered.total (referenced members)) :
    ¬ Exact header members (account header members) := by
  intro exact_
  have overlap := exact_.overlap
  have small := header.small
  have most := covered_region header members inside
  rw [clip_inside header members inside, account_overlap, account_covered header members inside] at overlap
  omega

end Accounted

theorem account_exact_iff (header : Header) (indexLength : Nat) (entries : List RawEntry) (index : Index)
    (parsed : parseIndex header indexLength entries = .ok index) :
    Exact header index.members (account header index.members) ↔ Covered.total (referenced index.members) < 2 ^ 64 := by
  have inside := parse_index_inside header parsed
  constructor
  · intro exact_
    by_contra large
    exact wrapped_inexact header index.members inside (Nat.not_lt.mp large) exact_
  · intro small
    have covered := account_covered header index.members inside
    refine ⟨?_, account_region header index.members inside, ?_⟩
    · rw [clip_inside header index.members inside, covered]
    · have less := Covered.card_le_total (referenced index.members)
      rw [clip_inside header index.members inside, account_overlap, Nat.mod_eq_of_lt small, covered]
      exact Nat.sub_add_cancel less

def smallHeader : Header := ⟨2, 100, 0, 25, by decide, by decide⟩

def smallEntries : List RawEntry := [([97], [⟨30, 10, []⟩, ⟨35, 10, [1]⟩]), ([98], [⟨25, 0, []⟩])]

def smallIndex : Index := ⟨[⟨[97], [⟨30, 10, []⟩, ⟨35, 10, [1]⟩], 21⟩, ⟨[98], [⟨25, 0, []⟩], 0⟩], 0, 3, 63⟩

theorem account_exact_small : parseIndex smallHeader 64 smallEntries = .ok smallIndex ∧
    (Exact smallHeader smallIndex.members (account smallHeader smallIndex.members) ↔
      Covered.total (referenced smallIndex.members) < 2 ^ 64) :=
  ⟨rfl, account_exact_iff smallHeader 64 smallEntries smallIndex rfl⟩

def wideHeader : Header := ⟨2, 20000000000025, 0, 25, by decide, by decide⟩

def wideCount : Nat := 500000

def wideEntry (name : UInt8) : RawEntry := ([name], List.replicate wideCount ⟨25, 20000000000000, []⟩)

def wideMember (name : UInt8) : Member := ⟨[name], List.replicate wideCount ⟨25, 20000000000000, []⟩, wideCount * 20000000000000⟩

theorem read_chunk_plain (size budget offset length : Nat) (key : header.key = 0) (above : header.headerSize ≤ offset)
    (below : offset + length ≤ header.indexOffset) (fits : size + length < 2 ^ 64) :
    readChunk header size budget ⟨offset, length, []⟩ = .ok (⟨offset, length, []⟩, size + length, budget) := by
  have small := header.small
  have free : charged budget ⟨offset, length, []⟩ = .ok budget := if_pos (Nat.zero_le budget)
  have place : checkedAdd offset length = some (offset + length) := if_pos (by omega)
  have sum : checkedAdd size length = some (size + length) := if_pos fits
  have same : checkedAdd (size + length) 0 = some (size + length) := if_pos fits
  have inside : ¬ (offset < header.headerSize ∨ header.indexOffset < offset + length) := by omega
  rw [readChunk, free]
  simp only [bind, Except.bind, key, Nat.xor_zero, place, if_neg inside, sum, Option.bind_some, List.length_nil, same]

theorem read_replicated (offset length : Nat) (key : header.key = 0) (above : header.headerSize ≤ offset)
    (below : offset + length ≤ header.indexOffset) (count : Nat) : ∀ size budget, size + count * length < 2 ^ 64 →
    readChunks header size budget (List.replicate count ⟨offset, length, []⟩) =
      .ok (List.replicate count ⟨offset, length, []⟩, size + count * length, budget) := by
  induction count with
  | zero => intro size budget _; rw [Nat.zero_mul]; rfl
  | succ count ih =>
      intro size budget fits
      rw [Nat.succ_mul] at fits
      have first := read_chunk_plain header size budget offset length key above below (by omega)
      have rest := ih (size + length) budget (by omega)
      rw [List.replicate_succ, List.replicate_succ, readChunks, first]
      simp only [bind, Except.bind, rest, Nat.succ_mul, Nat.add_assoc, Nat.add_comm length]

theorem assign_new (new : ∀ prior ∈ index.members, prior.path ≠ member.path) :
    assign index member = { index with members := index.members ++ [member] } := by
  have absent : index.members.findIdx? (fun prior => prior.path == member.path) = none :=
    List.findIdx?_eq_none_iff.mpr fun prior listed => beq_eq_false_iff_ne.mpr (new prior listed)
  rw [assign, absent]

theorem read_wide_entry (name : UInt8) (plain : 0 ∉ [name]) (room : index.totalChunks + wideCount ≤ maxNodes)
    (new : ∀ prior ∈ index.members, prior.path ≠ [name]) :
    readEntry wideHeader index (wideEntry name) = .ok ⟨index.members ++ [wideMember name], index.duplicateKeyAssignmentCount,
      index.totalChunks + wideCount, index.prefixBudget⟩ := by
  have path : ¬ ([name] = [] ∨ maxMemberPathBytes < [name].length ∨ 0 ∈ [name]) := by
    rintro (none_ | long | null)
    · cases none_
    · exact Nat.not_lt.mpr (show 1 ≤ maxMemberPathBytes by decide) long
    · exact plain null
  have chunks := read_replicated wideHeader 25 20000000000000 rfl (by decide) (by decide) wideCount 0 index.prefixBudget (by decide)
  rw [Nat.zero_add] at chunks
  have added := assign_new { index with totalChunks := index.totalChunks + wideCount } (wideMember name) new
  rw [wideEntry, readEntry, if_neg path, List.length_replicate, if_neg (Nat.not_lt.mpr room), chunks]
  exact congrArg Except.ok added

theorem parse_two (indexLength : Nat) (one other : RawEntry) (first second : Index)
    (readOne : readEntry header ⟨[], 0, 0, indexLength⟩ one = .ok first) (readOther : readEntry header first other = .ok second) :
    parseIndex header indexLength [one, other] = .ok second := by
  have few : ¬ maxArchiveMembers < [one, other].length := Nat.not_lt.mpr (show 2 ≤ maxArchiveMembers by decide)
  rw [parseIndex, if_neg few, List.foldlM_cons, readOne]
  change (readEntry header first other >>= fun index => [].foldlM (readEntry header) index) = _
  rw [readOther]
  rfl

theorem wide_references_wrap : ∃ index, parseIndex wideHeader 1000000 [wideEntry 97, wideEntry 98] = .ok index ∧
    ¬ Exact wideHeader index.members (account wideHeader index.members) := by
  have first := read_wide_entry ⟨[], 0, 0, 1000000⟩ 97 (by decide) (by decide) fun prior listed => absurd listed List.not_mem_nil
  have differ : ∀ prior ∈ [] ++ [wideMember 97], prior.path ≠ [98] := by
    intro prior listed
    rw [List.mem_singleton.mp listed, wideMember]
    exact (by decide : ([97] : Text) ≠ [98])
  have second := read_wide_entry ⟨[] ++ [wideMember 97], 0, 0 + wideCount, 1000000⟩ 98 (by decide) (by decide) differ
  have parsed := parse_two wideHeader 1000000 _ _ _ _ first second
  refine ⟨_, parsed, wrapped_inexact wideHeader _ (parse_index_inside _ parsed) ?_⟩
  have lengths : ∀ name, ((wideMember name).chunks.map Chunk.length).sum = wideCount * 20000000000000 := by
    intro name
    rw [wideMember, List.map_replicate, List.sum_replicate_nat]
  rw [referenced, total_lengths, List.nil_append, List.flatMap_append, List.flatMap_singleton, List.flatMap_singleton, List.map_append,
    List.sum_append, lengths, lengths]
  exact (by decide : 2 ^ 64 ≤ wideCount * 20000000000000 + wideCount * 20000000000000)

end Filefacts.Rpa
