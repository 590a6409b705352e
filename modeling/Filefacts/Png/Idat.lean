import Filefacts.Media.Carrier

set_option autoImplicit false

namespace Filefacts.Png

open Media (Claim Covers)

def maxIdatAnalysisBytes : Nat := 64 * 1024 * 1024

def maxIdatDecodeBytes : Nat := 32 * 1024 * 1024

def maxChunks : Nat := 2 ^ 20

-- A chunk of the file: a header of eight octets, the body, and a CRC of four.
structure IdatExtent where
  chunkStart : Nat
  bodyStart : Nat
  bodyEnd : Nat
  chunkEnd : Nat
  header : bodyStart = chunkStart + 8
  body : bodyStart ≤ bodyEnd
  crc : chunkEnd = bodyEnd + 4

def IdatExtent.bodyLen (extent : IdatExtent) : Nat := extent.bodyEnd - extent.bodyStart

def chunkAt (bytes : List UInt8) (i : Nat) : Option (List UInt8 × IdatExtent) :=
  match Bytes.u32be bytes i, Bytes.arrayAt bytes 4 (i + 4) with
  | some length, some ctype =>
      if i + 8 + length + 4 ≤ bytes.length then
        some (ctype, ⟨i, i + 8, i + 8 + length, i + 8 + length + 4, rfl, Nat.le_add_right _ _, rfl⟩)
      else none
  | _, _ => none

-- The IDAT chunks of the walk, with how many chunks it may still read.
def idatFrom (bytes : List UInt8) : Nat → Nat → List IdatExtent
  | 0, _ => []
  | budget + 1, i =>
      match chunkAt bytes i with
      | none => []
      | some (ctype, extent) =>
          if ctype = [73, 68, 65, 84] then extent :: idatFrom bytes budget extent.chunkEnd else idatFrom bytes budget extent.chunkEnd

def idatExtents (bytes : List UInt8) : List IdatExtent := idatFrom bytes maxChunks 8

section Stream

-- What a bounded inflation reports: how much it produced and how much it read.
variable (inflate : List UInt8 → Option (Nat × Nat)) (bytes : List UInt8)

def idatInput (extents : List IdatExtent) : Option (List UInt8) :=
  (extents.mapM fun extent => Bytes.get bytes extent.bodyStart extent.bodyEnd).map List.flatten

def totalBody (extents : List IdatExtent) : Nat := (extents.map IdatExtent.bodyLen).sum

def idatZlibLen (extents : List IdatExtent) : Option Nat := do
  let total := totalBody extents
  if 2 ^ 64 ≤ total ∨ total = 0 ∨ maxIdatAnalysisBytes < total then none
  else
    let (copied, consumed) ← inflate (← idatInput bytes extents)
    if maxIdatDecodeBytes < copied ∨ consumed = 0 ∨ total < consumed then none else some consumed

def usedClaims (consumed : Nat) : Nat → List IdatExtent → List Claim
  | _, [] => []
  | logicalStart, extent :: rest =>
      let usedHere := min (consumed - logicalStart) extent.bodyLen
      ⟨extent.chunkStart, extent.bodyStart + usedHere, false⟩ :: ⟨extent.bodyEnd, extent.chunkEnd, false⟩ ::
        usedClaims consumed (logicalStart + extent.bodyLen) rest

def wholeClaims (extents : List IdatExtent) : List Claim := extents.map fun extent => ⟨extent.chunkStart, extent.chunkEnd, false⟩

def claimIdatStream (extents : List IdatExtent) (claims : List Claim) : List Claim × Option Nat :=
  match idatZlibLen inflate bytes extents with
  | none => (claims ++ wholeClaims extents, none)
  | some consumed => (claims ++ usedClaims consumed 0 extents, some consumed)

end Stream

def stream (extents : List IdatExtent) : List Nat := extents.flatMap fun extent => List.range' extent.bodyStart extent.bodyLen

def InChunk (extent : IdatExtent) (position : Nat) : Prop := extent.chunkStart ≤ position ∧ position < extent.chunkEnd

def InChunks (extents : List IdatExtent) (position : Nat) : Prop := ∃ extent ∈ extents, InChunk extent position

def Claimed (claims : List Claim) (position : Nat) : Prop := ∃ claim ∈ claims, Covers claim position

def Apart (extents : List IdatExtent) : Prop := extents.Pairwise fun one other => one.chunkEnd ≤ other.chunkStart

variable (bytes : List UInt8) (extent : IdatExtent)

theorem chunk_at_start (i : Nat) (ctype : List UInt8) (extent : IdatExtent)
    (found : chunkAt bytes i = some (ctype, extent)) : extent.chunkStart = i := by
  rw [chunkAt] at found
  split at found
  · obtain ⟨_, same⟩ := Option.ite_none_right_eq_some.mp found
    obtain ⟨_, rfl⟩ := Prod.mk.inj (Option.some.inj same)
    rfl
  · cases found

theorem chunk_grows : extent.chunkStart ≤ extent.chunkEnd := by
  have header := extent.header
  have body := extent.body
  have crc := extent.crc
  omega

theorem idat_from_apart (budget : Nat) : ∀ i,
    (∀ extent ∈ idatFrom bytes budget i, i ≤ extent.chunkStart) ∧ Apart (idatFrom bytes budget i) := by
  induction budget with
  | zero => exact fun i => ⟨fun extent member => absurd member List.not_mem_nil, List.Pairwise.nil⟩
  | succ budget ih =>
      intro i
      rw [idatFrom]
      cases found : chunkAt bytes i with
      | none => exact ⟨fun extent member => absurd member List.not_mem_nil, List.Pairwise.nil⟩
      | some chunk =>
          obtain ⟨ctype, extent⟩ := chunk
          have start := chunk_at_start bytes i ctype extent found
          have grows := chunk_grows extent
          obtain ⟨later, apart⟩ := ih extent.chunkEnd
          have behind : ∀ other ∈ idatFrom bytes budget extent.chunkEnd, i ≤ other.chunkStart :=
            fun other member => start ▸ Nat.le_trans grows (later other member)
          dsimp only
          by_cases idat : ctype = [73, 68, 65, 84]
          · rw [if_pos idat]
            exact ⟨List.forall_mem_cons.mpr ⟨Nat.le_of_eq start.symm, behind⟩, List.pairwise_cons.mpr ⟨later, apart⟩⟩
          · rw [if_neg idat]
            exact ⟨behind, apart⟩

theorem idat_extents_apart : Apart (idatExtents bytes) := (idat_from_apart bytes maxChunks 8).2

variable (rest extents : List IdatExtent) (position used : Nat)

theorem stream_cons : stream (extent :: rest) = List.range' extent.bodyStart extent.bodyLen ++ stream rest := List.flatMap_cons

theorem stream_in_chunks (member : position ∈ stream extents) : InChunks extents position := by
  obtain ⟨extent, listed, inside⟩ := List.mem_flatMap.mp member
  obtain ⟨above, below⟩ := List.mem_range'_1.mp inside
  refine ⟨extent, listed, ?_, ?_⟩
  · have header := extent.header
    omega
  · have body := extent.body
    have crc := extent.crc
    rw [IdatExtent.bodyLen] at below
    omega

theorem in_chunks_cons : InChunks (extent :: rest) position ↔ InChunk extent position ∨ InChunks rest position :=
  List.exists_mem_cons_iff _ extent rest

theorem mem_drop_body (position : Nat) :
    position ∈ (List.range' extent.bodyStart extent.bodyLen).drop used ↔ extent.bodyStart + used ≤ position ∧ position < extent.bodyEnd := by
  rw [List.drop_range', List.mem_range'_1, IdatExtent.bodyLen]
  omega

theorem chunk_claims (position : Nat) :
    (Covers ⟨extent.chunkStart, extent.bodyStart + min used extent.bodyLen, false⟩ position ∨
      Covers ⟨extent.bodyEnd, extent.chunkEnd, false⟩ position) ↔
        InChunk extent position ∧ position ∉ (List.range' extent.bodyStart extent.bodyLen).drop used := by
  have header := extent.header
  have body := extent.body
  have crc := extent.crc
  rw [mem_drop_body, Covers, Covers, InChunk, IdatExtent.bodyLen]
  dsimp only
  omega

theorem used_claims_exact (consumed : Nat) (extents : List IdatExtent) (apart : Apart extents) (position : Nat) : ∀ logicalStart,
    Claimed (usedClaims consumed logicalStart extents) position ↔
      InChunks extents position ∧ position ∉ (stream extents).drop (consumed - logicalStart) := by
  induction extents with
  | nil => exact fun _ => iff_of_false (fun ⟨_, member, _⟩ => List.not_mem_nil member) fun ⟨⟨_, member, _⟩, _⟩ => List.not_mem_nil member
  | cons extent rest ih =>
      intro logicalStart
      obtain ⟨first, others⟩ := List.pairwise_cons.mp apart
      have exclusive : InChunk extent position → ¬ InChunks rest position := by
        rintro ⟨_, below⟩ ⟨other, member, above, _⟩
        have order := first other member
        omega
      have here := chunk_claims extent (consumed - logicalStart) position
      have later := ih others (logicalStart + extent.bodyLen)
      rw [Nat.sub_add_eq] at later
      have outside : ¬ InChunk extent position →
          position ∉ (List.range' extent.bodyStart extent.bodyLen).drop (consumed - logicalStart) := by
        intro out member
        have header := extent.header
        have crc := extent.crc
        obtain ⟨above, below⟩ := (mem_drop_body extent _ position).mp member
        exact out ⟨by omega, by omega⟩
      have unread : ¬ InChunks rest position → position ∉ (stream rest).drop (consumed - logicalStart - extent.bodyLen) :=
        fun out member => out (stream_in_chunks rest position (List.mem_of_mem_drop member))
      have claims : Claimed (usedClaims consumed logicalStart (extent :: rest)) position ↔
          (InChunk extent position ∧ position ∉ (List.range' extent.bodyStart extent.bodyLen).drop (consumed - logicalStart)) ∨
            Claimed (usedClaims consumed (logicalStart + extent.bodyLen) rest) position := by
        rw [← here, Claimed, usedClaims, List.exists_mem_cons_iff, List.exists_mem_cons_iff, or_assoc]
        rfl
      rw [claims, later, stream_cons, List.drop_append, List.length_range', List.mem_append, in_chunks_cons]
      by_cases inside : InChunk extent position
      · have notLater := exclusive inside
        simp only [inside, notLater, unread notLater, true_and, false_and, or_false]
      · simp only [inside, outside inside, false_and, false_or]

theorem whole_claims_exact : Claimed (wholeClaims extents) position ↔ InChunks extents position := by
  constructor
  · rintro ⟨claim, member, covers⟩
    obtain ⟨extent, listed, rfl⟩ := List.mem_map.mp member
    exact ⟨extent, listed, covers⟩
  · exact fun ⟨extent, listed, inside⟩ => ⟨_, List.mem_map_of_mem listed, inside⟩

def twoIdat : List UInt8 :=
  [137, 80, 78, 71, 13, 10, 26, 10] ++ [0, 0, 0, 3, 73, 68, 65, 84, 1, 2, 3, 0, 0, 0, 0] ++ [0, 0, 0, 0, 116, 69, 88, 116, 0, 0, 0, 0] ++
    [0, 0, 0, 2, 73, 68, 65, 84, 4, 5, 0, 0, 0, 0]

end Filefacts.Png
