import Filefacts.Pe.VersionInfo

set_option autoImplicit false

namespace Filefacts.PeVersion

def readVersion (bytes : List UInt8) (off limit budget : Nat) : VersionInfo :=
  (walkVersionBlock bytes maxVersionDepth off limit { budget, info := empty }).info

-- Two files that hold a resource read the same fixed info and the same
-- strings, each offset as far from the resource's start.
def SameBetween (p q : Nat) : Prop :=
  ∀ (resource front back front' back' : List UInt8) (budget : Nat), front.length = p → front'.length = q →
    (readVersion (front ++ (resource ++ back)) p (p + resource.length) budget).moved q =
      (readVersion (front' ++ (resource ++ back')) q (q + resource.length) budget).moved p

theorem moved_moved (p q : Nat) (info : VersionInfo) : (info.moved p).moved q = (info.moved q).moved p := by
  simp only [VersionInfo.moved, List.map_map, VersionInfo.mk.injEq, and_true]
  refine List.map_congr_left fun slot _ => ?_
  cases slot with
  | none => rfl
  | some entry => simp only [Function.comp_apply, Option.map_some, Nat.add_left_comm]

theorem read_version_from (front resource back : List UInt8) (budget : Nat) :
    readVersion (front ++ (resource ++ back)) front.length (front.length + resource.length) budget =
      (walkBlockFrom (front.length % 4) resource maxVersionDepth 0 resource.length { budget, info := empty }).info.moved front.length := by
  have moved := walk_block_moved front resource back maxVersionDepth 0 resource.length (Nat.le_refl _) { budget, info := empty }
  exact congrArg Walk.info moved

theorem note_string_fixed (block : Block) (info : VersionInfo) : (noteString block info).fixed = info.fixed := by
  rw [noteString]
  cases stringFields.findIdx? fun name => name = block.key with
  | none => rfl
  | some index =>
      cases block.value with
      | none => rfl
      | some data =>
          dsimp only
          split
          · rfl
          · rfl

variable {residue padding : Nat}

theorem childless_fixed {resource : List UInt8} {limit budget : Nat} {block : Block} (spend : budget ≠ 0) (room : 6 ≤ limit)
    (read : readBlockFrom residue resource 0 limit = some block)
    (childless : block.stop < alignFrom residue (block.valueOff + block.valueBytes) + 6) :
    (walkBlockFrom residue resource maxVersionDepth 0 limit { budget, info := empty }).info.fixed =
      (noteFixed resource 0 block empty).fixed := by
  rw [maxVersionDepth, walkBlockFrom, if_neg (by dsimp only; omega), read]
  dsimp only
  rw [walkChildrenFrom, if_neg (by omega)]
  exact note_string_fixed block _

def fixedOnly (padding : Nat) : List UInt8 :=
  [95, 0, 52, 0, 0, 0] ++ "VS_VERSION_INFO".toList.flatMap (fun letter => [UInt8.ofNat letter.toNat, 0]) ++ [0, 0] ++
    List.replicate padding 0 ++ [0xbd, 0x04, 0xef, 0xfe] ++ List.replicate (53 - padding) 0

theorem fixed_only_block : ∀ residue < 4, ∀ padding < 4,
    (readBlockFrom residue (fixedOnly padding) 0 95).map (fun block =>
        (decide (block.stop < alignFrom residue (block.valueOff + block.valueBytes) + 6),
          (noteFixed (fixedOnly padding) 0 block empty).fixed.isSome)) =
      some (true, decide (38 + padding = alignFrom residue 38)) := by
  decide +kernel

theorem fixed_only_reads (aligned : residue < 4) (short : padding < 4) :
    (walkBlockFrom residue (fixedOnly padding) maxVersionDepth 0 95 { budget := maxVersionNodes, info := empty }).info.fixed.isSome =
      decide (38 + padding = alignFrom residue 38) := by
  have reads := fixed_only_block residue aligned padding short
  cases read : readBlockFrom residue (fixedOnly padding) 0 95 with
  | none =>
      rw [read] at reads
      cases reads
  | some block =>
      rw [read, Option.map_some, Option.some.injEq, Prod.mk.injEq, decide_eq_true_eq] at reads
      rw [childless_fixed (by decide) (by decide) read reads.1, reads.2]

theorem fixed_only_length (short : padding < 4) : (fixedOnly padding).length = 95 := by
  have letters : ("VS_VERSION_INFO".toList.flatMap fun letter => [UInt8.ofNat letter.toNat, 0]).length = 30 := rfl
  simp only [fixedOnly, List.length_append, letters, List.length_replicate, List.length_cons, List.length_nil]
  omega

theorem same_between_places (p q : Nat) (same : SameBetween p q) : p % 4 = q % 4 := by
  have here : alignFrom (p % 4) 38 - 38 < 4 := by
    unfold alignFrom align4
    omega
  have length := fixed_only_length here
  have reads := same (fixedOnly (alignFrom (p % 4) 38 - 38)) (List.replicate p 0) [] (List.replicate q 0) [] maxVersionNodes
    List.length_replicate List.length_replicate
  have first := read_version_from (List.replicate p 0) (fixedOnly (alignFrom (p % 4) 38 - 38)) [] maxVersionNodes
  have second := read_version_from (List.replicate q 0) (fixedOnly (alignFrom (p % 4) 38 - 38)) [] maxVersionNodes
  rw [List.length_replicate] at first second
  rw [first, second, length] at reads
  have found := fixed_only_reads (Nat.mod_lt p (by decide)) here
  have lost := fixed_only_reads (Nat.mod_lt q (by decide)) here
  have fixed := (congrArg (fun info => info.fixed.isSome) reads : _ = _)
  simp only [VersionInfo.moved] at fixed
  rw [found, lost, decide_eq_decide] at fixed
  have grown := align_from_ge (p % 4) 38
  have places := fixed.mp (by omega)
  unfold alignFrom align4 at places
  omega

theorem same_between_iff (p q : Nat) : SameBetween p q ↔ p % 4 = q % 4 := by
  refine ⟨same_between_places p q, fun places resource front back front' back' budget first second => ?_⟩
  rw [← first, ← second, read_version_from, read_version_from, first, second, places]
  exact moved_moved p q _

theorem resource_depends_on_place : ¬ ∀ p q, SameBetween p q :=
  fun always => absurd (same_between_places 0 1 (always 0 1)) (by decide)

end Filefacts.PeVersion
