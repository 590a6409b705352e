import Filefacts.Pe.VersionMoved
import Filefacts.Lib.Extents

set_option autoImplicit false

namespace Filefacts.PeVersion

open Bytes (arrayAt u16le u32le)
open Extents (Holds)

-- A version resource as a tree of blocks. A key holds no terminator.
structure Key where
  units : List UInt16
  terminated : 0 ∉ units

inductive Value where
  | text (units : List UInt16)
  | binary (bytes : List UInt8)

mutual
inductive Tree where
  | node (key : Key) (value : Value) (padded : Bool) (children : Forest)
inductive Forest where
  | nil
  | cons (first : Tree) (rest : Forest)
end

def wordBytes (number : Nat) : List UInt8 := (BigEndian.octetsOf 2 number).reverse

def unitBytes (units : List UInt16) : List UInt8 := units.flatMap fun unit => wordBytes unit.toNat

def unitText (units : List UInt16) : String := String.ofList (decodeUtf16 (units.map UInt16.toNat))

def Value.bytes : Value → List UInt8
  | .text units => unitBytes units
  | .binary bytes => bytes

def Value.count : Value → Nat
  | .text units => units.length
  | .binary bytes => bytes.length

def Value.wType : Value → Nat
  | .text _ => 1
  | .binary _ => 0

def gap (fill : UInt8) (length : Nat) : List UInt8 := List.replicate (align4 length - length) fill

-- Something behind something else, on a group of four; nothing needs no gap.
def behind (fill : UInt8) (front back : List UInt8) : List UInt8 :=
  if back = [] then front else front ++ (gap fill front.length ++ back)

def laid (front back : Nat) : Nat := if back = 0 then front else align4 front + back

def Key.stop (key : Key) : Nat := 8 + 2 * key.units.length

def blockSize (key : Key) (value : Value) (padded : Bool) (children : Nat) : Nat :=
  let stop := laid (laid key.stop value.bytes.length) children
  if padded then align4 stop else stop

def blockHead (key : Key) (value : Value) (size : Nat) : List UInt8 :=
  wordBytes size ++ (wordBytes value.count ++ (wordBytes value.wType ++ (unitBytes key.units ++ [0, 0])))

def spellBlock (fill : UInt8) (key : Key) (value : Value) (padded : Bool) (children : List UInt8) : List UInt8 :=
  let head := blockHead key value (blockSize key value padded children.length)
  let whole := behind fill (behind fill head value.bytes) children
  whole ++ if padded then gap fill whole.length else []

mutual
def Tree.size : Tree → Nat
  | .node key value padded children => blockSize key value padded children.size
def Forest.size : Forest → Nat
  | .nil => 0
  | .cons first rest => laid first.size rest.size
end

mutual
def Tree.spell (fill : UInt8) : Tree → List UInt8
  | .node key value padded children => spellBlock fill key value padded (children.spell fill)
def Forest.spell (fill : UInt8) : Forest → List UInt8
  | .nil => []
  | .cons first rest => behind fill (first.spell fill) (rest.spell fill)
end

-- Every length is one a block can name.
mutual
def Tree.Fits : Tree → Prop
  | .node key value padded children =>
      value.count < 2 ^ 16 ∧ blockSize key value padded children.size < 2 ^ 16 ∧ children.Fits
def Forest.Fits : Forest → Prop
  | .nil => True
  | .cons first rest => first.Fits ∧ rest.Fits
end

mutual
def Tree.height : Tree → Nat
  | .node _ _ _ children => children.height + 1
def Forest.height : Forest → Nat
  | .nil => 0
  | .cons first rest => max first.height rest.height
end

structure Place where
  depth : Nat
  off : Nat
  tree : Tree

mutual
def Tree.places (depth off : Nat) : Tree → List Place
  | .node key value padded children =>
      { depth, off, tree := .node key value padded children } ::
        children.places (depth + 1) (off + align4 (laid key.stop value.bytes.length))
def Forest.places (depth off : Nat) : Forest → List Place
  | .nil => []
  | .cons first rest => first.places depth off ++ rest.places depth (off + align4 first.size)
end

def Place.block (place : Place) : Block :=
  match place.tree with
  | .node key value padded children =>
      let size := blockSize key value padded children.size
      { stop := place.off + size, wType := value.wType, key := unitText key.units, valueOff := place.off + align4 key.stop,
        valueBytes := value.bytes.length,
        value := if align4 key.stop + value.bytes.length ≤ size then some value.bytes else none }

variable (number : Nat)

theorem word_bytes_length : (wordBytes number).length = 2 := by
  rw [wordBytes, List.length_reverse, BigEndian.octets_of_length]

theorem word_bytes_pair : wordBytes number = [UInt8.ofNat (number % 256), UInt8.ofNat (number / 256 % 256)] := rfl

theorem unit_bytes_cons (unit : UInt16) (units : List UInt16) : unitBytes (unit :: units) = wordBytes unit.toNat ++ unitBytes units := by
  rw [unitBytes, unitBytes, List.flatMap_cons]

variable (units : List UInt16) (fill : UInt8) (key : Key)

theorem unit_bytes_length : (unitBytes units).length = 2 * units.length := by
  induction units with
  | nil => rfl
  | cons unit units ih =>
      rw [unit_bytes_cons, List.length_append, word_bytes_length, ih, List.length_cons]
      omega

variable (rest : List UInt8)

theorem utf16_units_spelled : utf16Units (unitBytes units ++ rest) = units.map UInt16.toNat ++ utf16Units rest := by
  induction units with
  | nil => rfl
  | cons unit units ih =>
      have bound := unit.toNat_lt
      have low : (UInt8.ofNat (unit.toNat % 256)).toNat = unit.toNat % 256 := UInt8.toNat_ofNat_of_lt' (Nat.mod_lt _ (by decide))
      have high : (UInt8.ofNat (unit.toNat / 256 % 256)).toNat = unit.toNat / 256 % 256 :=
        UInt8.toNat_ofNat_of_lt' (Nat.mod_lt _ (by decide))
      rw [unit_bytes_cons, word_bytes_pair]
      simp only [List.cons_append, List.nil_append, utf16Units, low, high, List.map_cons, ih]
      congr 1
      omega

theorem value_length (value : Value) : value.bytes.length = if value.wType = 1 then value.count * 2 else value.count := by
  cases value with
  | text units =>
      rw [Value.bytes, unit_bytes_length, Nat.mul_comm]
      rfl
  | binary bytes => rfl

theorem value_type_lt (value : Value) : value.wType < 2 ^ 16 := by
  cases value with
  | text units => exact Nat.one_lt_two_pow (by decide)
  | binary bytes => exact Nat.two_pow_pos 16

theorem gap_length (length : Nat) : (gap fill length).length = align4 length - length := List.length_replicate

theorem behind_length (front back : List UInt8) : (behind fill front back).length = laid front.length back.length := by
  unfold behind laid
  by_cases nothing : back = []
  · rw [if_pos nothing, if_pos (List.length_eq_zero_iff.mpr nothing)]
  · have grown := align4_ge front.length
    rw [if_neg nothing, if_neg (fun none => nothing (List.length_eq_zero_iff.mp none)), List.length_append, List.length_append,
      gap_length]
    omega

theorem block_head_length (value : Value) (size : Nat) : (blockHead key value size).length = key.stop := by
  simp only [blockHead, List.length_append, word_bytes_length, unit_bytes_length, List.length_cons, List.length_nil, Key.stop]
  omega

theorem spell_block_length (value : Value) (padded : Bool) (children : List UInt8) :
    (spellBlock fill key value padded children).length = blockSize key value padded children.length := by
  simp only [spellBlock, blockSize, List.length_append, behind_length, block_head_length]
  cases padded with
  | false => rfl
  | true =>
      have grown := align4_ge (laid (laid key.stop value.bytes.length) children.length)
      rw [if_pos rfl, if_pos rfl, gap_length]
      omega

mutual
theorem tree_spell_length (fill : UInt8) (tree : Tree) : (tree.spell fill).length = tree.size := by
  cases tree with
  | node key value padded children =>
      rw [Tree.spell, Tree.size, spell_block_length, forest_spell_length]
theorem forest_spell_length (fill : UInt8) (forest : Forest) : (forest.spell fill).length = forest.size := by
  cases forest with
  | nil => rfl
  | cons first rest =>
      rw [Forest.spell, Forest.size, behind_length, tree_spell_length, forest_spell_length]
end

section Standing

variable (bytes : List UInt8) (position : Nat)

variable (part : List UInt8)

theorem get_holds (holds : Holds bytes position part) : Bytes.get bytes position (position + part.length) = some part := by
  have inside := Extents.holds_inside bytes position part holds
  rw [Bytes.get, if_pos ⟨Nat.le_add_right _ _, inside⟩, Nat.add_sub_cancel_left, Extents.holds_slice bytes position part holds]

theorem window_holds (skip : Nat) (holds : Holds bytes position part) :
    window bytes (position + skip) (position + part.length) = part.drop skip := by
  have slice := Extents.holds_slice bytes position part holds
  rw [window, ← List.drop_drop, List.drop_take, Nat.add_sub_cancel_left, slice]

theorem u16le_holds (number : Nat) (small : number < 2 ^ 16) (holds : Holds bytes position (wordBytes number)) :
    u16le bytes position = some number := by
  have inside := Extents.holds_inside bytes position _ holds
  have slice := Extents.holds_slice bytes position _ holds
  rw [word_bytes_length] at inside slice
  rw [u16le, arrayAt, if_pos inside, slice, Option.map_some, wordBytes, List.reverse_reverse, BigEndian.value_octets_of 2 number small]

variable {front back : List UInt8}

theorem holds_behind_front {fill : UInt8} (holds : Holds bytes position (behind fill front back)) :
    Holds bytes position front := by
  unfold behind at holds
  by_cases nothing : back = []
  · rwa [if_pos nothing] at holds
  · rw [if_neg nothing] at holds
    exact Extents.holds_append_left bytes position _ _ holds

theorem holds_behind_back {fill : UInt8} (something : back ≠ [])
    (holds : Holds bytes position (behind fill front back)) : Holds bytes (position + align4 front.length) back := by
  have grown := align4_ge front.length
  rw [behind, if_neg something] at holds
  have after := Extents.holds_append_right bytes _ _ _ (Extents.holds_append_right bytes position _ _ holds)
  rwa [gap_length, Nat.add_assoc, Nat.add_sub_cancel' grown] at after

end Standing

variable {off : Nat} {value : Value} {padded : Bool} {children : List UInt8}

variable (n : Nat)

theorem align4_add (aligned : off % 4 = 0) : align4 (off + n) = off + align4 n := by
  unfold align4
  omega

theorem align4_align4 : align4 (align4 n) = align4 n := by
  unfold align4
  omega

theorem utf16_until_nul_key (terminated : 0 ∉ units) :
    utf16UntilNul (unitBytes units ++ (0 :: 0 :: rest)) = unitBytes units := by
  have nonzero : ∀ unit ∈ units.map UInt16.toNat, decide (unit ≠ 0) = true := by
    intro unit member
    obtain ⟨unit, inside, rfl⟩ := List.mem_map.mp member
    refine decide_eq_true fun zero => terminated ?_
    rwa [← UInt16.toNat_inj.mp (zero.trans UInt16.toNat_zero.symm)]
  have stops : (utf16Units (0 :: 0 :: rest)).takeWhile (fun unit => decide (unit ≠ 0)) = [] := rfl
  rw [utf16UntilNul, utf16_units_spelled, List.takeWhile_append_of_pos nonzero, stops, List.append_nil, List.length_map]
  exact List.take_left' (unit_bytes_length units)

theorem utf16_units_unit_bytes : utf16Units (unitBytes units) = units.map UInt16.toNat := by
  have whole := utf16_units_spelled units []
  rw [List.append_nil] at whole
  exact whole.trans (List.append_nil _)

theorem utf16_lossy_key : utf16Lossy (unitBytes units) = unitText units := by
  rw [utf16Lossy, utf16_units_unit_bytes, unitText]

theorem behind_starts (front back : List UInt8) : front <+: behind fill front back := by
  unfold behind
  by_cases nothing : back = []
  · exact ⟨[], by rw [List.append_nil, if_pos nothing]⟩
  · rw [if_neg nothing]
    exact List.prefix_append _ _

theorem block_starts (value : Value) (padded : Bool) (children : List UInt8) :
    blockHead key value (blockSize key value padded children.length) <+: spellBlock fill key value padded children :=
  (behind_starts fill _ _).trans ((behind_starts fill _ _).trans (List.prefix_append _ _))

theorem read_key_laid {bytes : List UInt8} (holds : Holds bytes off (spellBlock fill key value padded children)) :
    readUtf16Key bytes (off + 6) (off + blockSize key value padded children.length) = (unitText key.units, off + key.stop) := by
  obtain ⟨tail, whole⟩ := block_starts fill key value padded children
  have window := window_holds bytes off _ 6 holds
  have length := congrArg List.length whole
  rw [List.length_append, block_head_length, spell_block_length] at length
  rw [spell_block_length, ← whole] at window
  simp only [blockHead, word_bytes_pair, List.cons_append, List.nil_append, List.append_assoc, List.drop_succ_cons, List.drop_zero]
    at window
  rw [readUtf16Key, window, utf16_until_nul_key key.units tail key.terminated, utf16_lossy_key]
  simp only [List.length_append, List.length_cons, unit_bytes_length, Prod.mk.injEq, true_and]
  unfold Key.stop at length ⊢
  omega

theorem laid_ge (front back : Nat) : front ≤ laid front back := by
  have grown := align4_ge front
  unfold laid
  split
  · exact Nat.le_refl _
  · omega

theorem block_size_ge (value : Value) (padded : Bool) (children : Nat) :
    laid (laid key.stop value.bytes.length) children ≤ blockSize key value padded children := by
  have grown := align4_ge (laid (laid key.stop value.bytes.length) children)
  unfold blockSize
  cases padded with
  | false => exact Nat.le_refl _
  | true => exact grown

theorem holds_value {bytes : List UInt8}
    (holds : Holds bytes off (spellBlock fill key value padded children)) (something : value.bytes ≠ []) :
    Holds bytes (off + align4 key.stop) value.bytes := by
  have front := holds_behind_front bytes off (Extents.holds_append_left bytes off _ _ holds)
  have back := holds_behind_back bytes off something front
  rwa [block_head_length] at back

theorem get_value_laid {bytes : List UInt8} (holds : Holds bytes off (spellBlock fill key value padded children))
    (fits : align4 key.stop + value.bytes.length ≤ blockSize key value padded children.length) :
    Bytes.get bytes (off + align4 key.stop) (off + align4 key.stop + value.bytes.length) = some value.bytes := by
  by_cases nothing : value.bytes = []
  · have inside := Extents.holds_inside bytes off _ holds
    rw [spell_block_length] at inside
    rw [nothing, List.length_nil] at fits ⊢
    rw [Bytes.get, if_pos ⟨Nat.le_refl _, by omega⟩, Nat.add_zero, Nat.sub_self, List.take_zero]
  · exact get_holds bytes _ _ (holds_value fill key holds nothing)

theorem read_block_laid {children : Forest} {bytes : List UInt8}
    (depth : Nat) {limit : Nat} (aligned : off % 4 = 0) (holds : Holds bytes off (spellBlock fill key value padded (children.spell fill)))
    (count : value.count < 2 ^ 16) (small : blockSize key value padded children.size < 2 ^ 16)
    (room : off + blockSize key value padded children.size ≤ limit) :
    readBlock bytes off limit = some (Place.block { depth, off, tree := .node key value padded children }) := by
  have head := Extents.holds_append_left bytes off _ _ holds
  have head := holds_behind_front bytes off (holds_behind_front bytes off head)
  have keyed := read_key_laid fill key holds
  have valued := get_value_laid fill key holds
  rw [forest_spell_length] at head keyed valued
  have counted := Extents.holds_append_right bytes off _ _ head
  have typed := Extents.holds_append_right bytes _ _ _ counted
  rw [word_bytes_length] at counted typed
  rw [word_bytes_length, Nat.add_assoc] at typed
  have wLength := u16le_holds bytes off _ small (Extents.holds_append_left bytes off _ _ head)
  have wValueLength := u16le_holds bytes (off + 2) _ count (Extents.holds_append_left bytes _ _ _ counted)
  have wType := u16le_holds bytes (off + 4) value.wType (value_type_lt value) (Extents.holds_append_left bytes _ _ _ typed)
  have long := Nat.le_trans (Nat.le_trans (laid_ge key.stop value.bytes.length) (laid_ge _ children.size)) (block_size_ge key value padded children.size)
  have wide : key.stop ≥ 8 := Nat.le_add_right _ _
  rw [readBlock, wLength, wValueLength, wType]
  simp only [Option.bind_eq_bind, Option.bind_some, Nat.min_eq_left room, keyed, align4_add key.stop aligned, ← value_length]
  rw [if_neg (by omega)]
  by_cases fits : align4 key.stop + value.bytes.length ≤ blockSize key value padded children.size
  · rw [if_pos (by omega), valued fits, Place.block]
    dsimp only
    rw [if_pos fits]
  · rw [if_neg (by omega), Place.block]
    dsimp only
    rw [if_neg fits]

end Filefacts.PeVersion
