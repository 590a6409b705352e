import Filefacts.Bytes

set_option autoImplicit false

namespace Filefacts.PeVersion

open Bytes (arrayAt u16le u32le)

def stringFields : List String :=
  ["Comments", "CompanyName", "FileDescription", "FileVersion", "InternalName", "LegalCopyright", "LegalTrademarks",
    "OriginalFilename", "PrivateBuild", "ProductName", "ProductVersion", "SpecialBuild"]

structure FixedFileInfo where
  fileFlagsMask : Nat
  fileFlags : Nat
  fileOs : Nat
  fileType : Nat
  fileSubtype : Nat
deriving DecidableEq, Repr

def fixedFileInfoSignature : Nat := 0xfeef04bd

def fixedFileInfoLen : Nat := 52

def FixedFileInfo.read (bytes : List UInt8) (off : Nat) : Option FixedFileInfo := do
  let signature ← u32le bytes off
  if signature = fixedFileInfoSignature then
    let fileFlagsMask ← u32le bytes (off + 24)
    let fileFlags ← u32le bytes (off + 28)
    let fileOs ← u32le bytes (off + 32)
    let fileType ← u32le bytes (off + 36)
    let fileSubtype ← u32le bytes (off + 40)
    some { fileFlagsMask, fileFlags, fileOs, fileType, fileSubtype }
  else none

structure VersionInfo where
  strings : List (Option (String × Nat))
  fixed : Option FixedFileInfo
deriving DecidableEq, Repr

def empty : VersionInfo := { strings := stringFields.map fun _ => none, fixed := none }

def maxVersionDepth : Nat := 8

def maxVersionNodes : Nat := 4096

-- UTF-16 with every unpaired surrogate replaced.
def replacement : Char := Char.ofNat 0xFFFD

def decodeUtf16 : List Nat → List Char
  | [] => []
  | unit :: rest =>
      if unit < 0xD800 ∨ 0xE000 ≤ unit then Char.ofNat unit :: decodeUtf16 rest
      else if 0xDC00 ≤ unit then replacement :: decodeUtf16 rest
      else
        match rest with
        | [] => [replacement]
        | low :: after =>
            if 0xDC00 ≤ low ∧ low < 0xE000 then
              Char.ofNat (0x10000 + (unit - 0xD800) * 0x400 + (low - 0xDC00)) :: decodeUtf16 after
            else replacement :: decodeUtf16 (low :: after)

-- The whole little-endian units; a trailing odd byte is ignored.
def utf16Units : List UInt8 → List Nat
  | low :: high :: rest => (low.toNat + 256 * high.toNat) :: utf16Units rest
  | _ => []

def utf16Lossy (buf : List UInt8) : String := String.ofList (decodeUtf16 (utf16Units buf))

def utf16UntilNul (buf : List UInt8) : List UInt8 := buf.take (2 * ((utf16Units buf).takeWhile fun unit => unit ≠ 0).length)

def window (bytes : List UInt8) (pos stop : Nat) : List UInt8 := (bytes.take stop).drop pos

def readUtf16Key (bytes : List UInt8) (pos stop : Nat) : String × Nat :=
  let key := utf16UntilNul (window bytes pos stop)
  let consumed := min (key.length + 2) ((window bytes pos stop).length / 2 * 2)
  (utf16Lossy key, pos + consumed)

def align4 (n : Nat) : Nat := (n + 3) / 4 * 4

structure Block where
  stop : Nat
  wType : Nat
  key : String
  valueOff : Nat
  valueBytes : Nat
  value : Option (List UInt8)
deriving DecidableEq, Repr

def readBlock (bytes : List UInt8) (off limit : Nat) : Option Block := do
  let wLength ← u16le bytes off
  let wValueLength ← u16le bytes (off + 2)
  let wType ← u16le bytes (off + 4)
  let stop := min (off + wLength) limit
  if wLength < 6 ∨ stop ≤ off then none
  else
    let key := readUtf16Key bytes (off + 6) stop
    let valueOff := align4 key.2
    let valueBytes := if wType = 1 then wValueLength * 2 else wValueLength
    let value := if valueOff + valueBytes ≤ stop then Bytes.get bytes valueOff (valueOff + valueBytes) else none
    some { stop, wType, key := key.1, valueOff, valueBytes, value }

-- Only the root holds the fixed info.
def noteFixed (bytes : List UInt8) (depth : Nat) (block : Block) (info : VersionInfo) : VersionInfo :=
  if depth = 0 ∧ fixedFileInfoLen ≤ block.valueBytes ∧ block.value.isSome then
    { info with fixed := info.fixed.or (FixedFileInfo.read bytes block.valueOff) }
  else info

-- The first block to name a key with a value wins.
def noteString (block : Block) (info : VersionInfo) : VersionInfo :=
  match stringFields.findIdx? fun name => name = block.key with
  | none => info
  | some index =>
      match block.value with
      | none => info
      | some data =>
          if block.wType = 1 ∧ info.strings[index]? = some none ∧ 2 ≤ data.length then
            { info with strings := info.strings.set index (some (utf16Lossy (utf16UntilNul data), block.valueOff)) }
          else info

structure Walk where
  budget : Nat
  info : VersionInfo
deriving DecidableEq, Repr

theorem align4_ge (n : Nat) : n ≤ align4 n := by
  unfold align4
  omega

def walkChildren {σ : Type} (visit : Nat → σ → σ) (bytes : List UInt8) (stop child : Nat) (walk : σ) : σ :=
  if child + 6 ≤ stop then
    match u16le bytes child with
    | none => walk
    | some len =>
        if len < 6 then walk else walkChildren visit bytes stop (align4 (child + len)) (visit child walk)
  else walk
termination_by stop - child
decreasing_by
  have grows := align4_ge (child + len)
  omega

-- A block at a depth that leaves some levels, up to the end of its parent.
def walkVersionBlock (bytes : List UInt8) : Nat → Nat → Nat → Walk → Walk
  | 0, _, _, walk => walk
  | levels + 1, off, limit, walk =>
      if walk.budget = 0 ∨ limit < off + 6 then walk
      else
        match readBlock bytes off limit with
        | none => { walk with budget := walk.budget - 1 }
        | some block =>
            walkChildren (fun child => walkVersionBlock bytes levels child block.stop) bytes block.stop
              (align4 (block.valueOff + block.valueBytes))
              { budget := walk.budget - 1,
                info := noteString block (noteFixed bytes (maxVersionDepth - (levels + 1)) block walk.info) }

-- A resource inside a file: what is read within it does not depend on the rest.
section Within

variable (front resource back : List UInt8)

theorem array_at_within (count i : Nat) (inside : i + count ≤ resource.length) :
    arrayAt (front ++ (resource ++ back)) count (front.length + i) = arrayAt resource count i := by
  have room : front.length + i + count ≤ (front ++ (resource ++ back)).length := by
    rw [List.length_append, List.length_append]
    omega
  rw [arrayAt, arrayAt, if_pos room, if_pos inside, List.drop_append, List.drop_eq_nil_of_le (Nat.le_add_right _ _), List.nil_append,
    Nat.add_sub_cancel_left, List.drop_append_of_le_length (by omega), List.take_append_of_le_length (by rw [List.length_drop]; omega)]

variable (i : Nat)

theorem u16le_within (inside : i + 2 ≤ resource.length) :
    u16le (front ++ (resource ++ back)) (front.length + i) = u16le resource i := by
  rw [u16le, u16le, array_at_within front resource back 2 i inside]

theorem u32le_within (inside : i + 4 ≤ resource.length) :
    u32le (front ++ (resource ++ back)) (front.length + i) = u32le resource i := by
  rw [u32le, u32le, array_at_within front resource back 4 i inside]

theorem window_within (pos stop : Nat) (inside : stop ≤ resource.length) :
    window (front ++ (resource ++ back)) (front.length + pos) (front.length + stop) = window resource pos stop := by
  rw [window, window, List.take_append, List.take_of_length_le (Nat.le_add_right _ _), Nat.add_sub_cancel_left, List.drop_append,
    List.drop_eq_nil_of_le (Nat.le_add_right _ _), List.nil_append, Nat.add_sub_cancel_left, List.take_append_of_le_length inside]

theorem get_within (start stop : Nat) (inside : stop ≤ resource.length) :
    Bytes.get (front ++ (resource ++ back)) (front.length + start) (front.length + stop) = Bytes.get resource start stop := by
  unfold Bytes.get
  by_cases ordered : start ≤ stop
  · have room : front.length + start ≤ front.length + stop ∧ front.length + stop ≤ (front ++ (resource ++ back)).length := by
      rw [List.length_append, List.length_append]
      omega
    rw [if_pos room, if_pos ⟨ordered, inside⟩, Nat.add_sub_add_left, List.drop_append,
      List.drop_eq_nil_of_le (Nat.le_add_right _ _), List.nil_append, Nat.add_sub_cancel_left,
      List.drop_append_of_le_length (by omega), List.take_append_of_le_length (by rw [List.length_drop]; omega)]
  · rw [if_neg (fun both => ordered (Nat.le_of_add_le_add_left both.1)), if_neg (fun both => ordered both.1)]

theorem fixed_within (inside : i + fixedFileInfoLen ≤ resource.length) :
    FixedFileInfo.read (front ++ (resource ++ back)) (front.length + i) = FixedFileInfo.read resource i := by
  unfold fixedFileInfoLen at inside
  simp only [FixedFileInfo.read, Nat.add_assoc]
  rw [u32le_within front resource back i (by omega), u32le_within front resource back (i + 24) (by omega),
    u32le_within front resource back (i + 28) (by omega), u32le_within front resource back (i + 32) (by omega),
    u32le_within front resource back (i + 36) (by omega), u32le_within front resource back (i + 40) (by omega)]

end Within

def alignFrom (residue n : Nat) : Nat := align4 (residue + n) - residue

theorem align_from (p n : Nat) : align4 (p + n) = p + alignFrom (p % 4) n := by
  unfold alignFrom align4
  omega

def Block.moved (p : Nat) (block : Block) : Block := { block with stop := p + block.stop, valueOff := p + block.valueOff }

def readBlockFrom (residue : Nat) (resource : List UInt8) (off limit : Nat) : Option Block := do
  let wLength ← u16le resource off
  let wValueLength ← u16le resource (off + 2)
  let wType ← u16le resource (off + 4)
  let stop := min (off + wLength) limit
  if wLength < 6 ∨ stop ≤ off then none
  else
    let key := readUtf16Key resource (off + 6) stop
    let valueOff := alignFrom residue key.2
    let valueBytes := if wType = 1 then wValueLength * 2 else wValueLength
    let value := if valueOff + valueBytes ≤ stop then Bytes.get resource valueOff (valueOff + valueBytes) else none
    some { stop, wType, key := key.1, valueOff, valueBytes, value }

variable (front resource back : List UInt8)

theorem read_key_within (pos stop : Nat) (inside : stop ≤ resource.length) :
    readUtf16Key (front ++ (resource ++ back)) (front.length + pos) (front.length + stop) =
      ((readUtf16Key resource pos stop).1, front.length + (readUtf16Key resource pos stop).2) := by
  simp only [readUtf16Key, window_within front resource back pos stop inside, Nat.add_assoc]

theorem read_block_moved (off limit : Nat) (inside : off + 6 ≤ limit) (whole : limit ≤ resource.length) :
    readBlock (front ++ (resource ++ back)) (front.length + off) (front.length + limit) =
      (readBlockFrom (front.length % 4) resource off limit).map (Block.moved front.length) := by
  simp only [readBlock, readBlockFrom, Nat.add_assoc, Option.bind_eq_bind]
  rw [u16le_within front resource back off (by omega), u16le_within front resource back (off + 2) (by omega),
    u16le_within front resource back (off + 4) (by omega)]
  cases u16le resource off with
  | none => rfl
  | some wLength =>
      cases u16le resource (off + 2) with
      | none => rfl
      | some wValueLength =>
          cases u16le resource (off + 4) with
          | none => rfl
          | some wType =>
              simp only [Option.bind_some]
              have stop : min (front.length + (off + wLength)) (front.length + limit) = front.length + min (off + wLength) limit := by omega
              have short : front.length + min (off + wLength) limit ≤ front.length + off ↔ min (off + wLength) limit ≤ off := by omega
              rw [stop]
              simp only [short]
              split
              · rfl
              · rw [read_key_within front resource back (off + 6) _ (by omega)]
                rw [align_from]
                generalize (if wType = 1 then wValueLength * 2 else wValueLength) = valueBytes
                simp only [Nat.add_assoc, Nat.add_le_add_iff_left]
                rw [Option.map_some, Block.moved]
                congr 2
                by_cases fits : alignFrom (front.length % 4) (readUtf16Key resource (off + 6) (min (off + wLength) limit)).2 + valueBytes ≤
                    min (off + wLength) limit
                · rw [if_pos fits, if_pos fits]
                  exact get_within front resource back _ _ (by omega)
                · rw [if_neg fits, if_neg fits]

def VersionInfo.moved (p : Nat) (info : VersionInfo) : VersionInfo :=
  { info with strings := info.strings.map (Option.map fun entry => (entry.1, p + entry.2)) }

def Walk.moved (p : Nat) (walk : Walk) : Walk := { walk with info := walk.info.moved p }

theorem note_string_moved (p : Nat) (block : Block) (info : VersionInfo) :
    noteString (block.moved p) (info.moved p) = (noteString block info).moved p := by
  unfold noteString Block.moved
  cases stringFields.findIdx? fun name => name = block.key with
  | none => rfl
  | some index =>
      cases block.value with
      | none => rfl
      | some data =>
          have vacant : (info.moved p).strings[index]? = some none ↔ info.strings[index]? = some none := by
            rw [VersionInfo.moved, List.getElem?_map]
            cases info.strings[index]? with
            | none => simp
            | some slot => cases slot <;> simp
          simp only [vacant]
          split
          · simp only [VersionInfo.moved, List.map_set, Option.map_some]
          · rfl

theorem note_fixed_moved (depth : Nat) (block : Block) (info : VersionInfo)
    (inside : block.value.isSome = true → block.valueOff + block.valueBytes ≤ resource.length) :
    noteFixed (front ++ (resource ++ back)) depth (block.moved front.length) (info.moved front.length) =
      (noteFixed resource depth block info).moved front.length := by
  by_cases holds : depth = 0 ∧ fixedFileInfoLen ≤ block.valueBytes ∧ block.value.isSome = true
  · have room := inside holds.2.2
    have fixed := fixed_within front resource back block.valueOff (Nat.le_trans (Nat.add_le_add_left holds.2.1 _) room)
    rw [noteFixed, noteFixed, if_pos holds]
    refine (if_pos holds).trans ?_
    rw [Block.moved, fixed]
    rfl
  · rw [noteFixed, noteFixed, if_neg holds]
    exact if_neg holds

theorem read_block_from (residue : Nat) (resource : List UInt8) (off limit : Nat) (block : Block)
    (read : readBlockFrom residue resource off limit = some block) :
    block.stop ≤ limit ∧ (block.value.isSome = true → block.valueOff + block.valueBytes ≤ block.stop) := by
  simp only [readBlockFrom, Option.bind_eq_bind, Option.bind_eq_some_iff] at read
  obtain ⟨wLength, -, wValueLength, -, wType, -, built⟩ := read
  by_cases short : wLength < 6 ∨ min (off + wLength) limit ≤ off
  · rw [if_pos short] at built
    cases built
  · rw [if_neg short] at built
    cases built
    refine ⟨Nat.min_le_right _ _, fun held => ?_⟩
    by_contra crosses
    rw [if_neg crosses] at held
    cases held

theorem align_from_ge (residue n : Nat) : n ≤ alignFrom residue n := by
  unfold alignFrom
  have grows := align4_ge (residue + n)
  omega

def walkChildrenFrom (residue : Nat) (visit : Nat → Walk → Walk) (resource : List UInt8) (stop child : Nat) (walk : Walk) : Walk :=
  if child + 6 ≤ stop then
    match u16le resource child with
    | none => walk
    | some len =>
        if len < 6 then walk
        else walkChildrenFrom residue visit resource stop (alignFrom residue (child + len)) (visit child walk)
  else walk
termination_by stop - child
decreasing_by
  have grows := align_from_ge residue (child + len)
  omega

def walkBlockFrom (residue : Nat) (resource : List UInt8) : Nat → Nat → Nat → Walk → Walk
  | 0, _, _, walk => walk
  | levels + 1, off, limit, walk =>
      if walk.budget = 0 ∨ limit < off + 6 then walk
      else
        match readBlockFrom residue resource off limit with
        | none => { walk with budget := walk.budget - 1 }
        | some block =>
            walkChildrenFrom residue (fun child => walkBlockFrom residue resource levels child block.stop) resource block.stop
              (alignFrom residue (block.valueOff + block.valueBytes))
              { budget := walk.budget - 1,
                info := noteString block (noteFixed resource (maxVersionDepth - (levels + 1)) block walk.info) }

theorem children_moved (visit visitFrom : Nat → Walk → Walk) (stop : Nat) (whole : stop ≤ resource.length)
    (same : ∀ child walk, visit (front.length + child) (walk.moved front.length) = (visitFrom child walk).moved front.length)
    (child : Nat) (walk : Walk) :
    walkChildren visit (front ++ (resource ++ back)) (front.length + stop) (front.length + child) (walk.moved front.length) =
      (walkChildrenFrom (front.length % 4) visitFrom resource stop child walk).moved front.length := by
  fun_induction walkChildrenFrom (front.length % 4) visitFrom resource stop child walk with
  | case1 child walk room ended =>
      rw [walkChildren, if_pos (by omega), u16le_within front resource back child (by omega), ended]
  | case2 child walk room len read short =>
      rw [walkChildren, if_pos (by omega), u16le_within front resource back child (by omega), read]
      exact if_pos short
  | case3 child walk room len read long ih =>
      rw [walkChildren, if_pos (by omega), u16le_within front resource back child (by omega), read]
      dsimp only
      rw [if_neg long, same, Nat.add_assoc, align_from]
      exact ih
  | case4 child walk full => rw [walkChildren, if_neg (by omega)]

theorem walk_block_moved (levels off limit : Nat) (whole : limit ≤ resource.length) (walk : Walk) :
    walkVersionBlock (front ++ (resource ++ back)) levels (front.length + off) (front.length + limit) (walk.moved front.length) =
      (walkBlockFrom (front.length % 4) resource levels off limit walk).moved front.length := by
  induction levels generalizing off limit walk with
  | zero => rfl
  | succ levels ih =>
      rw [walkVersionBlock, walkBlockFrom]
      by_cases halted : walk.budget = 0 ∨ limit < off + 6
      · rw [if_pos (by simp only [Walk.moved]; omega), if_pos halted]
      · rw [if_neg (by simp only [Walk.moved]; omega), if_neg halted,
          read_block_moved front resource back off limit (by omega) whole]
        cases read : readBlockFrom (front.length % 4) resource off limit with
        | none => rfl
        | some block =>
            obtain ⟨stop, inside⟩ := read_block_from _ _ _ _ _ read
            have fixed := note_fixed_moved front resource back (maxVersionDepth - (levels + 1)) block walk.info
              (fun held => Nat.le_trans (inside held) (Nat.le_trans stop whole))
            have strings := note_string_moved front.length block (noteFixed resource (maxVersionDepth - (levels + 1)) block walk.info)
            have first : align4 (front.length + block.valueOff + block.valueBytes) =
                front.length + alignFrom (front.length % 4) (block.valueOff + block.valueBytes) := by
              rw [Nat.add_assoc, align_from]
            have children := children_moved front resource back
              (fun child => walkVersionBlock (front ++ (resource ++ back)) levels child (front.length + block.stop))
              (fun child => walkBlockFrom (front.length % 4) resource levels child block.stop) block.stop
              (Nat.le_trans stop whole) (fun child inner => ih child block.stop (Nat.le_trans stop whole) inner)
              (alignFrom (front.length % 4) (block.valueOff + block.valueBytes))
              { budget := walk.budget - 1,
                info := noteString block (noteFixed resource (maxVersionDepth - (levels + 1)) block walk.info) }
            rw [← children]
            dsimp only [Option.map_some]
            simp only [Walk.moved]
            rw [fixed, strings, ← first]
            rfl

end Filefacts.PeVersion
