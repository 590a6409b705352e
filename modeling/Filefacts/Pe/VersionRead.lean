import Filefacts.Pe.VersionLayout
import Mathlib.Data.List.Nodup

set_option autoImplicit false

namespace Filefacts.PeVersion

open Bytes (u16le u32le)
open Extents (Holds)

def visitBlocks {σ : Type} (note : Nat → Nat → Block → σ → σ) (bytes : List UInt8) : Nat → Nat → Nat → Nat × σ → Nat × σ
  | 0, _, _, walk => walk
  | levels + 1, off, limit, walk =>
      if walk.1 = 0 ∨ limit < off + 6 then walk
      else
        match readBlock bytes off limit with
        | none => (walk.1 - 1, walk.2)
        | some block =>
            walkChildren (fun child => visitBlocks note bytes levels child block.stop) bytes block.stop
              (align4 (block.valueOff + block.valueBytes))
              (walk.1 - 1, note (maxVersionDepth - (levels + 1)) off block walk.2)

def noteInfo (bytes : List UInt8) (depth _off : Nat) (block : Block) (info : VersionInfo) : VersionInfo :=
  noteString block (noteFixed bytes depth block info)

def noteOffset (_depth off : Nat) (_block : Block) (offsets : List Nat) : List Nat := offsets ++ [off]

def blocksRead (bytes : List UInt8) (off limit : Nat) : List Nat :=
  (visitBlocks noteOffset bytes maxVersionDepth off limit (maxVersionNodes, [])).2

theorem children_simulate {σ τ : Type} (image : σ → τ) (visit : Nat → σ → σ) (visit' : Nat → τ → τ) (bytes : List UInt8) (stop child : Nat)
    (same : ∀ child walk, visit' child (image walk) = image (visit child walk)) (walk : σ) :
    walkChildren visit' bytes stop child (image walk) = image (walkChildren visit bytes stop child walk) := by
  fun_induction walkChildren visit bytes stop child walk with
  | case1 child walk room ended => rw [walkChildren, if_pos room, ended]
  | case2 child walk room len read short =>
      rw [walkChildren, if_pos room, read]
      exact if_pos short
  | case3 child walk room len read long ih =>
      rw [walkChildren, if_pos room, read]
      dsimp only
      rw [if_neg long, same]
      exact ih
  | case4 child walk full => rw [walkChildren, if_neg full]

def Walk.ofPair (walk : Nat × VersionInfo) : Walk := { budget := walk.1, info := walk.2 }

theorem walk_visits (bytes : List UInt8) (levels off limit : Nat) (walk : Nat × VersionInfo) :
    walkVersionBlock bytes levels off limit (Walk.ofPair walk) = Walk.ofPair (visitBlocks (noteInfo bytes) bytes levels off limit walk) := by
  induction levels generalizing off limit walk with
  | zero => rfl
  | succ levels ih =>
      rw [walkVersionBlock, visitBlocks]
      by_cases halted : walk.1 = 0 ∨ limit < off + 6
      · rw [if_pos halted]
        exact if_pos halted
      · rw [if_neg halted]
        refine (if_neg halted).trans ?_
        cases readBlock bytes off limit with
        | none => rfl
        | some block =>
            exact children_simulate Walk.ofPair (fun child => visitBlocks (noteInfo bytes) bytes levels child block.stop) _ bytes block.stop
              (align4 (block.valueOff + block.valueBytes)) (fun child inner => ih child block.stop inner)
              (walk.1 - 1, noteInfo bytes (maxVersionDepth - (levels + 1)) off block walk.2)

def record {σ : Type} (note : Nat → Nat → Block → σ → σ) (places : List Place) (start : σ) : σ :=
  places.foldl (fun state place => note place.depth place.off place.block state) start

theorem tree_size_ge (tree : Tree) : 8 ≤ tree.size := by
  cases tree with
  | node key value padded children =>
      have long := Nat.le_trans (laid_ge key.stop value.bytes.length) (laid_ge _ children.size)
      exact Nat.le_trans (Nat.le_add_right 8 _) (Nat.le_trans long (block_size_ge key value padded children.size))

variable {fill : UInt8} {off position : Nat}

theorem read_tree_length {tree : Tree} (fits : tree.Fits) {bytes : List UInt8}
    (holds : Holds bytes off (tree.spell fill)) : u16le bytes off = some tree.size := by
  cases tree with
  | node key value padded children =>
      have head := holds_behind_front bytes off (holds_behind_front bytes off
        (Extents.holds_append_left bytes off _ _ holds))
      rw [forest_spell_length] at head
      exact u16le_holds bytes off _ fits.2.1 (Extents.holds_append_left bytes off _ _ head)

theorem align4_mod (n : Nat) : align4 n % 4 = 0 := Nat.mul_mod_left _ _

theorem align4_laid (front back : Nat) : align4 (align4 front + back) = align4 (laid front back) := by
  unfold laid
  split
  · next nothing => rw [nothing, Nat.add_zero, align4_align4]
  · rfl

theorem block_size_children (key : Key) (value : Value) (padded : Bool) (children : Nat) :
    (children ≠ 0 → align4 (laid key.stop value.bytes.length) + children ≤ blockSize key value padded children) ∧
      blockSize key value padded children ≤ align4 (align4 (laid key.stop value.bytes.length) + children) := by
  have size := block_size_ge key value padded children
  refine ⟨fun some => ?_, ?_⟩
  · rwa [laid, if_neg some] at size
  · rw [align4_laid, blockSize]
    cases padded with
    | false => exact align4_ge _
    | true => exact Nat.le_refl _

mutual
theorem visit_tree {σ : Type} (note : Nat → Nat → Block → σ → σ) (bytes : List UInt8) (fill : UInt8) (tree : Tree) (fits : tree.Fits)
    (levels depth off limit : Nat) (low : tree.height ≤ levels) (level : depth + levels = maxVersionDepth) (aligned : off % 4 = 0)
    (room : off + tree.size ≤ limit) (holds : Holds bytes off (tree.spell fill)) (budget : Nat) (state : σ)
    (enough : (tree.places depth off).length ≤ budget) :
    visitBlocks note bytes levels off limit (budget, state) =
      (budget - (tree.places depth off).length, record note (tree.places depth off) state) := by
  cases tree with
  | node key value padded children =>
      cases levels with
      | zero => exact absurd low (Nat.not_succ_le_zero _)
      | succ levels =>
          have wide := tree_size_ge (.node key value padded children)
          have read := read_block_laid fill key depth aligned holds fits.1 fits.2.1 room
          have deep : maxVersionDepth - (levels + 1) = depth := by omega
          rw [Tree.places, List.length_cons] at enough
          rw [visitBlocks, if_neg (by dsimp only; omega), read, deep]
          dsimp only
          have first : align4 (off + align4 key.stop + value.bytes.length) = off + align4 (laid key.stop value.bytes.length) := by
            rw [Nat.add_assoc, align4_add _ aligned, align4_laid]
          have shape := block_size_children key value padded children.size
          have placed : children.size ≠ 0 → Holds bytes (off + align4 (laid key.stop value.bytes.length)) (children.spell fill) := by
            intro some
            have back := holds_behind_back bytes off
              (fun nothing => some (by rw [← forest_spell_length, nothing, List.length_nil]))
              (Extents.holds_append_left bytes off _ _ holds)
            rwa [behind_length, block_head_length] at back
          have below := visit_forest note bytes fill children fits.2.2 levels (depth + 1) (off + align4 (laid key.stop value.bytes.length))
            (off + blockSize key value padded children.size) (Nat.le_of_succ_le_succ low) (by omega)
            (by have grouped := align4_mod (laid key.stop value.bytes.length); omega)
            (fun some => by have inside := shape.1 some; omega)
            (by rw [Nat.add_assoc, align4_add _ aligned]; exact Nat.add_le_add_left shape.2 off) placed
            (budget - 1) (note depth off (Place.block { depth, off, tree := .node key value padded children }) state) (by omega)
          rw [← first] at below
          refine below.trans ?_
          rw [first, Tree.places, List.length_cons, record, record, List.foldl_cons]
          dsimp only
          rw [Nat.sub_sub, Nat.add_comm 1]
theorem visit_forest {σ : Type} (note : Nat → Nat → Block → σ → σ) (bytes : List UInt8) (fill : UInt8) (forest : Forest)
    (fits : forest.Fits) (levels depth child stop : Nat) (low : forest.height ≤ levels) (level : depth + levels = maxVersionDepth)
    (aligned : child % 4 = 0) (room : forest.size ≠ 0 → child + forest.size ≤ stop) (ended : stop ≤ align4 (child + forest.size))
    (holds : forest.size ≠ 0 → Holds bytes child (forest.spell fill)) (budget : Nat) (state : σ)
    (enough : (forest.places depth child).length ≤ budget) :
    walkChildren (fun child => visitBlocks note bytes levels child stop) bytes stop child (budget, state) =
      (budget - (forest.places depth child).length, record note (forest.places depth child) state) := by
  cases forest with
  | nil =>
      have past : ¬ child + 6 ≤ stop := by
        have same := align4_add 0 aligned
        rw [Forest.size, same] at ended
        exact Nat.not_le.mpr (Nat.lt_of_le_of_lt ended (Nat.lt_add_of_pos_right (by decide)))
      rw [walkChildren, if_neg past]
      rfl
  | cons first rest =>
      have wide := tree_size_ge first
      have long : first.size ≤ (Forest.cons first rest).size := laid_ge first.size rest.size
      have stands := holds (by omega)
      have within := room (by omega)
      have here := holds_behind_front bytes child stands
      have grouped := align4_mod first.size
      have inside : rest.size ≠ 0 → child + align4 first.size + rest.size ≤ stop := by
        intro some
        rw [Forest.size, laid, if_neg some] at within
        omega
      have after : rest.size ≠ 0 → Holds bytes (child + align4 first.size) (rest.spell fill) := by
        intro some
        have back := holds_behind_back bytes child
          (fun nothing => some (by rw [← forest_spell_length, nothing, List.length_nil])) stands
        rwa [tree_spell_length] at back
      have closed : stop ≤ align4 (child + align4 first.size + rest.size) := by
        rwa [Nat.add_assoc, align4_add _ aligned, align4_laid, ← align4_add _ aligned]
      rw [Forest.places, List.length_append] at enough
      rw [walkChildren, if_pos (by omega), read_tree_length fits.1 here]
      dsimp only
      rw [if_neg (by omega), visit_tree note bytes fill first fits.1 levels depth child stop (Nat.le_trans (Nat.le_max_left _ _) low) level
        aligned (by omega) here budget state (by omega), align4_add first.size aligned]
      rw [visit_forest note bytes fill rest fits.2 levels depth (child + align4 first.size) stop (Nat.le_trans (Nat.le_max_right _ _) low) level
        (by omega) inside closed after _ _ (by omega), Forest.places, List.length_append, record, record, record, List.foldl_append,
        Nat.sub_sub]
end

theorem record_offsets (places : List Place) (offsets : List Nat) : record noteOffset places offsets = offsets ++ places.map Place.off := by
  induction places generalizing offsets with
  | nil => exact (List.append_nil _).symm
  | cons place places ih =>
      refine (ih _).trans ?_
      simp only [noteOffset, List.append_assoc, List.singleton_append, List.map_cons]

def Block.offer (name : String) (block : Block) : Option (String × Nat) :=
  match block.value with
  | none => none
  | some data =>
      if block.key = name ∧ block.wType = 1 ∧ 2 ≤ data.length then some (utf16Lossy (utf16UntilNul data), block.valueOff) else none

theorem string_field_index (index : Nat) (key : String) :
    (stringFields.findIdx? fun name => name = key) = some index ↔ stringFields[index]? = some key := by
  have apart : stringFields.Nodup := by decide +kernel
  rw [List.findIdx?_eq_some_iff_getElem, List.getElem?_eq_some_iff]
  constructor
  · rintro ⟨inside, same, -⟩
    exact ⟨inside, of_decide_eq_true same⟩
  · intro ⟨inside, same⟩
    refine ⟨inside, decide_eq_true same, fun earlier before found => ?_⟩
    have twice : earlier = index := apart.getElem_inj_iff.mp ((of_decide_eq_true found).trans same.symm)
    exact absurd twice (Nat.ne_of_lt before)

theorem map_or_none (slot : Option (Option (String × Nat))) : slot.map (fun held => held.or none) = slot := by
  cases slot with
  | none => rfl
  | some held => rw [Option.map_some, Option.or_none]

theorem note_string_slot (block : Block) (info : VersionInfo) (index : Nat) (name : String) (field : stringFields[index]? = some name) :
    (noteString block info).strings[index]? = info.strings[index]?.map fun slot => slot.or (block.offer name) := by
  by_cases same : block.key = name
  · rw [noteString, (string_field_index index block.key).mpr (same ▸ field), Block.offer]
    cases block.value with
    | none => exact (map_or_none _).symm
    | some data =>
        dsimp only
        by_cases good : block.wType = 1 ∧ 2 ≤ data.length
        · have offered : block.key = name ∧ block.wType = 1 ∧ 2 ≤ data.length := ⟨same, good⟩
          simp only [if_pos offered]
          cases held : info.strings[index]? with
          | none => rw [if_neg (fun all => by cases all.2.1), held, Option.map_none]
          | some slot =>
              cases slot with
              | none =>
                  obtain ⟨inside, -⟩ := List.getElem?_eq_some_iff.mp held
                  rw [if_pos ⟨good.1, rfl, good.2⟩, List.getElem?_set_self inside, Option.map_some, Option.none_or]
              | some entry =>
                  rw [if_neg (fun all => by cases all.2.1), held, Option.map_some, Option.some_or]
        · rw [if_neg (fun all => good ⟨all.1, all.2.2⟩), if_neg (fun all => good all.2), map_or_none]
  · have nothing : block.offer name = none := by
      rw [Block.offer]
      cases block.value with
      | none => rfl
      | some data => exact if_neg fun all => same all.1
    rw [nothing, map_or_none, noteString]
    cases found : stringFields.findIdx? fun name => name = block.key with
    | none => rfl
    | some other =>
        have apart : other ≠ index := by
          intro equal
          rw [string_field_index, equal, field] at found
          exact same (Option.some.inj found).symm
        cases block.value with
        | none => rfl
        | some data =>
            dsimp only
            split
            · exact List.getElem?_set_ne apart
            · rfl

theorem note_fixed_strings (bytes : List UInt8) (depth : Nat) (block : Block) (info : VersionInfo) :
    (noteFixed bytes depth block info).strings = info.strings := by
  unfold noteFixed
  split
  · rfl
  · rfl

theorem record_slot (bytes : List UInt8) (places : List Place) (info : VersionInfo) (index : Nat) (name : String)
    (field : stringFields[index]? = some name) :
    (record (noteInfo bytes) places info).strings[index]? =
      info.strings[index]?.map fun slot => slot.or (places.findSome? fun place => place.block.offer name) := by
  induction places generalizing info with
  | nil => exact (map_or_none _).symm
  | cons place places ih =>
      refine (ih _).trans ?_
      dsimp only [noteInfo]
      rw [note_string_slot _ _ index name field, note_fixed_strings, Option.map_map, List.findSome?_cons]
      refine congrArg (fun change => info.strings[index]?.map change) (funext fun slot => ?_)
      rw [Function.comp_apply, Option.or_assoc]
      cases place.block.offer name with
      | none => rw [Option.none_or]
      | some entry => rw [Option.some_or]

def Place.text (name : String) (place : Place) : Option (String × Nat) :=
  match place.tree with
  | .node key (.text units) _ _ =>
      if unitText key.units = name ∧ units ≠ [] then
        some (unitText (units.takeWhile fun unit => unit ≠ 0), place.off + align4 key.stop)
      else none
  | .node _ (.binary _) _ _ => none

theorem unit_bytes_append (front back : List UInt16) : unitBytes (front ++ back) = unitBytes front ++ unitBytes back := List.flatMap_append

theorem utf16_until_nul_text (units : List UInt16) :
    utf16UntilNul (unitBytes units) = unitBytes (units.takeWhile fun unit => unit ≠ 0) := by
  have spelled : unitBytes units = unitBytes (units.takeWhile fun unit => unit ≠ 0) ++ unitBytes (units.dropWhile fun unit => unit ≠ 0) := by
    rw [← unit_bytes_append, List.takeWhile_append_dropWhile]
  have same : ((fun unit : Nat => decide (unit ≠ 0)) ∘ UInt16.toNat) = fun unit : UInt16 => decide (unit ≠ 0) := by
    funext unit
    exact decide_eq_decide.mpr (not_congr ⟨fun zero => UInt16.toNat_inj.mp zero, fun zero => congrArg UInt16.toNat zero⟩)
  rw [utf16UntilNul, utf16_units_unit_bytes, List.takeWhile_map, List.length_map, same]
  rw [spelled]
  exact List.take_left' (unit_bytes_length _)

theorem offer_text (name : String) (place : Place) : place.block.offer name = place.text name := by
  obtain ⟨depth, off, tree⟩ := place
  cases tree with
  | node key value padded children =>
      have size := Nat.le_trans (laid_ge _ children.size) (block_size_ge key value padded children.size)
      rw [Block.offer, Place.block, Place.text]
      cases value with
      | binary bytes =>
          split
          · rfl
          · exact if_neg fun all => by cases all.2.1
      | text units =>
          dsimp only
          by_cases nothing : units = []
          · have absent : ¬(unitText key.units = name ∧ units ≠ []) := fun both => both.2 nothing
            rw [if_neg absent]
            split
            · rfl
            · next data read =>
                refine if_neg fun all => ?_
                rw [Option.ite_none_right_eq_some, Option.some.injEq] at read
                rw [← read.2, nothing] at all
                exact absurd all.2.2 (by decide)
          · have long : 2 ≤ (unitBytes units).length := by
              have some := mt List.length_eq_zero_iff.mp nothing
              rw [unit_bytes_length]
              omega
            have fits : align4 key.stop + (Value.text units).bytes.length ≤ blockSize key (.text units) padded children.size := by
              have some : (unitBytes units).length ≠ 0 := by omega
              rwa [laid, Value.bytes, if_neg some] at size
            rw [if_pos fits]
            dsimp only
            rw [Value.bytes, utf16_until_nul_text, utf16_lossy_key]
            by_cases same : unitText key.units = name
            · rw [if_pos ⟨same, rfl, long⟩, if_pos ⟨same, nothing⟩]
            · rw [if_neg (fun all => same all.1), if_neg (fun both => same both.1)]

def dwordBytes (number : Nat) : List UInt8 := (BigEndian.octetsOf 4 number).reverse

structure FixedFileInfo.Fits (info : FixedFileInfo) : Prop where
  fileFlagsMask : info.fileFlagsMask < 2 ^ 32
  fileFlags : info.fileFlags < 2 ^ 32
  fileOs : info.fileOs < 2 ^ 32
  fileType : info.fileType < 2 ^ 32
  fileSubtype : info.fileSubtype < 2 ^ 32

structure FixedValue where
  info : FixedFileInfo
  fits : info.Fits
  versions : List UInt8
  versionsLength : versions.length = 20
  dates : List UInt8
  datesLength : dates.length = 8

def FixedValue.bytes (fixed : FixedValue) : List UInt8 :=
  dwordBytes fixedFileInfoSignature ++ (fixed.versions ++ (dwordBytes fixed.info.fileFlagsMask ++ (dwordBytes fixed.info.fileFlags ++
    (dwordBytes fixed.info.fileOs ++ (dwordBytes fixed.info.fileType ++ (dwordBytes fixed.info.fileSubtype ++ fixed.dates))))))

structure Resource where
  key : Key
  fixed : FixedValue
  padded : Bool
  children : Forest

def Resource.tree (resource : Resource) : Tree := .node resource.key (.binary resource.fixed.bytes) resource.padded resource.children

theorem dword_bytes_length (number : Nat) : (dwordBytes number).length = 4 := by
  rw [dwordBytes, List.length_reverse, BigEndian.octets_of_length]

theorem fixed_bytes_length (fixed : FixedValue) : fixed.bytes.length = fixedFileInfoLen := by
  simp only [FixedValue.bytes, List.length_append, dword_bytes_length, fixed.versionsLength, fixed.datesLength, fixedFileInfoLen]

theorem u32le_holds {bytes : List UInt8} {number : Nat} {after : List UInt8} (small : number < 2 ^ 32)
    (holds : Holds bytes position (dwordBytes number ++ after)) :
    u32le bytes position = some number ∧ Holds bytes (position + 4) after := by
  have here := Extents.holds_append_left bytes position _ _ holds
  have inside := Extents.holds_inside bytes position _ here
  have slice := Extents.holds_slice bytes position _ here
  have next := Extents.holds_append_right bytes position _ _ holds
  rw [dword_bytes_length] at inside slice next
  refine ⟨?_, next⟩
  rw [u32le, Bytes.arrayAt, if_pos inside, slice, Option.map_some, dwordBytes, List.reverse_reverse,
    BigEndian.value_octets_of 4 number small]

theorem read_fixed_laid {fixed : FixedValue} {bytes : List UInt8} (holds : Holds bytes position fixed.bytes) :
    FixedFileInfo.read bytes position = some fixed.info := by
  obtain ⟨signature, holds⟩ := u32le_holds (by decide) holds
  have holds := Extents.holds_append_right bytes _ _ _ holds
  rw [fixed.versionsLength] at holds
  obtain ⟨mask, holds⟩ := u32le_holds fixed.fits.fileFlagsMask holds
  obtain ⟨flags, holds⟩ := u32le_holds fixed.fits.fileFlags holds
  obtain ⟨os, holds⟩ := u32le_holds fixed.fits.fileOs holds
  obtain ⟨type, holds⟩ := u32le_holds fixed.fits.fileType holds
  obtain ⟨subtype, -⟩ := u32le_holds fixed.fits.fileSubtype holds
  rw [FixedFileInfo.read, signature, mask, flags, os, type, subtype]
  rfl

mutual
theorem tree_places_depth (depth off : Nat) (tree : Tree) : ∀ place ∈ tree.places depth off, depth ≤ place.depth := by
  cases tree with
  | node key value padded children =>
      intro place member
      rcases List.mem_cons.mp member with rfl | below
      · exact Nat.le_refl depth
      · exact Nat.le_of_succ_le (forest_places_depth (depth + 1) _ children place below)
theorem forest_places_depth (depth off : Nat) (forest : Forest) : ∀ place ∈ forest.places depth off, depth ≤ place.depth := by
  cases forest with
  | nil => exact fun place member => absurd member List.not_mem_nil
  | cons first rest =>
      intro place member
      rcases List.mem_append.mp member with here | after
      · exact tree_places_depth depth off first place here
      · exact forest_places_depth depth _ rest place after
end

theorem record_fixed (bytes : List UInt8) (places : List Place) (below : ∀ place ∈ places, 1 ≤ place.depth) (info : VersionInfo) :
    (record (noteInfo bytes) places info).fixed = info.fixed := by
  induction places generalizing info with
  | nil => rfl
  | cons place places ih =>
      have deep := below place List.mem_cons_self
      refine (ih (fun other member => below other (List.mem_cons_of_mem _ member)) _).trans ?_
      dsimp only [noteInfo]
      rw [note_string_fixed, noteFixed, if_neg (fun all => by rw [all.1] at deep; cases deep)]

theorem record_root_fixed {resource : Resource} {bytes : List UInt8}
    (holds : Holds bytes off (resource.tree.spell fill)) :
    (record (noteInfo bytes) (resource.tree.places 0 off) empty).fixed = some resource.fixed.info := by
  have long := fixed_bytes_length resource.fixed
  have whole : resource.fixed.bytes ≠ [] := fun nothing => by
    rw [nothing] at long
    cases long
  have value := holds_value fill resource.key holds whole
  have fits : align4 resource.key.stop + (Value.binary resource.fixed.bytes).bytes.length ≤
      blockSize resource.key (.binary resource.fixed.bytes) resource.padded resource.children.size := by
    have size := Nat.le_trans (laid_ge _ resource.children.size)
      (block_size_ge resource.key (.binary resource.fixed.bytes) resource.padded resource.children.size)
    have some : (Value.binary resource.fixed.bytes).bytes.length ≠ 0 := mt List.length_eq_zero_iff.mp whole
    rwa [laid, if_neg some] at size
  rw [Resource.tree, Tree.places]
  refine (record_fixed bytes _ (forest_places_depth 1 _ resource.children) _).trans ?_
  have root : fixedFileInfoLen ≤ (Value.binary resource.fixed.bytes).bytes.length := Nat.le_of_eq long.symm
  dsimp only [noteInfo, Place.block]
  rw [note_string_fixed, if_pos fits, noteFixed, if_pos ⟨rfl, root, rfl⟩]
  rw [read_fixed_laid value]
  rfl

-- The walk over a laid out resource: every known name has the first text the
-- tree holds under it, the root its fixed info, and the blocks read are the
-- tree's blocks.
theorem read_version_layout (resource : Resource) (fill : UInt8) (bytes : List UInt8) (off limit : Nat) (fits : resource.tree.Fits)
    (low : resource.tree.height ≤ maxVersionDepth) (few : (resource.tree.places 0 off).length ≤ maxVersionNodes)
    (aligned : off % 4 = 0) (holds : Holds bytes off (resource.tree.spell fill)) (room : off + resource.tree.size ≤ limit) :
    (readVersion bytes off limit maxVersionNodes).fixed = some resource.fixed.info ∧
      (∀ (index : Nat) (name : String), stringFields[index]? = some name →
        (readVersion bytes off limit maxVersionNodes).strings[index]? =
          some ((resource.tree.places 0 off).findSome? (Place.text name))) ∧
      blocksRead bytes off limit = (resource.tree.places 0 off).map Place.off := by
  have visits := walk_visits bytes maxVersionDepth off limit (maxVersionNodes, empty)
  rw [visit_tree (noteInfo bytes) bytes fill resource.tree fits maxVersionDepth 0 off limit low (Nat.zero_add _) aligned room holds
    maxVersionNodes empty few] at visits
  have reading : readVersion bytes off limit maxVersionNodes = record (noteInfo bytes) (resource.tree.places 0 off) empty :=
    congrArg Walk.info visits
  rw [reading]
  refine ⟨?_, fun index name field => ?_, ?_⟩
  · exact record_root_fixed holds
  · obtain ⟨inside, -⟩ := List.getElem?_eq_some_iff.mp field
    have vacant : empty.strings[index]? = some none := by
      rw [empty, List.getElem?_map, List.getElem?_eq_getElem inside, Option.map_some]
    rw [record_slot bytes _ _ index name field, vacant, Option.map_some, Option.none_or]
    exact congrArg (fun offer => some ((resource.tree.places 0 off).findSome? offer)) (funext (offer_text name))
  · rw [blocksRead, visit_tree noteOffset bytes fill resource.tree fits maxVersionDepth 0 off limit low (Nat.zero_add _) aligned room holds
      maxVersionNodes [] few]
    exact record_offsets _ _

def commentsKey : Key := { units := [67, 111, 109, 109, 101, 110, 116, 115], terminated := by decide }

def commented : Resource where
  key := { units := [86], terminated := by decide }
  fixed :=
    { info := { fileFlagsMask := 63, fileFlags := 0, fileOs := 4, fileType := 1, fileSubtype := 0 }
      fits := { fileFlagsMask := by decide, fileFlags := by decide, fileOs := by decide, fileType := by decide, fileSubtype := by decide }
      versions := List.replicate 20 0
      versionsLength := rfl
      dates := List.replicate 8 0
      datesLength := rfl }
  padded := false
  children := .cons (.node commentsKey (.text [72, 105, 0]) true .nil) .nil

theorem read_version_layout_commented :
    (readVersion (commented.tree.spell 0) 0 96 maxVersionNodes).strings[0]? = some (some ("Hi", 88)) ∧
      blocksRead (commented.tree.spell 0) 0 96 = [0, 64] := by
  have small : commented.tree.Fits := ⟨by decide, by decide, ⟨by decide, by decide, trivial⟩, trivial⟩
  have holds : Holds (commented.tree.spell 0) 0 (commented.tree.spell 0) := ⟨[], [], (List.append_nil _).symm, rfl⟩
  have reads := read_version_layout commented 0 (commented.tree.spell 0) 0 96 small (by decide) (by decide) (by decide) holds (by decide)
  exact ⟨(reads.2.1 0 "Comments" rfl).trans (by decide +kernel), reads.2.2⟩

end Filefacts.PeVersion
