import Filefacts.Lib.Keyed
import Filefacts.Lib.BigEndian

set_option autoImplicit false

namespace Filefacts.Elf

open Keyed (Map)

def maxInitArraySlots : Nat := 4096

structure NameBudget where
  left : Option Nat

def NameBudget.take (budget : NameBudget) (len : Nat) : Bool × NameBudget :=
  let left := budget.left.bind fun left => if len ≤ left then some (left - len) else none
  (left.isSome, ⟨left⟩)

inductive RelocKind where
  | relative
  | irelative
  | abs64
  | globDat
deriving DecidableEq, Repr

def RelocKind.asStr : RelocKind → String
  | .relative => "relative"
  | .irelative => "irelative"
  | .abs64 => "abs64"
  | .globDat => "glob_dat"

structure Reloc where
  rOffset : Nat
  rAddend : Option Int
  rSym : Nat
  rType : Nat

structure InitReloc where
  addend : Nat
  symIdx : Nat
  kind : RelocKind

def relocKind (rType : Nat) : Option RelocKind :=
  if rType = 8 ∨ rType = 1027 then some .relative
  else if rType = 37 ∨ rType = 1032 then some .irelative
  else if rType = 1 ∨ rType = 257 then some .abs64
  else if rType = 6 ∨ rType = 1025 then some .globDat
  else none

def castUnsigned (n : Int) : Nat := (n % 2 ^ 64).toNat

def satU32 (n : Nat) : Nat := min n (2 ^ 32 - 1)

def Reloc.addend (r : Reloc) : Nat := castUnsigned (r.rAddend.getD 0)

def initReloc (r : Reloc) (kind : RelocKind) : InitReloc := ⟨r.addend, satU32 r.rSym, kind⟩

def addReloc (out : Map Nat InitReloc) (r : Reloc) : Map Nat InitReloc :=
  match relocKind r.rType with
  | none => out
  | some kind => out.orInsert r.rOffset (initReloc r kind)

def collectInitRelocations (dynrelas pltrelocs : List Reloc) : Map Nat InitReloc :=
  (dynrelas ++ pltrelocs).foldl addReloc Map.empty

structure Sym where
  stName : Nat
  stInfo : Nat
  stValue : Nat
  fits : stValue < 2 ^ 64

structure DynsymAddressIndex where
  byAddr : Map Nat String
  byIndex : Map Nat Nat

def isFunc (sym : Sym) : Bool := sym.stInfo % 16 == 2 || sym.stInfo % 16 == 10

-- The names stand in the string table, which another crate reads.
def symName (strtab : Nat → Option String) (sym : Sym) : Option String :=
  if !isFunc sym || sym.stValue == 0 then none else (strtab sym.stName).filter (· ≠ "")

def buildFrom (strtab : Nat → Option String) : Nat → List Sym → DynsymAddressIndex → DynsymAddressIndex
  | _, [], index => index
  | i, sym :: rest, index =>
      if i = 0 then buildFrom strtab (i + 1) rest index
      else
        match symName strtab sym with
        | none => buildFrom strtab (i + 1) rest index
        | some name =>
            let byAddr := index.byAddr.orInsert sym.stValue name
            if 2 ^ 32 ≤ i then { index with byAddr }
            else buildFrom strtab (i + 1) rest { byAddr, byIndex := index.byIndex.insert i sym.stValue }

def DynsymAddressIndex.build (strtab : Nat → Option String) (dynsyms : List Sym) : DynsymAddressIndex :=
  buildFrom strtab 0 dynsyms ⟨Map.empty, Map.empty⟩

def resolveInitSlot (direct slotVa : Nat) (relocs : Map Nat InitReloc) (dynsym : DynsymAddressIndex) : Nat × Option String :=
  if direct ≠ 0 then (direct, none)
  else
    match relocs.get slotVa with
    | none => (0, none)
    | some r =>
        match r.kind with
        | .relative | .irelative => (r.addend, some r.kind.asStr)
        | .abs64 | .globDat => ((dynsym.byIndex.get r.symIdx).getD 0, some r.kind.asStr)

structure Entry where
  addr : String
  symbol : Option String
  reloc : Option String
deriving DecidableEq

def hexAddr (addr : Nat) : String := "0x" ++ String.ofList (Nat.toDigits 16 addr)

def slotWords (slotBytes : List UInt8) : List Nat :=
  (List.range (slotBytes.length / 8)).map fun i => BigEndian.value ((slotBytes.drop (8 * i)).take 8).reverse

def slotVa (shAddr i : Nat) : Nat := (shAddr + 8 * i) % 2 ^ 64

def entriesFrom (shAddr : Nat) (relocs : Map Nat InitReloc) (dynsym : DynsymAddressIndex) :
    Nat → List Nat → NameBudget → List Entry × NameBudget
  | _, [], names => ([], names)
  | i, direct :: rest, names =>
      let resolved := resolveInitSlot direct (slotVa shAddr i) relocs dynsym
      let found := dynsym.byAddr.get resolved.1
      let charged := match found with
        | none => (false, names)
        | some name => names.take name.utf8ByteSize
      let later := entriesFrom shAddr relocs dynsym (i + 1) rest charged.2
      (⟨hexAddr resolved.1, if charged.1 then found else none, resolved.2⟩ :: later.1, later.2)

def initArrayEntries (shAddr : Nat) (slotBytes : List UInt8) (relocs : Map Nat InitReloc) (dynsym : DynsymAddressIndex)
    (names : NameBudget) : List Entry × NameBudget :=
  entriesFrom shAddr relocs dynsym 0 ((slotWords slotBytes).take maxInitArraySlots) names

-- One array of an image: the address and bytes of its section, with the relocations and symbols of the image.
structure Image where
  shAddr : Nat
  slotBytes : List UInt8
  dynrelas : List Reloc
  pltrelocs : List Reloc
  dynsyms : List Sym
  strtab : Nat → Option String
  names : NameBudget

def Image.entries (image : Image) : List Entry :=
  (initArrayEntries image.shAddr image.slotBytes (collectInitRelocations image.dynrelas image.pltrelocs)
    (DynsymAddressIndex.build image.strtab image.dynsyms) image.names).1

def symbolValue (dynsyms : List Sym) (index : Nat) : Nat := (dynsyms[index]?).elim 0 Sym.stValue

def relocated (dynsyms : List Sym) (r : Reloc) (kind : RelocKind) : Nat :=
  match kind with
  | .relative | .irelative => r.addend
  | .abs64 => (symbolValue dynsyms r.rSym + r.addend) % 2 ^ 64
  | .globDat => symbolValue dynsyms r.rSym

def patch (va : Nat) (r : Reloc) : Option (Reloc × RelocKind) :=
  if r.rOffset = va then (relocKind r.rType).map fun kind => (r, kind) else none

def Image.patching (image : Image) (va : Nat) : List (Reloc × RelocKind) :=
  (image.dynrelas ++ image.pltrelocs).filterMap (patch va)

def Image.loaded (image : Image) (va stored : Nat) : Nat :=
  ((image.patching va).getLast?).elim stored fun last => relocated image.dynsyms last.1 last.2

theorem reloc_get (relocs : List Reloc) (out : Map Nat InitReloc) (key : Nat) :
    (relocs.foldl addReloc out).get key =
      (out.get key).or (((relocs.filterMap (patch key)).head?).map fun first => initReloc first.1 first.2) := by
  induction relocs generalizing out with
  | nil => exact Option.or_none.symm
  | cons r rest ih =>
      rw [List.foldl_cons, ih, addReloc]
      cases modelled : relocKind r.rType with
      | none =>
          have skipped : patch key r = none := by
            rw [patch, modelled]
            exact ite_self none
          rw [List.filterMap_cons_none skipped]
      | some kind =>
          by_cases same : r.rOffset = key
          · have taken : patch key r = some (r, kind) := by
              rw [patch, if_pos same, modelled]
              rfl
            rw [List.filterMap_cons_some taken, List.head?_cons, ← same, Map.get_or_insert_same, Option.or_assoc]
            rfl
          · rw [List.filterMap_cons_none (f := patch key) (if_neg same), Map.get_or_insert_other _ r.rOffset key _ (Ne.symm same)]

variable (image : Image) (va : Nat) (strtab : Nat → Option String)

theorem collected_get : (collectInitRelocations image.dynrelas image.pltrelocs).get va =
    ((image.patching va).head?).map fun first => initReloc first.1 first.2 := by
  rw [collectInitRelocations, reloc_get]
  rfl

def indexed (strtab : Nat → Option String) (n : Nat) (sym : Sym) : Option Nat :=
  if n = 0 then none else (symName strtab sym).map fun _ => sym.stValue

theorem build_skipped (i : Nat) (sym : Sym) (rest : List Sym) (index : DynsymAddressIndex)
    (absent : indexed strtab i sym = none) : buildFrom strtab i (sym :: rest) index = buildFrom strtab (i + 1) rest index := by
  rw [buildFrom]
  by_cases first : i = 0
  · rw [if_pos first]
  · rw [indexed, if_neg first, Option.map_eq_none_iff] at absent
    rw [if_neg first, absent]

theorem build_kept {i value : Nat} {sym : Sym} (rest : List Sym) (index : DynsymAddressIndex)
    (small : i < 2 ^ 32) (kept : indexed strtab i sym = some value) : ∃ byAddr,
      buildFrom strtab i (sym :: rest) index = buildFrom strtab (i + 1) rest ⟨byAddr, index.byIndex.insert i value⟩ := by
  by_cases first : i = 0
  · rw [indexed, if_pos first] at kept
    cases kept
  · rw [indexed, if_neg first] at kept
    obtain ⟨name, named, rfl⟩ := Option.map_eq_some_iff.mp kept
    refine ⟨index.byAddr.orInsert sym.stValue name, ?_⟩
    rw [buildFrom, if_neg first, named]
    exact if_neg (Nat.not_le.mpr small)

variable (syms dynsyms : List Sym) (shAddr : Nat) (relocs : Map Nat InitReloc) (dynsym : DynsymAddressIndex)

theorem by_index_above (i n : Nat) (above : n < i) (index : DynsymAddressIndex) :
    (buildFrom strtab i syms index).byIndex.get n = index.byIndex.get n := by
  induction syms generalizing i index with
  | nil => rw [buildFrom]
  | cons sym rest ih =>
      rw [buildFrom, if_neg (Nat.ne_zero_of_lt above)]
      split
      · exact ih (i + 1) (Nat.lt_succ_of_lt above) index
      · dsimp only
        split_ifs
        · rfl
        · rw [ih (i + 1) (Nat.lt_succ_of_lt above), Map.get_insert_other _ i n _ (ne_of_lt above)]

theorem by_index_from (i n : Nat) (small : n < 2 ^ 32) (below : i ≤ n) (index : DynsymAddressIndex) :
    (buildFrom strtab i syms index).byIndex.get n = ((syms[n - i]?).bind (indexed strtab n)).or (index.byIndex.get n) := by
  induction syms generalizing i index with
  | nil => rw [buildFrom, List.getElem?_nil, Option.bind_none, Option.none_or]
  | cons sym rest ih =>
      rcases Nat.eq_or_lt_of_le below with rfl | before
      · rw [Nat.sub_self, List.getElem?_cons_zero, Option.bind_some]
        cases kept : indexed strtab i sym with
        | none =>
            rw [build_skipped strtab i sym rest index kept, by_index_above strtab rest (i + 1) i (Nat.lt_succ_self i), Option.none_or]
        | some value =>
            obtain ⟨byAddr, next⟩ := build_kept strtab rest index small kept
            rw [next, by_index_above strtab rest (i + 1) i (Nat.lt_succ_self i), Map.get_insert_same, Option.some_or]
      · have shifted : (sym :: rest)[n - i]? = rest[n - (i + 1)]? := by
          rw [show n - i = n - (i + 1) + 1 by omega, List.getElem?_cons_succ]
        rw [shifted]
        cases kept : indexed strtab i sym with
        | none => rw [build_skipped strtab i sym rest index kept, ih (i + 1) before]
        | some value =>
            obtain ⟨byAddr, next⟩ := build_kept strtab rest index (before.trans small) kept
            rw [next, ih (i + 1) before, Map.get_insert_other _ i n value (ne_of_gt before)]

theorem by_index_get (n : Nat) (small : n < 2 ^ 32) :
    (DynsymAddressIndex.build strtab dynsyms).byIndex.get n = (dynsyms[n]?).bind (indexed strtab n) := by
  rw [DynsymAddressIndex.build, by_index_from strtab dynsyms 0 n small (Nat.zero_le n), Nat.sub_zero]
  exact Option.or_none

theorem entries_length (i : Nat) (words : List Nat)
    (names : NameBudget) : (entriesFrom shAddr relocs dynsym i words names).1.length = words.length := by
  induction words generalizing i names with
  | nil => rfl
  | cons direct rest ih => exact congrArg Nat.succ (ih (i + 1) _)

theorem entries_get (i k : Nat) (words : List Nat)
    (names : NameBudget) (stored : Nat) (slot : words[k]? = some stored) :
    ∃ symbol, (entriesFrom shAddr relocs dynsym i words names).1[k]? =
      some ⟨hexAddr (resolveInitSlot stored (slotVa shAddr (i + k)) relocs dynsym).1, symbol,
        (resolveInitSlot stored (slotVa shAddr (i + k)) relocs dynsym).2⟩ := by
  induction words generalizing i k names with
  | nil => cases slot
  | cons direct rest ih =>
      cases k with
      | zero =>
          obtain rfl := Option.some.inj slot
          exact ⟨_, rfl⟩
      | succ k =>
          obtain ⟨symbol, found⟩ := ih (i + 1) k _ slot
          refine ⟨symbol, ?_⟩
          rw [show i + (k + 1) = i + 1 + k by omega]
          exact found

-- What the reader knows of the symbol a relocation names: it is a function with a name, or its value is 0.
def Known (image : Image) (index : Nat) : Prop :=
  index < 2 ^ 32 ∧
    ((index ≠ 0 ∧ ∃ sym, image.dynsyms[index]? = some sym ∧ (symName image.strtab sym).isSome = true) ∨
      symbolValue image.dynsyms index = 0)

def Read (image : Image) (r : Reloc) : RelocKind → Prop
  | .relative | .irelative => True
  | .abs64 => Known image r.rSym ∧ r.addend = 0
  | .globDat => Known image r.rSym

theorem known_value (index : Nat) (known : Known image index) :
    ((DynsymAddressIndex.build image.strtab image.dynsyms).byIndex.get (satU32 index)).getD 0 = symbolValue image.dynsyms index := by
  obtain ⟨small, shape⟩ := known
  have same : satU32 index = index := Nat.min_eq_left (Nat.le_sub_one_of_lt small)
  rw [same, by_index_get image.strtab image.dynsyms index small]
  rcases shape with ⟨positive, sym, found, named⟩ | zero
  · obtain ⟨name, is⟩ := Option.isSome_iff_exists.mp named
    rw [symbolValue, found, Option.bind_some, indexed, if_neg positive, is]
    rfl
  · rw [zero]
    cases found : image.dynsyms[index]? with
    | none => rfl
    | some sym =>
        rw [symbolValue, found] at zero
        have value : sym.stValue = 0 := zero
        have nameless : symName image.strtab sym = none := by
          rw [symName, value, beq_self_eq_true, Bool.or_true, if_pos rfl]
        rw [Option.bind_some, indexed, nameless]
        exact congrArg (Option.getD · 0) (ite_self none)

theorem symbol_fits (index : Nat) : symbolValue dynsyms index < 2 ^ 64 := by
  rw [symbolValue]
  cases dynsyms[index]? with
  | none => exact Nat.two_pow_pos 64
  | some sym => exact sym.fits

theorem resolved_direct (stored : Nat) (relocs : Map Nat InitReloc) (dynsym : DynsymAddressIndex)
    (filled : stored ≠ 0) : resolveInitSlot stored va relocs dynsym = (stored, none) := by
  rw [resolveInitSlot, if_pos filled]

theorem resolved_first (r : Reloc) (kind : RelocKind)
    (first : (image.patching va).head? = some (r, kind)) (read : Read image r kind) :
    resolveInitSlot 0 va (collectInitRelocations image.dynrelas image.pltrelocs)
        (DynsymAddressIndex.build image.strtab image.dynsyms) =
      (relocated image.dynsyms r kind, some kind.asStr) := by
  rw [resolveInitSlot, if_neg (not_not.mpr rfl), collected_get, first]
  cases kind with
  | relative => rfl
  | irelative => rfl
  | abs64 =>
      obtain ⟨known, plain⟩ := read
      rw [relocated, plain, Nat.add_zero, Nat.mod_eq_of_lt (symbol_fits _ _), ← known_value image r.rSym known]
      rfl
  | globDat =>
      rw [relocated, ← known_value image r.rSym read]
      rfl

theorem resolved_none (unpatched : image.patching va = []) :
    resolveInitSlot 0 va (collectInitRelocations image.dynrelas image.pltrelocs) dynsym = (0, none) := by
  rw [resolveInitSlot, if_neg (not_not.mpr rfl), collected_get, unpatched]
  rfl

theorem init_array_entries_first (image : Image) :
    image.entries.length = min maxInitArraySlots (image.slotBytes.length / 8) ∧
      ∀ k stored, ((slotWords image.slotBytes).take maxInitArraySlots)[k]? = some stored →
        ∃ entry, image.entries[k]? = some entry ∧
          (stored ≠ 0 → entry.addr = hexAddr stored ∧ entry.reloc = none) ∧
          (stored = 0 → image.patching (slotVa image.shAddr k) = [] → entry.addr = hexAddr 0 ∧ entry.reloc = none) ∧
          (stored = 0 → ∀ r kind, (image.patching (slotVa image.shAddr k)).head? = some (r, kind) → Read image r kind →
            entry.addr = hexAddr (relocated image.dynsyms r kind) ∧ entry.reloc = some kind.asStr) := by
  constructor
  · rw [Image.entries, initArrayEntries, entries_length, List.length_take, slotWords, List.length_map, List.length_range]
  · intro k stored slot
    obtain ⟨symbol, found⟩ := entries_get image.shAddr (collectInitRelocations image.dynrelas image.pltrelocs)
      (DynsymAddressIndex.build image.strtab image.dynsyms) 0 k _ image.names stored slot
    rw [Nat.zero_add] at found
    refine ⟨_, found, fun filled => ?_, fun empty unpatched => ?_, fun empty r kind first read => ?_⟩
    · rw [resolved_direct _ stored _ _ filled]
      exact ⟨rfl, rfl⟩
    · subst empty
      rw [resolved_none image _ _ unpatched]
      exact ⟨rfl, rfl⟩
    · subst empty
      rw [resolved_first image _ r kind first read]
      exact ⟨rfl, rfl⟩

def decoy : Image where
  shAddr := 0
  slotBytes := [1, 0, 0, 0, 0, 0, 0, 0]
  dynrelas := [⟨0, some 2, 0, 8⟩]
  pltrelocs := []
  dynsyms := []
  strtab := fun _ => none
  names := ⟨none⟩

theorem stored_word_hides : ¬∀ (image : Image) (k stored : Nat),
    ((slotWords image.slotBytes).take maxInitArraySlots)[k]? = some stored →
      (image.entries[k]?).map Entry.addr = some (hexAddr (image.loaded (slotVa image.shAddr k) stored)) := by
  intro always
  exact absurd (always decoy 0 1 rfl) (by decide)

end Filefacts.Elf
