import Filefacts.Cpio.Index
import Filefacts.Lib.Extents

set_option autoImplicit false

namespace Filefacts.Cpio

open Bytes (ascii checkedAdd)
open Extents (Holds)

theorem ok_bind {First Second : Type} (first : First) (next : First → Except String Second) :
    (Except.ok first >>= next) = next first := rfl

theorem bind_ok {First Second : Type} (action : Except String First) (next : First → Except String Second) (result : Second) :
    (action >>= next) = .ok result ↔ ∃ first, action = .ok first ∧ next first = .ok result := by
  cases action with
  | error message => exact ⟨fun ran => (by cases ran), fun ⟨_, ran, _⟩ => (by cases ran)⟩
  | ok first =>
      constructor
      · exact fun ran => ⟨first, rfl, ran⟩
      · rintro ⟨_, same, ran⟩
        obtain rfl := Except.ok.inj same
        exact ran

variable (radix : Nat)

theorem digit_lt (known : radix = 8 ∨ radix = 16) (b : UInt8) (is_digit : isDigit radix b = true) : digit b < radix := by
  rcases known with rfl | rfl
  · simp only [isDigit, if_pos, Bool.and_eq_true, decide_eq_true_iff, UInt8.le_iff_toNat_le, UInt8.reduceToNat] at is_digit
    simp only [digit, UInt8.le_iff_toNat_le, UInt8.reduceToNat]
    split <;> omega
  · simp only [isDigit, Nat.reduceEqDiff, if_false, Bool.and_eq_true, Bool.or_eq_true, decide_eq_true_iff,
      UInt8.le_iff_toNat_le, UInt8.reduceToNat] at is_digit
    simp only [digit, UInt8.le_iff_toNat_le, UInt8.reduceToNat]
    split
    · omega
    · split <;> omega

theorem value_fold (field : List UInt8) (total : Nat) : field.foldl (fun total b => total * radix + digit b) total =
      Nat.ofDigits radix (field.reverse.map digit) + radix ^ field.length * total := by
  induction field generalizing total with
  | nil =>
      rw [List.foldl_nil, List.reverse_nil, List.map_nil, Nat.ofDigits_nil, List.length_nil, Nat.pow_zero, Nat.one_mul,
        Nat.zero_add]
  | cons b field ih =>
      rw [List.foldl_cons, ih, List.reverse_cons, List.map_append, Nat.ofDigits_append, List.map_singleton, Nat.ofDigits_singleton,
        List.length_map, List.length_reverse, List.length_cons, Nat.pow_succ]
      ring

theorem value_eq (field : List UInt8) : value radix field = Nat.ofDigits radix (field.reverse.map digit) := by
  rw [value, value_fold, Nat.mul_zero, Nat.add_zero]

section Numerals

variable {radix width : Nat} (numeral : Numeral radix width) (known : radix = 8 ∨ radix = 16)

include known

theorem numeral_lt : numeral.number < radix ^ width := by
  have bound := Nat.ofDigits_lt_base_pow_length (b := radix) (l := numeral.octets.reverse.map digit) (by omega) (by
    intro number member
    obtain ⟨b, inside, rfl⟩ := List.mem_map.mp member
    exact digit_lt radix known b (numeral.digits b (List.mem_reverse.mp inside)))
  rwa [List.length_map, List.length_reverse, numeral.wide] at bound

theorem numeral_reads (positive : 0 < width) (small : radix ^ width ≤ 2 ^ 64) :
    number numeral.octets radix = .ok numeral.number := by
  have written : numeral.octets ≠ [] := List.ne_nil_of_length_pos (by rw [numeral.wide]; exact positive)
  have digits : numeral.octets.all (isDigit radix) = true := List.all_eq_true.mpr numeral.digits
  have bound : value radix numeral.octets < 2 ^ 64 := by
    rw [value_eq]
    exact Nat.lt_of_lt_of_le (numeral_lt numeral known) small
  rw [number, if_pos digits, if_pos ⟨written, bound⟩, value_eq, Numeral.number]

end Numerals

theorem chunks_flatten {width : Nat} {fields : List (List UInt8)} (wide : ∀ field ∈ fields, field.length = width) :
    chunks width fields.length fields.flatten = fields := by
  induction fields with
  | nil => rfl
  | cons field fields ih =>
      have first : field.length = width := wide field List.mem_cons_self
      have others := ih fun other member => wide other (List.mem_cons_of_mem _ member)
      rw [List.length_cons, chunks, List.flatten_cons, List.take_left' first, List.drop_left' first, others]

theorem numbers_read {radix width : Nat} (known : radix = 8 ∨ radix = 16) (positive : 0 < width) (small : radix ^ width ≤ 2 ^ 64)
    (numerals : List (Numeral radix width)) :
    numbers radix (numerals.map Numeral.octets) = .ok (numerals.map Numeral.number) := by
  induction numerals with
  | nil => rfl
  | cons numeral numerals ih =>
      rw [List.map_cons, numbers, numeral_reads numeral known positive small, ih]
      rfl

theorem numerals_wide {radix width : Nat} (numerals : List (Numeral radix width)) :
    ∀ field ∈ numerals.map Numeral.octets, field.length = width := by
  intro field member
  obtain ⟨numeral, _, rfl⟩ := List.mem_map.mp member
  exact numeral.wide

variable (bytes : List UInt8) (start len : Nat) (octets : List UInt8)

theorem extent_holds (holds : Holds bytes start octets)
    (wide : octets.length = len) (small : start + len < 2 ^ 64) : extent bytes start len = .ok octets := by
  have inside := Extents.holds_inside bytes start octets holds
  have slice := Extents.holds_slice bytes start octets holds
  rw [wide] at inside slice
  rw [extent, checkedAdd, if_pos small]
  simp only [Bytes.get, if_pos (And.intro (Nat.le_add_right start len) inside), Nat.add_sub_cancel_left, slice]

theorem extent_ok (read : extent bytes start len = .ok octets) :
    start + len ≤ bytes.length ∧ octets = (bytes.drop start).take len := by
  rw [extent] at read
  cases sum : checkedAdd start len with
  | none =>
      rw [sum] at read
      cases read
  | some stop =>
      obtain ⟨rfl, _⟩ := (Bytes.checked_add_some start len stop).mp sum
      simp only [sum, Bytes.get, Nat.add_sub_cancel_left] at read
      by_cases inside : start ≤ start + len ∧ start + len ≤ bytes.length
      · rw [if_pos inside] at read
        exact ⟨inside.2, (Except.ok.inj read).symm⟩
      · rw [if_neg inside] at read
        cases read

theorem extent_inside (inside : start + len ≤ bytes.length) (small : start + len < 2 ^ 64) :
    ∃ octets, extent bytes start len = .ok octets := by
  refine ⟨_, extent_holds bytes start len ((bytes.drop start).take len) ⟨bytes.take start, bytes.drop (start + len), ?_, ?_⟩ ?_ small⟩
  · rw [List.append_assoc, ← List.drop_drop, List.take_append_drop, List.take_append_drop]
  · rw [List.length_take]
    omega
  · rw [List.length_take, List.length_drop]
    omega

theorem extent_outside (outside : bytes.length < start + len) : ∃ message, extent bytes start len = .error message := by
  cases read : extent bytes start len with
  | error message => exact ⟨message, rfl⟩
  | ok octets =>
      have inside := (extent_ok bytes start len octets read).1
      omega

theorem slice_holds (field : List UInt8) (start stop : Nat) (holds : Holds octets start field)
    (wide : start + field.length = stop) : slice octets start stop = field := by
  rw [slice, ← wide, Nat.add_sub_cancel_left]
  exact Extents.holds_slice octets start field holds

open Bytes (ascii checkedAdd)
open Extents (Holds)

theorem octal_reads {width : Nat} (numeral : Numeral 8 width) (positive : 0 < width) (small : 8 ^ width ≤ 2 ^ 64) :
    number numeral.octets 8 = .ok numeral.number :=
  numeral_reads numeral (Or.inl rfl) positive small

section Portable

variable (h : Odc)

theorem odc_length : h.octets.length = 76 := by
  simp only [Odc.octets, List.length_append, Numeral.wide]
  rfl

def Odc.short : List (Numeral 8 6) := [h.dev, h.ino, h.mode, h.uid, h.gid, h.nlink, h.rdev]

theorem odc_short : slice h.octets 6 48 = (h.short.map Numeral.octets).flatten := by
  apply slice_holds
  · exact ⟨ascii "070707", h.mtime.octets ++ h.nameSize.octets ++ h.fileSize.octets, by
      simp only [Odc.octets, Odc.short, List.map_cons, List.map_nil, List.flatten_cons, List.flatten_nil, List.append_assoc,
        List.append_nil, List.nil_append], rfl⟩
  · simp only [Odc.short, List.map_cons, List.map_nil, List.flatten_cons, List.flatten_nil, List.length_append, Numeral.wide,
      List.length_nil]

variable (front back field : List UInt8) (start stop : Nat)

theorem odc_field (same : h.octets = front ++ field ++ back) (placed : front.length = start) (wide : start + field.length = stop) :
    slice h.octets start stop = field :=
  slice_holds h.octets field start stop ⟨front, back, same, placed⟩ wide

end Portable

theorem odc_header (h : Odc) : odcHeader h.octets = .ok (Head.odc h).header := by
  have checked := numbers_read (Or.inl rfl) (by decide) (by decide) h.short
  have fields := chunks_flatten (numerals_wide h.short)
  have mode : slice h.octets 18 24 = h.mode.octets :=
    odc_field h (ascii "070707" ++ h.dev.octets ++ h.ino.octets) (h.uid.octets ++ h.gid.octets ++ h.nlink.octets ++
      h.rdev.octets ++ h.mtime.octets ++ h.nameSize.octets ++ h.fileSize.octets) _ _ _
      (by simp only [Odc.octets, List.append_assoc]) (by simp only [List.length_append, Numeral.wide]; rfl)
      (by rw [h.mode.wide])
  have uid : slice h.octets 24 30 = h.uid.octets :=
    odc_field h (ascii "070707" ++ h.dev.octets ++ h.ino.octets ++ h.mode.octets) (h.gid.octets ++ h.nlink.octets ++
      h.rdev.octets ++ h.mtime.octets ++ h.nameSize.octets ++ h.fileSize.octets) _ _ _
      (by simp only [Odc.octets, List.append_assoc]) (by simp only [List.length_append, Numeral.wide]; rfl)
      (by rw [h.uid.wide])
  have gid : slice h.octets 30 36 = h.gid.octets :=
    odc_field h (ascii "070707" ++ h.dev.octets ++ h.ino.octets ++ h.mode.octets ++ h.uid.octets) (h.nlink.octets ++
      h.rdev.octets ++ h.mtime.octets ++ h.nameSize.octets ++ h.fileSize.octets) _ _ _
      (by simp only [Odc.octets, List.append_assoc]) (by simp only [List.length_append, Numeral.wide]; rfl)
      (by rw [h.gid.wide])
  have mtime : slice h.octets 48 59 = h.mtime.octets :=
    odc_field h (ascii "070707" ++ h.dev.octets ++ h.ino.octets ++ h.mode.octets ++ h.uid.octets ++ h.gid.octets ++
      h.nlink.octets ++ h.rdev.octets) (h.nameSize.octets ++ h.fileSize.octets) _ _ _
      (by simp only [Odc.octets, List.append_assoc]) (by simp only [List.length_append, Numeral.wide]; rfl)
      (by rw [h.mtime.wide])
  have nameSize : slice h.octets 59 65 = h.nameSize.octets :=
    odc_field h (ascii "070707" ++ h.dev.octets ++ h.ino.octets ++ h.mode.octets ++ h.uid.octets ++ h.gid.octets ++
      h.nlink.octets ++ h.rdev.octets ++ h.mtime.octets) h.fileSize.octets _ _ _
      (by simp only [Odc.octets, List.append_assoc]) (by simp only [List.length_append, Numeral.wide]; rfl)
      (by rw [h.nameSize.wide])
  have fileSize : slice h.octets 65 76 = h.fileSize.octets :=
    odc_field h (ascii "070707" ++ h.dev.octets ++ h.ino.octets ++ h.mode.octets ++ h.uid.octets ++ h.gid.octets ++
      h.nlink.octets ++ h.rdev.octets ++ h.mtime.octets ++ h.nameSize.octets) [] _ _ _
      (by simp only [Odc.octets, List.append_assoc, List.append_nil]) (by simp only [List.length_append, Numeral.wide]; rfl)
      (by rw [h.fileSize.wide])
  have count : (h.short.map Numeral.octets).length = 7 := rfl
  rw [count] at fields
  rw [odcHeader, odc_short, fields, checked, mode, uid, gid, mtime, nameSize, fileSize, octal_reads h.mode (by decide) (by decide),
    octal_reads h.uid (by decide) (by decide), octal_reads h.gid (by decide) (by decide), octal_reads h.mtime (by decide) (by decide),
    octal_reads h.nameSize (by decide) (by decide), octal_reads h.fileSize (by decide) (by decide)]
  rfl

section New

variable (h : Newc)

def Newc.fields : List (Numeral 16 8) :=
  [h.ino, h.mode, h.uid, h.gid, h.nlink, h.mtime, h.fileSize, h.devMajor, h.devMinor, h.rdevMajor, h.rdevMinor, h.nameSize, h.check]

def Newc.magic : List UInt8 := ascii (if h.checked then "070702" else "070701")

theorem newc_magic_length : h.magic.length = 6 := by
  rw [Newc.magic]
  cases h.checked <;> rfl

theorem newc_octets : h.octets = h.magic ++ (h.fields.map Numeral.octets).flatten := by
  simp only [Newc.octets, Newc.magic, Newc.fields, List.map_cons, List.map_nil, List.flatten_cons, List.flatten_nil,
    List.append_assoc, List.append_nil]

theorem newc_length : h.octets.length = 110 := by
  simp only [newc_octets, Newc.fields, List.map_cons, List.map_nil, List.flatten_cons, List.flatten_nil, List.length_append,
    Numeral.wide, newc_magic_length, List.length_nil]

theorem newc_header : newcHeader h.octets (if h.checked then "crc" else "newc") = .ok (Head.newc h).header := by
  have read := numbers_read (Or.inr rfl) (by decide) (by decide) h.fields
  have fields := chunks_flatten (numerals_wide h.fields)
  have count : (h.fields.map Numeral.octets).length = 13 := rfl
  rw [count] at fields
  rw [newcHeader, newc_octets, List.drop_left' (newc_magic_length h), fields, read]
  rfl

end New

theorem head_length (head : Head) : head.octets.length = head.header.size := by
  cases head with
  | odc h => exact odc_length h
  | newc h => exact newc_length h

theorem odc_magic (h : Odc) : ∃ rest, h.octets = ascii "070707" ++ rest := ⟨_, by simp only [Odc.octets, List.append_assoc]; rfl⟩

theorem read_header {offset : Nat} {head : Head} (holds : Holds bytes offset head.octets)
    (small : offset + 110 < 2 ^ 64) : readHeader bytes offset = .ok head.header := by
  cases head with
  | odc h =>
      obtain ⟨rest, begins⟩ := odc_magic h
      have whole := extent_holds bytes offset 76 h.octets holds (odc_length h) (by omega)
      have start : Holds bytes offset (ascii "070707" ++ rest) := begins ▸ holds
      have magic := extent_holds bytes offset 6 _ (Extents.holds_append_left bytes offset _ rest start) rfl (by omega)
      rw [readHeader, magic, ok_bind, if_pos rfl, whole, ok_bind]
      exact odc_header h
  | newc h =>
      have whole := extent_holds bytes offset 110 h.octets holds (newc_length h) (by omega)
      have start : Holds bytes offset (h.magic ++ (h.fields.map Numeral.octets).flatten) := newc_octets h ▸ holds
      have magic := extent_holds bytes offset 6 _ (Extents.holds_append_left bytes offset _ _ start) (newc_magic_length h) (by omega)
      have variant := newc_header h
      rw [readHeader, magic, ok_bind]
      cases checked : h.checked with
      | false =>
          have named : h.magic = ascii "070701" := by rw [Newc.magic, checked]; rfl
          rw [checked] at variant
          rw [named, if_neg (by decide), if_pos (Or.inl rfl), whole, ok_bind, if_neg (by decide)]
          exact variant
      | true =>
          have named : h.magic = ascii "070702" := by rw [Newc.magic, checked]; rfl
          rw [checked] at variant
          rw [named, if_neg (by decide), if_pos (Or.inr rfl), whole, ok_bind, if_pos rfl]
          exact variant

end Filefacts.Cpio
