import Filefacts.Lib.Leb128
import Mathlib.Tactic.Ring

set_option autoImplicit false

namespace Filefacts.Wasm

structure Reader where
  bytes : List UInt8
  pos : Nat
  deriving DecidableEq, Repr

def Reader.byte (r : Reader) : Option (UInt8 × Reader) :=
  r.bytes[r.pos]?.map fun b => (b, { r with pos := r.pos + 1 })

def Reader.unsignedFrom : List Nat → UInt32 → Reader → Option (UInt32 × Reader)
  | [], _, _ => none
  | shift :: shifts, n, r =>
      match r.byte with
      | none => none
      | some (b, r) =>
          if shift = 28 ∧ b &&& 0xf0 ≠ 0 then none
          else
            let n := n ||| ((b &&& 0x7f).toUInt32 <<< UInt32.ofNat shift)
            if b &&& 0x80 = 0 then some (n, r) else unsignedFrom shifts n r

def Reader.unsigned (r : Reader) : Option (UInt32 × Reader) := r.unsignedFrom (List.range' 0 5 7) 0

def Reader.signedFrom : List Nat → UInt32 → Reader → Option (Int32 × Reader)
  | [], _, _ => none
  | shift :: shifts, n, r =>
      match r.byte with
      | none => none
      | some (b, r) =>
          if shift = 28 ∧ ¬ (b &&& 0x78 = 0 ∨ b &&& 0x78 = 0x78) then none
          else
            let n := n ||| ((b &&& 0x7f).toUInt32 <<< UInt32.ofNat shift)
            if b &&& 0x80 = 0 then
              let bits := shift + 7
              let n := if bits < 32 ∧ b &&& 0x40 ≠ 0 then n ||| ((0xffffffff : UInt32) <<< UInt32.ofNat bits) else n
              some (n.toInt32, r)
            else signedFrom shifts n r

def Reader.signed (r : Reader) : Option (Int32 × Reader) := r.signedFrom (List.range' 0 5 7) 0

def Reader.past (r : Reader) (spelling : List UInt8) : Reader := { r with pos := r.pos + spelling.length }

variable (r : Reader) (b : UInt8) (tail : List UInt8) (n : UInt32)

theorem byte_reads (ahead : r.bytes.drop r.pos = b :: tail) :
    r.byte = some (b, r.past [b]) ∧ (r.past [b]).bytes.drop (r.past [b]).pos = tail := by
  have standing : r.bytes[r.pos]? = some b := by
    rw [← List.head?_drop, ahead, List.head?_cons]
  constructor
  · rw [Reader.byte, standing]
    rfl
  · change r.bytes.drop (r.pos + 1) = tail
    rw [← List.tail_drop, ahead, List.tail_cons]

theorem byte_ends (ahead : r.bytes.drop r.pos = []) : r.byte = none := by
  rw [Reader.byte, List.getElem?_eq_none (List.drop_eq_nil_iff.mp ahead)]
  rfl

theorem every_octet (p : UInt8 → Prop) [DecidablePred p] (all : ∀ k : Fin 256, p (UInt8.ofNat k)) (b : UInt8) : p b := by
  have one := all ⟨b.toNat, b.toNat_lt⟩
  rwa [UInt8.ofNat_toNat] at one

theorem payload_value : (b &&& 0x7f).toNat = b.toNat % 2 ^ 7 :=
  every_octet (fun b => (b &&& 0x7f).toNat = b.toNat % 2 ^ 7) (by decide +kernel) b

theorem stops_iff : b &&& 0x80 = 0 ↔ b.toNat < 2 ^ 7 :=
  every_octet (fun b => b &&& 0x80 = 0 ↔ b.toNat < 2 ^ 7) (by decide +kernel) b

theorem fifth_unsigned_iff : b &&& 0xf0 = 0 ↔ b.toNat < 2 ^ 4 :=
  every_octet (fun b => b &&& 0xf0 = 0 ↔ b.toNat < 2 ^ 4) (by decide +kernel) b

theorem fifth_signed_iff :
    (b &&& 0x78 = 0 ∨ b &&& 0x78 = 0x78) ↔ b.toNat % 2 ^ 7 < 2 ^ 3 ∨ 2 ^ 7 ≤ b.toNat % 2 ^ 7 + 2 ^ 3 :=
  every_octet (fun b => (b &&& 0x78 = 0 ∨ b &&& 0x78 = 0x78) ↔ b.toNat % 2 ^ 7 < 2 ^ 3 ∨ 2 ^ 7 ≤ b.toNat % 2 ^ 7 + 2 ^ 3)
    (by decide +kernel) b

theorem negative_iff : b &&& 0x40 = 0 ↔ b.toNat % 2 ^ 7 < 2 ^ 6 :=
  every_octet (fun b => b &&& 0x40 = 0 ↔ b.toNat % 2 ^ 7 < 2 ^ 6) (by decide +kernel) b

-- A word that is or-ed above the bits in use is added; what does not fit in 32 bits is dropped.
theorem or_shifted (word : UInt32) (shift : Nat) (inside : shift < 32) (low : n.toNat < 2 ^ shift) :
    (n ||| (word <<< UInt32.ofNat shift)).toNat = n.toNat + 2 ^ shift * (word.toNat % 2 ^ (32 - shift)) := by
  have small : (UInt32.ofNat shift).toNat % 32 = shift := by
    rw [UInt32.toNat_ofNat_of_lt' (Nat.lt_trans inside (by decide)), Nat.mod_eq_of_lt inside]
  have cut : word.toNat <<< shift % 2 ^ 32 = (word.toNat % 2 ^ (32 - shift)) <<< shift := by
    have width : (2 : Nat) ^ 32 = 2 ^ shift * 2 ^ (32 - shift) := by
      rw [← Nat.pow_add, Nat.add_sub_cancel' (Nat.le_of_lt inside)]
    rw [Nat.shiftLeft_eq, Nat.shiftLeft_eq, Nat.mul_comm, width, Nat.mul_mod_mul_left, Nat.mul_comm]
  rw [UInt32.toNat_or, UInt32.toNat_shiftLeft, small, cut, Nat.or_comm, ← Nat.shiftLeft_add_eq_or_of_lt low, Nat.shiftLeft_eq,
    Nat.mul_comm, Nat.add_comm]

theorem cast_signed : n.toInt32.toInt = if n.toNat < 2 ^ 31 then (n.toNat : Int) else n.toNat - 2 ^ 32 := by
  have reading := BitVec.toInt_eq_toNat_cond n.toBitVec
  by_cases low : n.toNat < 2 ^ 31
  · have half : 2 * n.toBitVec.toNat < 2 ^ 32 := by
      rw [UInt32.toNat_toBitVec]
      omega
    rw [if_pos half] at reading
    rw [if_pos low]
    exact reading
  · have half : ¬ 2 * n.toBitVec.toNat < 2 ^ 32 := by
      rw [UInt32.toNat_toBitVec]
      omega
    rw [if_neg half] at reading
    rw [if_neg low]
    exact reading

def Reader.Spells (r : Reader) (spelled : List UInt8 → Prop) (next : Reader) : Prop :=
  ∃ spelling, spelled spelling ∧ spelling <+: r.bytes.drop r.pos ∧ next = r.past spelling

variable (next : Reader) (count : Nat)

variable (spelled : List UInt8 → Prop) (start : Nat)

theorem spells_end (ahead : r.bytes.drop r.pos = []) (some_octet : ¬ spelled []) : ¬ r.Spells spelled next := by
  rintro ⟨spelling, spells, inside, -⟩
  rw [ahead, List.prefix_nil] at inside
  exact some_octet (inside ▸ spells)

theorem spells_cons (b : UInt8) (tail : List UInt8)
    (ahead : r.bytes.drop r.pos = b :: tail) (some_octet : ¬ spelled []) :
    r.Spells spelled next ↔ (r.past [b]).Spells (fun spelling => spelled (b :: spelling)) next := by
  have behind := (byte_reads r b tail ahead).2
  have further : ∀ spelling : List UInt8, (r.past [b]).past spelling = r.past (b :: spelling) := fun spelling => by
    simp only [Reader.past, List.length_cons, List.length_nil, Reader.mk.injEq, true_and]
    omega
  constructor
  · rintro ⟨spelling, spells, inside, rfl⟩
    rw [ahead, List.prefix_cons_iff] at inside
    rcases inside with rfl | ⟨others, rfl, inside⟩
    · exact absurd spells some_octet
    · exact ⟨others, spells, behind ▸ inside, (further others).symm⟩
  · rintro ⟨spelling, spells, inside, rfl⟩
    rw [behind] at inside
    refine ⟨b :: spelling, spells, ?_, further spelling⟩
    rw [ahead, List.cons_prefix_cons]
    exact ⟨rfl, inside⟩

theorem unsigned_turn (shift : Nat) (shifts : List Nat) (n : UInt32)
    (ahead : r.bytes.drop r.pos = b :: tail) : r.unsignedFrom (shift :: shifts) n =
      if shift = 28 ∧ 2 ^ 4 ≤ b.toNat then none
      else if b.toNat < 2 ^ 7 then some (n ||| ((b &&& 0x7f).toUInt32 <<< UInt32.ofNat shift), r.past [b])
      else (r.past [b]).unsignedFrom shifts (n ||| ((b &&& 0x7f).toUInt32 <<< UInt32.ofNat shift)) := by
  rw [Reader.unsignedFrom, (byte_reads r b tail ahead).1]
  have unused : (shift = 28 ∧ b &&& 0xf0 ≠ 0) = (shift = 28 ∧ 2 ^ 4 ≤ b.toNat) := by
    rw [ne_eq, fifth_unsigned_iff, Nat.not_lt]
  have stops : (b &&& 0x80 = 0) = (b.toNat < 2 ^ 7) := propext (stops_iff b)
  simp only [unused, stops]

theorem signed_turn (shift : Nat) (shifts : List Nat) (n : UInt32)
    (ahead : r.bytes.drop r.pos = b :: tail) : r.signedFrom (shift :: shifts) n =
      if shift = 28 ∧ ¬ (b.toNat % 2 ^ 7 < 2 ^ 3 ∨ 2 ^ 7 ≤ b.toNat % 2 ^ 7 + 2 ^ 3) then none
      else if b.toNat < 2 ^ 7 then
        some ((if shift + 7 < 32 ∧ 2 ^ 6 ≤ b.toNat % 2 ^ 7 then
          (n ||| ((b &&& 0x7f).toUInt32 <<< UInt32.ofNat shift)) ||| ((0xffffffff : UInt32) <<< UInt32.ofNat (shift + 7))
          else n ||| ((b &&& 0x7f).toUInt32 <<< UInt32.ofNat shift)).toInt32, r.past [b])
      else (r.past [b]).signedFrom shifts (n ||| ((b &&& 0x7f).toUInt32 <<< UInt32.ofNat shift)) := by
  rw [Reader.signedFrom, (byte_reads r b tail ahead).1]
  have unused := propext (fifth_signed_iff b)
  have stops : (b &&& 0x80 = 0) = (b.toNat < 2 ^ 7) := propext (stops_iff b)
  have negative : (b &&& 0x40 ≠ 0) = (2 ^ 6 ≤ b.toNat % 2 ^ 7) := by
    rw [ne_eq, negative_iff, Nat.not_lt]
  simp only [unused, stops, negative]

theorem seven_bits_fit (turns : start + 7 * (count + 1) = 28) : 2 ^ 11 ≤ 2 ^ (32 - start) :=
  Nat.pow_le_pow_right (by decide) (by omega)

theorem added_payload (b : UInt8) {count start : Nat} (turns : start + 7 * (count + 1) = 28) (low : n.toNat < 2 ^ start) :
    (n ||| ((b &&& 0x7f).toUInt32 <<< UInt32.ofNat start)).toNat = n.toNat + 2 ^ start * (b.toNat % 2 ^ 7) := by
  have room := seven_bits_fit count start turns
  rw [or_shifted n _ start (by omega) low, UInt8.toNat_toUInt32, payload_value, Nat.mod_eq_of_lt (a := b.toNat % 2 ^ 7)]
  omega

theorem added_fits {n : Nat} (b : Nat) {start : Nat} (low : n < 2 ^ start) : n + 2 ^ start * (b % 2 ^ 7) < 2 ^ (start + 7) := by
  have bounded : b % 2 ^ 7 + 1 ≤ 2 ^ 7 := Nat.mod_lt _ (by decide)
  calc
    n + 2 ^ start * (b % 2 ^ 7) < 2 ^ start + 2 ^ start * (b % 2 ^ 7) := Nat.add_lt_add_right low _
    _ = 2 ^ start * (b % 2 ^ 7 + 1) := by rw [Nat.mul_add_one, Nat.add_comm]
    _ ≤ 2 ^ start * 2 ^ 7 := Nat.mul_le_mul_left _ bounded
    _ = 2 ^ (start + 7) := (Nat.pow_add 2 start 7).symm

theorem unsigned_ahead (b : UInt8) (tail : List UInt8) (width : Nat) (wanted : Nat → Prop)
    (ahead : r.bytes.drop r.pos = b :: tail) : (∃ high, r.Spells (Leb128.Unsigned width high) next ∧ wanted high) ↔
      (b.toNat < 2 ^ 7 ∧ b.toNat < 2 ^ width ∧ next = r.past [b] ∧ wanted b.toNat) ∨
      (2 ^ 7 ≤ b.toNat ∧ 7 < width ∧ ∃ high, (r.past [b]).Spells (Leb128.Unsigned (width - 7) high) next ∧
        wanted (2 ^ 7 * high + (b.toNat - 2 ^ 7))) := by
  have first : ∀ high, r.Spells (Leb128.Unsigned width high) next ↔
      (r.past [b]).Spells (fun spelling => Leb128.Unsigned width high (b :: spelling)) next := fun high =>
    spells_cons r next _ b tail ahead fun empty => Leb128.unsigned_ne_nil _ _ _ empty rfl
  constructor
  · rintro ⟨high, spells, holds⟩
    obtain ⟨spelling, spelled, inside, left⟩ := (first high).mp spells
    rcases (Leb128.unsigned_cons _ _ _ _).mp spelled with ⟨final, fits, rfl, same⟩ | ⟨continued, wide, above, spelled, same⟩
    · exact .inl ⟨final, fits, left, same ▸ holds⟩
    · exact .inr ⟨continued, wide, above, ⟨spelling, spelled, inside, left⟩, same ▸ holds⟩
  · rintro (⟨final, fits, left, holds⟩ | ⟨continued, wide, high, ⟨spelling, spelled, inside, left⟩, holds⟩)
    · exact ⟨_, (first _).mpr ⟨[], .last width b final fits, List.nil_prefix, left⟩, holds⟩
    · exact ⟨_, (first _).mpr ⟨spelling, .more width b high spelling continued wide spelled, inside, left⟩, holds⟩

theorem signed_ahead (b : UInt8) (tail : List UInt8) (width : Nat) (wanted : Int → Prop)
    (ahead : r.bytes.drop r.pos = b :: tail) : (∃ high, r.Spells (Leb128.Signed width high) next ∧ wanted high) ↔
      (b.toNat < 2 ^ 6 ∧ b.toNat < 2 ^ (width - 1) ∧ next = r.past [b] ∧ wanted b.toNat) ∨
      (2 ^ 6 ≤ b.toNat ∧ b.toNat < 2 ^ 7 ∧ 2 ^ 7 ≤ b.toNat + 2 ^ (width - 1) ∧ next = r.past [b] ∧
        wanted ((b.toNat : Int) - 2 ^ 7)) ∨
      (2 ^ 7 ≤ b.toNat ∧ 7 < width ∧ ∃ high, (r.past [b]).Spells (Leb128.Signed (width - 7) high) next ∧
        wanted (2 ^ 7 * high + ((b.toNat : Int) - 2 ^ 7))) := by
  have first : ∀ high, r.Spells (Leb128.Signed width high) next ↔
      (r.past [b]).Spells (fun spelling => Leb128.Signed width high (b :: spelling)) next := fun high =>
    spells_cons r next _ b tail ahead fun empty => Leb128.signed_ne_nil _ _ _ empty rfl
  constructor
  · rintro ⟨high, spells, holds⟩
    obtain ⟨spelling, spelled, inside, left⟩ := (first high).mp spells
    rcases (Leb128.signed_cons _ _ _ _).mp spelled with ⟨final, fits, rfl, same⟩ | ⟨signed, final, fits, rfl, same⟩ |
      ⟨continued, wide, above, spelled, same⟩
    · exact .inl ⟨final, fits, left, same ▸ holds⟩
    · exact .inr (.inl ⟨signed, final, fits, left, same ▸ holds⟩)
    · exact .inr (.inr ⟨continued, wide, above, ⟨spelling, spelled, inside, left⟩, same ▸ holds⟩)
  · rintro (⟨final, fits, left, holds⟩ | ⟨signed, final, fits, left, holds⟩ |
      ⟨continued, wide, high, ⟨spelling, spelled, inside, left⟩, holds⟩)
    · exact ⟨_, (first _).mpr ⟨[], .positive width b final fits, List.nil_prefix, left⟩, holds⟩
    · exact ⟨_, (first _).mpr ⟨[], .negative width b signed final fits, List.nil_prefix, left⟩, holds⟩
    · exact ⟨_, (first _).mpr ⟨spelling, .more width b high spelling continued wide spelled, inside, left⟩, holds⟩

-- Induction on the turns that are left: the bits read so far stay below the shift.
theorem unsigned_from_reads : ∀ (start : Nat) (n value : UInt32) (r next : Reader), start + 7 * count = 28 →
    n.toNat < 2 ^ start → (r.unsignedFrom (List.range' start (count + 1) 7) n = some (value, next) ↔
      ∃ high, r.Spells (Leb128.Unsigned (32 - start) high) next ∧ value.toNat = n.toNat + 2 ^ start * high) := by
  induction count with
  | zero =>
      intro start n value r next turns low
      obtain rfl : start = 28 := by omega
      cases ahead : r.bytes.drop r.pos with
      | nil =>
          rw [List.range'_succ, Reader.unsignedFrom, byte_ends r ahead]
          simp only [reduceCtorEq, false_iff, not_exists, not_and]
          intro high spells
          exact absurd spells (spells_end r next _ ahead fun empty => Leb128.unsigned_ne_nil _ _ _ empty rfl)
      | cons b tail =>
          rw [List.range'_succ, unsigned_turn r b tail _ _ _ ahead, unsigned_ahead r next b tail _ _ ahead]
          by_cases fits : b.toNat < 2 ^ 4
          · have final : b.toNat < 2 ^ 7 := by omega
            have added : (n ||| ((b &&& 0x7f).toUInt32 <<< UInt32.ofNat 28)).toNat = n.toNat + 2 ^ 28 * b.toNat := by
              rw [or_shifted n _ 28 (by decide) low, UInt8.toNat_toUInt32, payload_value]
              omega
            rw [if_neg (fun cut => by omega), if_pos final, ← added, Option.some.injEq, Prod.mk.injEq]
            constructor
            · rintro ⟨rfl, rfl⟩
              exact .inl ⟨final, fits, rfl, rfl⟩
            · rintro (⟨-, -, rfl, same⟩ | ⟨continued, -⟩)
              · exact ⟨(UInt32.toNat_inj.mp same).symm, rfl⟩
              · omega
          · rw [if_pos ⟨rfl, Nat.not_lt.mp fits⟩]
            constructor
            · intro none
              cases none
            · rintro (⟨-, inside, -⟩ | ⟨-, wide, -⟩)
              · exact absurd inside fits
              · omega
  | succ count ih =>
      intro start n value r next turns low
      have added := fun b => added_payload n b turns low
      have early : ¬ start = 28 := by omega
      cases ahead : r.bytes.drop r.pos with
      | nil =>
          rw [List.range'_succ, Reader.unsignedFrom, byte_ends r ahead]
          simp only [reduceCtorEq, false_iff, not_exists, not_and]
          intro high spells
          exact absurd spells (spells_end r next _ ahead fun empty => Leb128.unsigned_ne_nil _ _ _ empty rfl)
      | cons b tail =>
          have room := seven_bits_fit count start turns
          rw [List.range'_succ, unsigned_turn r b tail _ _ _ ahead, unsigned_ahead r next b tail _ _ ahead,
            if_neg (fun cut => early cut.1)]
          by_cases final : b.toNat < 2 ^ 7
          · have fits : b.toNat < 2 ^ (32 - start) := by omega
            have whole := added b
            rw [Nat.mod_eq_of_lt final] at whole
            rw [if_pos final, ← whole, Option.some.injEq, Prod.mk.injEq]
            constructor
            · rintro ⟨rfl, rfl⟩
              exact .inl ⟨final, fits, rfl, rfl⟩
            · rintro (⟨-, -, rfl, same⟩ | ⟨continued, -⟩)
              · exact ⟨(UInt32.toNat_inj.mp same).symm, rfl⟩
              · omega
          · have next_low := added_fits b.toNat low
            rw [← added b] at next_low
            have payload : b.toNat % 2 ^ 7 = b.toNat - 2 ^ 7 := by
              have bounded := b.toNat_lt
              omega
            have total : ∀ high : Nat, n.toNat + 2 ^ start * (b.toNat % 2 ^ 7) + 2 ^ (start + 7) * high =
                n.toNat + 2 ^ start * (2 ^ 7 * high + (b.toNat - 2 ^ 7)) := fun high => by
              rw [payload, Nat.mul_add, Nat.pow_add, Nat.mul_assoc]
              omega
            rw [if_neg final, ih (start + 7) _ value (r.past [b]) next (by omega) next_low, added b, Nat.sub_add_eq]
            simp only [total]
            constructor
            · rintro ⟨high, spells, same⟩
              exact .inr ⟨Nat.not_lt.mp final, by omega, high, spells, same⟩
            · rintro (⟨inside, -⟩ | ⟨-, -, high, spells, same⟩)
              · exact absurd inside final
              · exact ⟨high, spells, same⟩

theorem sign_extended (turns : start + 7 * (count + 1) = 28) (low : n.toNat < 2 ^ (start + 7)) :
    (n ||| ((0xffffffff : UInt32) <<< UInt32.ofNat (start + 7))).toInt32.toInt = (n.toNat : Int) - 2 ^ (start + 7) := by
  have whole := or_shifted n 0xffffffff (start + 7) (by omega) low
  have ones : (0xffffffff : UInt32).toNat = 2 ^ 32 - 1 := rfl
  have starts : start = 0 ∨ start = 7 ∨ start = 14 ∨ start = 21 := by omega
  rw [cast_signed, whole, ones]
  rcases starts with rfl | rfl | rfl | rfl
  · rw [if_neg (by omega)]
    omega
  · rw [if_neg (by omega)]
    omega
  · rw [if_neg (by omega)]
    omega
  · rw [if_neg (by omega)]
    omega

theorem unextended (bits : Nat) (inside : bits < 32) (low : n.toNat < 2 ^ bits) : n.toInt32.toInt = n.toNat := by
  have small : 2 ^ bits ≤ 2 ^ 31 := Nat.pow_le_pow_right (by decide) (by omega)
  rw [cast_signed, if_pos (by omega)]

theorem signed_fifth (b : UInt8) (low : n.toNat < 2 ^ 28) (final : b.toNat < 2 ^ 7)
    (fits : b.toNat < 2 ^ 3 ∨ 2 ^ 7 ≤ b.toNat + 2 ^ 3) :
    (n ||| ((b &&& 0x7f).toUInt32 <<< UInt32.ofNat 28)).toInt32.toInt =
      n.toNat + 2 ^ 28 * (if b.toNat < 2 ^ 3 then (b.toNat : Int) else b.toNat - 2 ^ 7) := by
  have whole := or_shifted n (b &&& 0x7f).toUInt32 28 (by decide) low
  rw [UInt8.toNat_toUInt32, payload_value, Nat.mod_eq_of_lt final] at whole
  rw [cast_signed, whole]
  rcases fits with positive | negative
  · rw [if_pos (by omega), if_pos positive]
    omega
  · rw [if_neg (by omega), if_neg (by omega)]
    omega

theorem signed_nil (n : UInt32) (value : Int32) (r next : Reader) (wanted : Int → Prop)
    (ahead : r.bytes.drop r.pos = []) : r.signedFrom (List.range' start (count + 1) 7) n = some (value, next) ↔
      ∃ high, r.Spells (Leb128.Signed (32 - start) high) next ∧ wanted high := by
  rw [List.range'_succ, Reader.signedFrom, byte_ends r ahead]
  simp only [reduceCtorEq, false_iff, not_exists, not_and]
  intro high spells
  exact absurd spells (spells_end r next _ ahead fun empty => Leb128.signed_ne_nil _ _ _ empty rfl)

theorem signed_from_reads : ∀ (start : Nat) (n : UInt32) (value : Int32) (r next : Reader), start + 7 * count = 28 →
    n.toNat < 2 ^ start → (r.signedFrom (List.range' start (count + 1) 7) n = some (value, next) ↔
      ∃ high : Int, r.Spells (Leb128.Signed (32 - start) high) next ∧ value.toInt = n.toNat + 2 ^ start * high) := by
  induction count with
  | zero =>
      intro start n value r next turns low
      obtain rfl : start = 28 := by omega
      cases ahead : r.bytes.drop r.pos with
      | nil => exact signed_nil 0 28 n value r next _ ahead
      | cons b tail =>
          rw [List.range'_succ, signed_turn r b tail _ _ _ ahead, signed_ahead r next b tail _ _ ahead]
          by_cases final : b.toNat < 2 ^ 7
          · rw [Nat.mod_eq_of_lt final]
            by_cases fits : b.toNat < 2 ^ 3 ∨ 2 ^ 7 ≤ b.toNat + 2 ^ 3
            · have read := signed_fifth n b low final fits
              rw [if_neg (fun cut => cut.2 fits), if_pos final, if_neg (fun more => by omega), Option.some.injEq, Prod.mk.injEq,
                ← Int32.toInt_inj, read]
              by_cases positive : b.toNat < 2 ^ 3
              · rw [if_pos positive]
                constructor
                · rintro ⟨same, rfl⟩
                  exact .inl ⟨by omega, positive, rfl, same.symm⟩
                · rintro (⟨-, -, rfl, same⟩ | ⟨signed, -⟩ | ⟨continued, -⟩)
                  · exact ⟨same.symm, rfl⟩
                  · omega
                  · omega
              · rw [if_neg positive]
                constructor
                · rintro ⟨same, rfl⟩
                  exact .inr (.inl ⟨by omega, final, by omega, rfl, same.symm⟩)
                · rintro (⟨-, inside, -⟩ | ⟨-, -, -, rfl, same⟩ | ⟨continued, -⟩)
                  · omega
                  · exact ⟨same.symm, rfl⟩
                  · omega
            · rw [if_pos ⟨rfl, fits⟩]
              constructor
              · intro none
                cases none
              · rintro (⟨-, inside, -⟩ | ⟨-, -, inside, -⟩ | ⟨continued, -⟩)
                · exact absurd (.inl inside) fits
                · exact absurd (.inr inside) fits
                · omega
          · rw [if_neg final]
            constructor
            · intro read
              split at read
              · cases read
              · cases read
            · rintro (⟨small, -⟩ | ⟨-, small, -⟩ | ⟨-, wide, -⟩)
              · omega
              · omega
              · omega
  | succ count ih =>
      intro start n value r next turns low
      have wide : 2 ^ 10 ≤ 2 ^ (32 - start - 1) := Nat.pow_le_pow_right (by decide) (by omega)
      cases ahead : r.bytes.drop r.pos with
      | nil => exact signed_nil (count + 1) start n value r next _ ahead
      | cons b tail =>
          have added := added_payload n b turns low
          have next_low := added_fits b.toNat low
          rw [← added] at next_low
          rw [List.range'_succ, signed_turn r b tail _ _ _ ahead, signed_ahead r next b tail _ _ ahead,
            if_neg (fun cut => by omega)]
          by_cases final : b.toNat < 2 ^ 7
          · rw [Nat.mod_eq_of_lt final] at added
            rw [if_pos final, Nat.mod_eq_of_lt final, Option.some.injEq, Prod.mk.injEq, ← Int32.toInt_inj]
            by_cases positive : b.toNat < 2 ^ 6
            · rw [if_neg (fun negative => by omega), unextended _ (start + 7) (by omega) next_low, added]
              constructor
              · rintro ⟨same, rfl⟩
                refine .inl ⟨positive, by omega, rfl, ?_⟩
                rw [← same]
                push_cast
                rfl
              · rintro (⟨-, -, rfl, same⟩ | ⟨signed, -⟩ | ⟨continued, -⟩)
                · refine ⟨?_, rfl⟩
                  rw [same]
                  push_cast
                  rfl
                · omega
                · omega
            · have read : (n.toNat + 2 ^ start * b.toNat : Nat) - (2 : Int) ^ (start + 7) =
                  n.toNat + 2 ^ start * ((b.toNat : Int) - 2 ^ 7) := by
                push_cast
                ring
              rw [if_pos ⟨by omega, Nat.not_lt.mp positive⟩, sign_extended _ count start turns next_low, added, read]
              constructor
              · rintro ⟨same, rfl⟩
                exact .inr (.inl ⟨Nat.not_lt.mp positive, final, by omega, rfl, same.symm⟩)
              · rintro (⟨inside, -⟩ | ⟨-, -, -, rfl, same⟩ | ⟨continued, -⟩)
                · omega
                · exact ⟨same.symm, rfl⟩
                · omega
          · have payload : b.toNat % 2 ^ 7 = b.toNat - 2 ^ 7 := by
              have bounded := b.toNat_lt
              omega
            have total : ∀ high : Int, ((n.toNat + 2 ^ start * (b.toNat % 2 ^ 7) : Nat) : Int) + 2 ^ (start + 7) * high =
                n.toNat + 2 ^ start * (2 ^ 7 * high + ((b.toNat : Int) - 2 ^ 7)) := fun high => by
              have below : ((b.toNat - 2 ^ 7 : Nat) : Int) = (b.toNat : Int) - 2 ^ 7 := by omega
              rw [payload, Nat.cast_add, Nat.cast_mul, below]
              push_cast
              ring
            rw [if_neg final, ih (start + 7) _ value (r.past [b]) next (by omega) next_low, added, Nat.sub_add_eq]
            simp only [total]
            constructor
            · rintro ⟨high, spells, same⟩
              exact .inr (.inr ⟨Nat.not_lt.mp final, by omega, high, spells, same⟩)
            · rintro (⟨inside, -⟩ | ⟨-, inside, -⟩ | ⟨-, -, high, spells, same⟩)
              · omega
              · omega
              · exact ⟨high, spells, same⟩

theorem reads_exactly (r next : Reader) :
    (∀ n : UInt32, r.unsigned = some (n, next) ↔
      ∃ spelling, Leb128.Unsigned 32 n.toNat spelling ∧ spelling <+: r.bytes.drop r.pos ∧
        next = { bytes := r.bytes, pos := r.pos + spelling.length }) ∧
    (∀ v : Int32, r.signed = some (v, next) ↔
      ∃ spelling, Leb128.Signed 32 v.toInt spelling ∧ spelling <+: r.bytes.drop r.pos ∧
        next = { bytes := r.bytes, pos := r.pos + spelling.length }) := by
  constructor
  · intro n
    have reads := unsigned_from_reads 4 0 0 n r next rfl (by decide)
    simp only [UInt32.toNat_zero, Nat.pow_zero, Nat.one_mul, Nat.zero_add, Nat.sub_zero] at reads
    rw [Reader.unsigned, reads]
    constructor
    · rintro ⟨high, spells, rfl⟩
      exact spells
    · intro spells
      exact ⟨n.toNat, spells, rfl⟩
  · intro v
    have reads := signed_from_reads 4 0 0 v r next rfl (by decide)
    simp only [UInt32.toNat_zero, pow_zero, one_mul, Nat.cast_zero, zero_add, Nat.sub_zero] at reads
    rw [Reader.signed, reads]
    constructor
    · rintro ⟨high, spells, rfl⟩
      exact spells
    · intro spells
      exact ⟨v.toInt, spells, rfl⟩

example : Reader.unsigned ⟨[0xff, 0x80, 0x80, 0x80, 0x00, 0x07], 0⟩ = some (127, ⟨[0xff, 0x80, 0x80, 0x80, 0x00, 0x07], 5⟩) := by
  decide +kernel

example : Reader.signed ⟨[0x80, 0x80, 0x80, 0x80, 0x78], 0⟩ = some (-2147483648, ⟨[0x80, 0x80, 0x80, 0x80, 0x78], 5⟩) := by
  decide +kernel

end Filefacts.Wasm
