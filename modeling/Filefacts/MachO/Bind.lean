import Filefacts.Bytes
import Filefacts.Crx.Protobuf
import Mathlib.Tactic.IntervalCases

set_option autoImplicit false

namespace Filefacts.MachoBind

open Filefacts.Bytes (maxU64 saturatingAdd)

def maxBinds : Nat := 256 * 1024

inductive Anomaly where
  | oversized (stream : String) (binds : Nat)
  | dylibOutOfRange (stream : String) (ordinal len : Nat)
  | unknownSpecialOrdinal (stream : String) (ordinal : Int)
  | segmentOutOfRange (stream : String) (index len : Nat)
  deriving DecidableEq, Repr

structure Tables where
  dylibs : Nat
  segments : Nat

-- The octets from the offset on. The shift of a `u64` drops the bits past the 64th.
def readUleb128From : List UInt8 → Nat → Nat → Option (Nat × List UInt8)
  | [], _, _ => none
  | byte :: rest, value, shift =>
      if 64 ≤ shift then none
      else
        let value := value ||| byte.toNat % 2 ^ 7 * 2 ^ shift % 2 ^ 64
        if byte.toNat < 2 ^ 7 then some (value, rest) else readUleb128From rest value (shift + 7)

def readUleb128 (code : List UInt8) : Option (Nat × List UInt8) := readUleb128From code 0 0

def dylib (stream : String) (ordinal : Nat) (tables : Tables) : Except Anomaly Unit :=
  if ordinal ≤ tables.dylibs then .ok () else .error (.dylibOutOfRange stream ordinal tables.dylibs)

def afterNul : List UInt8 → Option (List UInt8)
  | [] => none
  | byte :: rest => if byte = 0 then some rest else afterNul rest

-- What one opcode binds, and the octets behind its operands; none where the walk stops.
def opcode (stream : String) (tables : Tables) (byte : UInt8) (rest : List UInt8) :
    Except Anomaly (Option (Nat × List UInt8)) :=
  let immediate := byte.toNat % 16
  let skip (bound : Nat) := (readUleb128 rest).map fun read => (bound, read.2)
  match byte.toNat / 16 with
  | 0x0 => .ok (if stream = "lazy" then some (0, rest) else none)
  | 0x1 => do
      dylib stream immediate tables
      return some (0, rest)
  | 0x2 =>
      match readUleb128 rest with
      | some read => do
          dylib stream read.1 tables
          return some (0, read.2)
      | none => .ok none
  | 0x3 =>
      let ordinal : Int := if immediate = 0 then 0 else immediate - 16
      if ordinal < -3 then .error (.unknownSpecialOrdinal stream ordinal) else .ok (some (0, rest))
  | 0x4 => .ok ((afterNul rest).map fun rest => (0, rest))
  | 0x5 => .ok (some (0, rest))
  | 0x6 => .ok (skip 0)
  | 0x7 =>
      if tables.segments ≤ immediate then .error (.segmentOutOfRange stream immediate tables.segments) else .ok (skip 0)
  | 0x8 => .ok (skip 0)
  | 0x9 => .ok (some (1, rest))
  | 0xA => .ok (skip 1)
  | 0xB => .ok (some (1, rest))
  | 0xC => .ok ((readUleb128 rest).bind fun count => (readUleb128 count.2).map fun skipped => (count.1, skipped.2))
  | 0xD => .ok (if immediate = 0 then skip 0 else some (0, rest))
  | _ => .ok none

-- Every turn reads an octet, so one turn for each is enough.
def walkFrom (stream : String) (tables : Tables) : Nat → List UInt8 → Nat → Except Anomaly Nat
  | turns + 1, byte :: rest, binds => do
      match ← opcode stream tables byte rest with
      | none => return binds
      | some (bound, rest) =>
          let binds := saturatingAdd binds bound
          if maxBinds < binds then .error (.oversized stream binds) else walkFrom stream tables turns rest binds
  | _, _, binds => .ok binds

def walk (code : List UInt8) (stream : String) (tables : Tables) (binds : Nat) : Except Anomaly Nat :=
  walkFrom stream tables code.length code binds

def leb : List UInt8 → Option (Nat × Nat × List UInt8)
  | [] => none
  | octet :: rest =>
      if octet.toNat < 2 ^ 7 then some (octet.toNat, 1, rest)
      else (leb rest).map fun (high, size, rest) => (2 ^ 7 * high + (octet.toNat - 2 ^ 7), size + 1, rest)

-- How a machine reads an operand, signed or not: its value and the octets behind it, the end of the stream, or in some way
-- that nothing is said of.
abbrev Operands := Bool → List UInt8 → Option (Option (Nat × List UInt8))

def anyLength : Operands := fun signed code =>
  some ((leb code).bind fun (value, _, rest) => if signed || value < 2 ^ 64 then some (value, rest) else none)

-- An operand of at most ten octets; what becomes of an unsigned one with bits past the 64th is left open.
def tenOctets : Operands := fun signed code =>
  match leb code with
  | none => some none
  | some (value, size, rest) =>
      if 10 < size then some none else if signed || value < 2 ^ 64 then some (some (value, rest)) else none

def behind (read : Option (Option (Nat × List UInt8))) (total : Nat)
    (next : Nat → List UInt8 → Option (Except Anomaly Nat)) : Option (Except Anomaly Nat) :=
  read.bind fun operand => operand.elim (some (.ok total)) fun read => next read.1 read.2

-- The reference dyld machine, on what is left of the stream and the slots bound so far.
def dyld (operand : Operands) (stream : String) (tables : Tables) : Nat → List UInt8 → Nat → Option (Except Anomaly Nat)
  | turns + 1, octet :: rest, total =>
      let next := fun rest => dyld operand stream tables turns rest total
      let binds := fun (count : Nat) rest =>
        if total + count ≤ maxBinds then dyld operand stream tables turns rest (total + count)
        else some (.error (.oversized stream (min (total + count) maxU64)))
      let through := fun (ordinal : Nat) rest =>
        if ordinal ≤ tables.dylibs then next rest else some (.error (.dylibOutOfRange stream ordinal tables.dylibs))
      let immediate := octet.toNat % 16
      match octet.toNat / 16 with
      | 0x0 => if stream = "lazy" then next rest else some (.ok total)
      | 0x1 => through immediate rest
      | 0x2 => behind (operand false rest) total through
      | 0x3 =>
          if immediate = 0 ∨ 13 ≤ immediate then next rest else some (.error (.unknownSpecialOrdinal stream (immediate - 16)))
      | 0x4 => (afterNul rest).elim (some (.ok total)) next
      | 0x5 => next rest
      | 0x6 => behind (operand true rest) total fun _ => next
      | 0x7 =>
          if immediate < tables.segments then behind (operand false rest) total fun _ => next
          else some (.error (.segmentOutOfRange stream immediate tables.segments))
      | 0x8 => behind (operand false rest) total fun _ => next
      | 0x9 => binds 1 rest
      | 0xA => behind (operand false rest) total fun _ => binds 1
      | 0xB => binds 1 rest
      | 0xC => behind (operand false rest) total fun count rest => behind (operand false rest) total fun _ => binds count
      | 0xD => if immediate = 0 then behind (operand false rest) total fun _ => next else next rest
      | _ => some (.ok total)
  | _, _, total => some (.ok total)

variable (code : List UInt8) {value : Nat}

-- The bits kept are the value's low ones; the shift is below 64 for the first ten octets.
theorem shifted_bits (bits shift : Nat) (inside : shift ≤ 63) (below : value < 2 ^ shift) :
    value ||| bits * 2 ^ shift % 2 ^ 64 = (value + 2 ^ shift * bits) % 2 ^ 64 := by
  have width : 2 ^ 64 = 2 ^ shift * 2 ^ (64 - shift) := by
    rw [← Nat.pow_add, Nat.add_sub_cancel' (by omega)]
  have cut : bits * 2 ^ shift % 2 ^ 64 = bits % 2 ^ (64 - shift) * 2 ^ shift := by
    rw [width, Nat.mul_comm (2 ^ shift), Nat.mul_mod_mul_right]
  rw [cut, Crx.or_shifted _ _ shift below, width, Nat.mod_mul, Nat.add_mul_mod_self_left, Nat.mod_eq_of_lt below,
    Nat.add_mul_div_left _ _ (Nat.two_pow_pos shift), Nat.div_eq_of_lt below, Nat.zero_add]

theorem leb_positive (high size : Nat) (rest : List UInt8) (read : leb code = some (high, size, rest)) : 0 < size := by
  cases code with
  | nil => cases read
  | cons octet code =>
      rw [leb] at read
      split at read
      · simp only [Option.some.injEq, Prod.mk.injEq] at read
        omega
      · obtain ⟨found, -, same⟩ := Option.map_eq_some_iff.mp read
        simp only [Prod.mk.injEq] at same
        omega

-- Induction on the octets: those before have filled the bits below the shift.
theorem read_uleb128_leb (taken : Nat) (few : taken ≤ 10) (below : value < 2 ^ (7 * taken)) :
    readUleb128From code value (7 * taken) = (leb code).bind fun (high, size, rest) =>
      if taken + size ≤ 10 then some ((value + 2 ^ (7 * taken) * high) % 2 ^ 64, rest) else none := by
  induction code generalizing value taken with
  | nil => rfl
  | cons octet code ih =>
      by_cases full : taken = 10
      · rw [readUleb128From, if_pos (by omega)]
        cases held : leb (octet :: code) with
        | none => rfl
        | some read =>
            obtain ⟨high, size, rest⟩ := read
            have positive := leb_positive _ _ _ _ held
            simp only [Option.bind_some]
            rw [if_neg (by omega)]
      · have room : 7 * taken ≤ 63 := by omega
        rw [readUleb128From, if_neg (by omega), shifted_bits _ _ room below, leb]
        by_cases final : octet.toNat < 2 ^ 7
        · simp only [if_pos final, Option.bind_some, Nat.mod_eq_of_lt final]
          rw [if_pos (by omega)]
        · have last := octet.toNat_lt
          have bits : octet.toNat % 2 ^ 7 = octet.toNat - 2 ^ 7 := by omega
          have next : 7 * taken + 7 = 7 * (taken + 1) := by omega
          have grown : value + 2 ^ (7 * taken) * (octet.toNat - 2 ^ 7) < 2 ^ (7 * (taken + 1)) := by
            rw [← next]
            exact Crx.continued_below value _ _ below (by omega)
          have reduced := Nat.lt_of_le_of_lt (Nat.mod_le _ (2 ^ 64)) grown
          have total : ∀ high : Nat, ((value + 2 ^ (7 * taken) * (octet.toNat - 2 ^ 7)) % 2 ^ 64 + 2 ^ (7 * (taken + 1)) * high) %
              2 ^ 64 = (value + 2 ^ (7 * taken) * (2 ^ 7 * high + (octet.toNat - 2 ^ 7))) % 2 ^ 64 := fun high => by
            rw [Nat.mod_add_mod, ← next, Nat.pow_add, Nat.mul_add, Nat.mul_assoc, Nat.add_assoc,
              Nat.add_comm (2 ^ (7 * taken) * (2 ^ 7 * high))]
          rw [if_neg final, if_neg final, bits, next, ih (taken + 1) (by omega) reduced]
          cases leb code with
          | none => rfl
          | some read =>
              obtain ⟨high, size, rest⟩ := read
              have sizes : taken + 1 + size = taken + (size + 1) := by omega
              simp only [Option.bind_some, Option.map_some, sizes, total]

theorem ten_octets_read (signed : Bool) {read : Option (Nat × List UInt8)} (operand : tenOctets signed code = some read) :
    (readUleb128 code).map Prod.snd = read.map Prod.snd ∧ (signed = false → readUleb128 code = read) := by
  have reads := @read_uleb128_leb code 0 0 (by decide) (by decide)
  rw [Nat.mul_zero] at reads
  rw [readUleb128, reads]
  cases held : leb code with
  | none =>
      simp only [tenOctets, held, Option.some.injEq] at operand
      subst operand
      exact ⟨rfl, fun _ => rfl⟩
  | some found =>
      obtain ⟨high, size, rest⟩ := found
      simp only [tenOctets, held] at operand
      simp only [Option.bind_some, Nat.zero_add, Nat.pow_zero, Nat.one_mul]
      by_cases long : 10 < size
      · rw [if_pos long, Option.some.injEq] at operand
        subst operand
        rw [if_neg (by omega)]
        exact ⟨rfl, fun _ => rfl⟩
      · rw [if_neg long] at operand
        rw [if_pos (by omega)]
        split at operand
        · next fits =>
            cases operand
            refine ⟨rfl, fun unsigned => ?_⟩
            subst unsigned
            rw [Nat.mod_eq_of_lt (of_decide_eq_true fits)]
        · cases operand

section Turn

variable (stream : String) (tables : Tables) (turns : Nat) {total : Nat}

def resumed (stream : String) (tables : Tables) (turns total : Nat) : Option (Nat × List UInt8) → Except Anomaly Nat
  | none => .ok total
  | some (bound, rest) =>
      let binds := saturatingAdd total bound
      if maxBinds < binds then .error (.oversized stream binds) else walkFrom stream tables turns rest binds

theorem walk_from_turn (byte : UInt8) (rest : List UInt8) : walkFrom stream tables (turns + 1) (byte :: rest) total =
    (opcode stream tables byte rest).bind (resumed stream tables turns total) := by
  rw [walkFrom]
  cases opcode stream tables byte rest with
  | error anomaly => rfl
  | ok read => cases read <;> rfl

theorem resumed_bound (count : Nat) (rest : List UInt8) : resumed stream tables turns total (some (count, rest)) =
    if total + count ≤ maxBinds then walkFrom stream tables turns rest (total + count)
    else .error (.oversized stream (min (total + count) maxU64)) := by
  have cap : maxBinds < maxU64 := by decide
  by_cases fits : total + count ≤ maxBinds
  · have same : saturatingAdd total count = total + count := Nat.min_eq_left (by omega)
    simp only [resumed, same]
    rw [if_neg (by omega), if_pos fits]
  · have past : maxBinds < saturatingAdd total count := lt_min (by omega) cap
    simp only [resumed]
    rw [if_pos past, if_neg fits]
    rfl

theorem resumed_free (room : total ≤ maxBinds) (rest : List UInt8) :
    resumed stream tables turns total (some (0, rest)) = walkFrom stream tables turns rest total := by
  rw [resumed_bound, Nat.add_zero, if_pos room]

variable {answer : Except Anomaly Nat}

theorem resumed_skip (signed : Bool) (bound : Nat) (rest : List UInt8) (next : List UInt8 → Option (Except Anomaly Nat))
    (ran : behind (tenOctets signed rest) total (fun _ => next) = some answer)
    (after : ∀ rest, next rest = some answer → resumed stream tables turns total (some (bound, rest)) = answer) :
    resumed stream tables turns total ((readUleb128 rest).map fun read => (bound, read.2)) = answer := by
  obtain ⟨read, operand, ran⟩ := Option.bind_eq_some_iff.mp ran
  have reads : (readUleb128 rest).map (fun read => (bound, read.2)) = read.map fun read => (bound, read.2) := by
    have same := congrArg (Option.map (Prod.mk bound)) (ten_octets_read rest signed operand).1
    rwa [Option.map_map, Option.map_map] at same
  rw [reads]
  cases read with
  | none => exact Option.some.inj ran
  | some read => exact after read.2 ran

theorem walk_from_follows (room : total ≤ maxBinds) (byte : UInt8) (rest : List UInt8)
    (ran : dyld tenOctets stream tables (turns + 1) (byte :: rest) total = some answer)
    (follows : ∀ rest total, total ≤ maxBinds → dyld tenOctets stream tables turns rest total = some answer →
      walkFrom stream tables turns rest total = answer) :
    walkFrom stream tables (turns + 1) (byte :: rest) total = answer := by
  have free : ∀ rest, dyld tenOctets stream tables turns rest total = some answer →
      resumed stream tables turns total (some (0, rest)) = answer := fun rest ran => by
    rw [resumed_free stream tables turns room]
    exact follows rest total room ran
  have binds : ∀ count rest, (if total + count ≤ maxBinds then dyld tenOctets stream tables turns rest (total + count)
      else some (.error (.oversized stream (min (total + count) maxU64)))) = some answer →
      resumed stream tables turns total (some (count, rest)) = answer := fun count rest ran => by
    rw [resumed_bound]
    split at ran
    · next fits =>
        rw [if_pos fits]
        exact follows rest (total + count) fits ran
    · next past =>
        rw [if_neg past]
        exact Option.some.inj ran
  have through : ∀ ordinal rest, (if ordinal ≤ tables.dylibs then dyld tenOctets stream tables turns rest total
      else some (.error (.dylibOutOfRange stream ordinal tables.dylibs))) = some answer →
      ((dylib stream ordinal tables).bind fun _ => .ok (some (0, rest))).bind (resumed stream tables turns total) =
        answer := fun ordinal rest ran => by
    rw [dylib]
    split at ran
    · next inside =>
        rw [if_pos inside]
        exact free rest ran
    · next outside =>
        rw [if_neg outside]
        exact Option.some.inj ran
  have small : byte.toNat / 16 < 16 := by
    have last := byte.toNat_lt
    omega
  rw [walk_from_turn, opcode]
  rw [dyld] at ran
  generalize byte.toNat / 16 = code at ran small ⊢
  interval_cases code
  · by_cases lazy : stream = "lazy"
    · rw [if_pos lazy] at ran ⊢
      exact free rest ran
    · rw [if_neg lazy] at ran ⊢
      exact Option.some.inj ran
  · exact through _ rest ran
  · obtain ⟨read, operand, ran⟩ := Option.bind_eq_some_iff.mp ran
    have reads := (ten_octets_read rest false operand).2 rfl
    cases read with
    | none =>
        simp only [reads]
        exact Option.some.inj ran
    | some read =>
        simp only [reads]
        exact through read.1 read.2 ran
  · by_cases known : byte.toNat % 16 = 0 ∨ 13 ≤ byte.toNat % 16
    · have defined : ¬ (if byte.toNat % 16 = 0 then (0 : Int) else (byte.toNat % 16 : Nat) - 16) < -3 := by
        split <;> omega
      rw [if_pos known] at ran
      simp only [if_neg defined]
      exact free rest ran
    · obtain ⟨negative, least⟩ := not_or.mp known
      rw [if_neg known] at ran
      simp only [if_neg negative]
      rw [if_pos (by omega)]
      exact Option.some.inj ran
  · cases left : afterNul rest with
    | none =>
        rw [left] at ran
        exact Option.some.inj ran
    | some rest =>
        rw [left] at ran
        exact free rest ran
  · exact free rest ran
  · exact resumed_skip stream tables turns true 0 rest _ ran free
  · by_cases inside : byte.toNat % 16 < tables.segments
    · rw [if_pos inside] at ran
      rw [if_neg (Nat.not_le.mpr inside)]
      exact resumed_skip stream tables turns false 0 rest _ ran free
    · rw [if_neg inside] at ran
      rw [if_pos (Nat.not_lt.mp inside)]
      exact Option.some.inj ran
  · exact resumed_skip stream tables turns false 0 rest _ ran free
  · exact binds 1 rest ran
  · exact resumed_skip stream tables turns false 1 rest _ ran (binds 1)
  · exact binds 1 rest ran
  · obtain ⟨read, operand, ran⟩ := Option.bind_eq_some_iff.mp ran
    have reads := (ten_octets_read rest false operand).2 rfl
    cases read with
    | none =>
        simp only [reads]
        exact Option.some.inj ran
    | some read =>
        simp only [reads]
        exact resumed_skip stream tables turns false read.1 read.2
          (fun rest => if total + read.1 ≤ maxBinds then dyld tenOctets stream tables turns rest (total + read.1)
            else some (.error (.oversized stream (min (total + read.1) maxU64)))) ran (binds read.1)
  · by_cases size : byte.toNat % 16 = 0
    · simp only [if_pos size] at ran ⊢
      exact resumed_skip stream tables turns false 0 rest _ ran free
    · simp only [if_neg size] at ran ⊢
      exact free rest ran
  · exact Option.some.inj ran
  · exact Option.some.inj ran

end Turn

theorem walk_from_dyld (stream : String) (tables : Tables) (turns : Nat) (code : List UInt8) {total : Nat} (room : total ≤ maxBinds)
    {answer : Except Anomaly Nat} (ran : dyld tenOctets stream tables turns code total = some answer) :
    walkFrom stream tables turns code total = answer := by
  induction turns generalizing code total with
  | zero => exact Option.some.inj ran
  | succ turns ih =>
      cases code with
      | nil => exact Option.some.inj ran
      | cons byte rest =>
          exact walk_from_follows stream tables turns room byte rest ran fun rest total room ran => ih rest room ran

theorem walk_ten_octets (code : List UInt8) (stream : String) (tables : Tables) (binds : Nat) (room : binds ≤ maxBinds)
    (answer : Except Anomaly Nat) (ran : dyld tenOctets stream tables code.length code binds = some answer) :
    walk code stream tables binds = answer :=
  walk_from_dyld stream tables code.length code room ran

-- An addend of ten octets, a slot bound, and an ordinal past the one dylib.
theorem walk_ten_octets_forged :
    walk [0x60, 0x80, 0x80, 0x80, 0x80, 0x80, 0x80, 0x80, 0x80, 0x80, 0x7F, 0x90, 0x12] "bind" ⟨1, 1⟩ 0 =
      .error (.dylibOutOfRange "bind" 2 1) :=
  walk_ten_octets _ "bind" ⟨1, 1⟩ 0 (by decide) _ (by decide)

theorem overlong_operand_hides :
    dyld anyLength "bind" ⟨1, 1⟩ 13 [0x80, 0x80, 0x80, 0x80, 0x80, 0x80, 0x80, 0x80, 0x80, 0x80, 0x80, 0x00, 0x12] 0 =
        some (.error (.dylibOutOfRange "bind" 2 1)) ∧
      walk [0x80, 0x80, 0x80, 0x80, 0x80, 0x80, 0x80, 0x80, 0x80, 0x80, 0x80, 0x00, 0x12] "bind" ⟨1, 1⟩ 0 = .ok 0 :=
  ⟨by decide, by decide⟩

end Filefacts.MachoBind
