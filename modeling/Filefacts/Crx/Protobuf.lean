import Filefacts.Lib.Leb128
import Mathlib.Tactic.Ring

set_option autoImplicit false

namespace Filefacts.Crx

-- `u64::checked_shl`: bits pushed past the top are lost.
def checkedShl (number shift : Nat) : Option Nat := if shift < 64 then some (number * 2 ^ shift % 2 ^ 64) else none

def varintLoop : List UInt8 → Nat → Nat → Option (Nat × List UInt8)
  | [], _, _ => none
  | byte :: rest, value, shift => do
      let bits ← checkedShl (byte.toNat % 2 ^ 7) shift
      if byte.toNat < 2 ^ 7 then some (value ||| bits, rest)
      else if shift + 7 ≥ 64 then none
      else varintLoop rest (value ||| bits) (shift + 7)

def varint (buf : List UInt8) : Option (Nat × List UInt8) := varintLoop buf 0 0

def fixed (number len : Nat) (buf : List UInt8) : Option ((Nat × Option (List UInt8)) × List UInt8) :=
  if len ≤ buf.length then some ((number, none), buf.drop len) else none

def delimited (number : Nat) (buf : List UInt8) : Option ((Nat × Option (List UInt8)) × List UInt8) := do
  let (len, rest) ← varint buf
  if len ≤ rest.length then some ((number, some (rest.take len)), rest.drop len) else none

def nextField (buf : List UInt8) : Option ((Nat × Option (List UInt8)) × List UInt8) := do
  let (tag, rest) ← varint buf
  let field := tag / 2 ^ 3
  if field = 0 then none
  else if tag % 2 ^ 3 = 0 then (varint rest).map fun read => ((field, none), read.2)
  else if tag % 2 ^ 3 = 1 then fixed field 8 rest
  else if tag % 2 ^ 3 = 5 then fixed field 4 rest
  else if tag % 2 ^ 3 = 2 then delimited field rest
  else none

variable (buf rest : List UInt8) (value number : Nat)

theorem varint_loop_shorter (shift number : Nat)
    (read : varintLoop buf value shift = some (number, rest)) : rest.length < buf.length := by
  induction buf generalizing value shift with
  | nil => cases read
  | cons byte buf ih =>
      simp only [varintLoop, Option.bind_eq_bind, Option.bind_eq_some_iff] at read
      obtain ⟨bits, -, read⟩ := read
      rw [List.length_cons]
      split at read
      · rw [(Prod.mk.inj (Option.some.inj read)).2]
        exact Nat.lt_succ_self _
      · split at read
        · cases read
        · exact (ih _ _ read).trans (Nat.lt_succ_self _)

theorem varint_shorter (read : varint buf = some (number, rest)) : rest.length < buf.length :=
  varint_loop_shorter buf rest 0 0 number read

variable {len : Nat} {item : Nat × Option (List UInt8)}

theorem fixed_le {buf rest : List UInt8} (read : fixed number len buf = some (item, rest)) : rest.length ≤ buf.length := by
  unfold fixed at read
  split at read
  · rw [← (Prod.mk.inj (Option.some.inj read)).2, List.length_drop]
    exact Nat.sub_le _ _
  · cases read

theorem delimited_le (buf rest : List UInt8) (item : Nat × Option (List UInt8))
    (read : delimited number buf = some (item, rest)) : rest.length ≤ buf.length := by
  simp only [delimited, Option.bind_eq_bind, Option.bind_eq_some_iff] at read
  obtain ⟨⟨len, after⟩, there, read⟩ := read
  have shorter := varint_shorter buf after len there
  split at read
  · rw [← (Prod.mk.inj (Option.some.inj read)).2, List.length_drop]
    exact (Nat.sub_le _ _).trans shorter.le
  · cases read

theorem next_field_shorter (item : Nat × Option (List UInt8))
    (read : nextField buf = some (item, rest)) : rest.length < buf.length := by
  simp only [nextField, Option.bind_eq_bind, Option.bind_eq_some_iff] at read
  obtain ⟨⟨tag, after⟩, there, read⟩ := read
  have shorter := varint_shorter buf after tag there
  split_ifs at read
  · obtain ⟨⟨number, behind⟩, value, same⟩ := Option.map_eq_some_iff.mp read
    rw [← (Prod.mk.inj same).2]
    exact (varint_shorter after behind number value).trans shorter
  · exact (fixed_le _ read).trans_lt shorter
  · exact (fixed_le _ read).trans_lt shorter
  · exact (delimited_le _ after rest item read).trans_lt shorter

def wellFormed (buf : List UInt8) : Bool :=
  if buf = [] then true
  else
    match _step : nextField buf with
    | none => false
    | some (_, rest) => wellFormed rest
termination_by buf.length
decreasing_by exact next_field_shorter buf rest _ _step

def fields (buf : List UInt8) : List (Nat × List UInt8) :=
  match _step : nextField buf with
  | none => []
  | some ((field, data), rest) => (data.map fun data => (field, data)).toList ++ fields rest
termination_by buf.length
decreasing_by exact next_field_shorter buf rest _ _step

def lastField (buf : List UInt8) (field : Nat) : Option (List UInt8) :=
  (((fields buf).filter fun entry => entry.1 = field).getLast?).map Prod.snd

theorem well_formed_none (filled : buf ≠ []) (stop : nextField buf = none) : wellFormed buf = false := by
  rw [wellFormed, if_neg filled]
  split
  · rfl
  · next item rest step =>
      rw [stop] at step
      cases step

theorem well_formed_some (item : Nat × Option (List UInt8)) (read : nextField buf = some (item, rest)) :
    wellFormed buf = wellFormed rest := by
  have filled : buf ≠ [] := by
    rintro rfl
    cases read
  rw [wellFormed, if_neg filled]
  split
  · next step =>
      rw [step] at read
      cases read
  · next other behind step =>
      rw [step] at read
      rw [(Prod.mk.inj (Option.some.inj read)).2]

theorem fields_nil : fields [] = [] := by
  rw [fields]
  rfl

theorem fields_some (data : Option (List UInt8)) (read : nextField buf = some ((number, data), rest)) :
    fields buf = (data.map fun data => (number, data)).toList ++ fields rest := by
  rw [fields]
  split
  · next step =>
      rw [step] at read
      cases read
  · next other given behind step =>
      rw [step] at read
      obtain ⟨same, rfl⟩ := Prod.mk.inj (Option.some.inj read)
      obtain ⟨rfl, rfl⟩ := Prod.mk.inj same
      rfl

-- The fields of a message and their spellings. Varints need not be shortest but
-- have room for 64 bits only.
inductive Payload where
  | varint (value : Nat)
  | fixed64 (octets : List UInt8)
  | delimited (data : List UInt8)
  | fixed32 (octets : List UInt8)
deriving DecidableEq, Repr

structure Field where
  number : Nat
  payload : Payload
deriving DecidableEq, Repr

def Payload.wireType : Payload → Nat
  | .varint _ => 0
  | .fixed64 _ => 1
  | .delimited _ => 2
  | .fixed32 _ => 5

def Payload.data : Payload → Option (List UInt8)
  | .delimited data => some data
  | _ => none

inductive Payload.Spelled : Payload → List UInt8 → Prop
  | varint (value : Nat) (spelling : List UInt8) (spelled : Leb128.Unsigned 64 value spelling) : Spelled (.varint value) spelling
  | fixed64 (octets : List UInt8) (eight : octets.length = 8) : Spelled (.fixed64 octets) octets
  | delimited (data spelling : List UInt8) (spelled : Leb128.Unsigned 64 data.length spelling) :
      Spelled (.delimited data) (spelling ++ data)
  | fixed32 (octets : List UInt8) (four : octets.length = 4) : Spelled (.fixed32 octets) octets

structure Field.Spelled (field : Field) (tag body : List UInt8) : Prop where
  positive : 0 < field.number
  legal : field.number < 2 ^ 29
  tagged : Leb128.Unsigned 64 (field.number * 2 ^ 3 + field.payload.wireType) tag
  carried : field.payload.Spelled body

inductive Message : List Field → List UInt8 → Prop
  | nil : Message [] []
  | cons (field : Field) (rest : List Field) (tag body buf : List UInt8) (spelled : field.Spelled tag body) (after : Message rest buf) :
      Message (field :: rest) (tag ++ (body ++ buf))

def varintFits : List UInt8 → Nat → Bool
  | [], _ => true
  | byte :: rest, shift => byte.toNat % 2 ^ 7 < 2 ^ (64 - shift) && (byte.toNat < 2 ^ 7 || varintFits rest (shift + 7))

def fieldFits (buf : List UInt8) : Bool :=
  varintFits buf 0 &&
    match varint buf with
    | none => true
    | some (tag, rest) => tag < 2 ^ 32 && ((tag % 2 ^ 3 != 0 && tag % 2 ^ 3 != 2) || varintFits rest 0)

def fits (buf : List UInt8) : Bool :=
  match _step : nextField buf with
  | none => true
  | some (_, rest) => fieldFits buf && fits rest
termination_by buf.length
decreasing_by exact next_field_shorter buf rest _ _step

theorem fits_nil : fits [] = true := by
  rw [fits]
  rfl

theorem fits_some (item : Nat × Option (List UInt8)) (read : nextField buf = some (item, rest)) :
    fits buf = (fieldFits buf && fits rest) := by
  rw [fits]
  split
  · next step =>
      rw [step] at read
      cases read
  · next other behind step =>
      rw [step] at read
      rw [(Prod.mk.inj (Option.some.inj read)).2]

theorem or_shifted (bits shift : Nat) (below : value < 2 ^ shift) : value ||| (bits * 2 ^ shift) = value + 2 ^ shift * bits := by
  rw [Nat.or_comm, ← Nat.shiftLeft_eq, ← Nat.shiftLeft_add_eq_or_of_lt below, Nat.shiftLeft_eq, Nat.mul_comm, Nat.add_comm]

theorem checked_shl_fits (shift width : Nat) (places : width + shift = 64) (room : 0 < width) (small : number < 2 ^ width) :
    checkedShl number shift = some (number * 2 ^ shift) := by
  have below : number * 2 ^ shift < 2 ^ 64 := by
    rw [← places, Nat.pow_add]
    exact Nat.mul_lt_mul_of_pos_right small (Nat.two_pow_pos shift)
  rw [checkedShl, if_pos (by omega), Nat.mod_eq_of_lt below]

theorem continued_below (bits shift : Nat) (below : value < 2 ^ shift) (small : bits < 2 ^ 7) :
    value + 2 ^ shift * bits < 2 ^ (shift + 7) := by
  rw [Nat.pow_add]
  have grows : 2 ^ shift * bits ≤ 2 ^ shift * (2 ^ 7 - 1) := Nat.mul_le_mul_left _ (by omega)
  omega

theorem varint_loop_spelled (width number : Nat) (spelling rest : List UInt8) (spelled : Leb128.Unsigned width number spelling)
    (value shift : Nat) (room : 0 < width) (places : width + shift = 64) (below : value < 2 ^ shift) :
    varintLoop (spelling ++ rest) value shift = some (value + 2 ^ shift * number, rest) ∧
      varintFits (spelling ++ rest) shift = true := by
  induction spelled generalizing value shift with
  | last width octet final fits =>
      have bits : octet.toNat % 2 ^ 7 = octet.toNat := Nat.mod_eq_of_lt final
      have left : 64 - shift = width := by omega
      constructor
      · rw [List.singleton_append, varintLoop, bits, checked_shl_fits _ shift width places room fits, Option.bind_eq_bind,
          Option.bind_some, if_pos final, or_shifted value _ shift below]
      · rw [List.singleton_append, varintFits, bits, left, decide_eq_true fits, decide_eq_true final]
        rfl
  | more width octet high tail continued wide spelled ih =>
      have last := octet.toNat_lt
      have bits : octet.toNat % 2 ^ 7 = octet.toNat - 2 ^ 7 := by omega
      have small : octet.toNat - 2 ^ 7 < 2 ^ 7 := by omega
      have fits : octet.toNat - 2 ^ 7 < 2 ^ width := small.trans_le (Nat.pow_le_pow_right (by omega) wide.le)
      have left : 64 - shift = width := by omega
      obtain ⟨reads, keeps⟩ := ih (value + 2 ^ shift * (octet.toNat - 2 ^ 7)) (shift + 7) (by omega) (by omega)
        (continued_below value _ shift below small)
      have total : value + 2 ^ shift * (octet.toNat - 2 ^ 7) + 2 ^ (shift + 7) * high =
          value + 2 ^ shift * (2 ^ 7 * high + (octet.toNat - 2 ^ 7)) := by
        rw [Nat.pow_add]
        ring
      constructor
      · rw [List.cons_append, varintLoop, bits, checked_shl_fits _ shift width places room fits, Option.bind_eq_bind,
          Option.bind_some, if_neg (Nat.not_lt_of_le continued), if_neg (by omega), or_shifted value _ shift below, reads, total]
      · rw [List.cons_append, varintFits, bits, left, decide_eq_true fits, keeps, Bool.or_true]
        rfl

theorem varint_loop_read (shift number width : Nat) (room : 0 < width) (places : width + shift = 64)
    (below : value < 2 ^ shift) (read : varintLoop buf value shift = some (number, rest)) (keeps : varintFits buf shift = true) :
    ∃ spelling high, buf = spelling ++ rest ∧ Leb128.Unsigned width high spelling ∧ number = value + 2 ^ shift * high := by
  induction buf generalizing value shift width with
  | nil => cases read
  | cons byte buf ih =>
      have left : 64 - shift = width := by omega
      rw [varintFits, left, Bool.and_eq_true, decide_eq_true_eq] at keeps
      obtain ⟨small, keeps⟩ := keeps
      rw [varintLoop, checked_shl_fits _ shift width places room small, Option.bind_eq_bind, Option.bind_some,
        or_shifted value _ shift below] at read
      by_cases final : byte.toNat < 2 ^ 7
      · rw [Nat.mod_eq_of_lt final] at small read
        rw [if_pos final] at read
        obtain ⟨rfl, rfl⟩ := Prod.mk.inj (Option.some.inj read)
        exact ⟨[byte], byte.toNat, rfl, .last width byte final small, rfl⟩
      · have last := byte.toNat_lt
        have bits : byte.toNat % 2 ^ 7 = byte.toNat - 2 ^ 7 := by omega
        rw [bits] at small read
        rw [decide_eq_false final, Bool.false_or] at keeps
        rw [if_neg final] at read
        split at read
        · cases read
        · next more =>
            obtain ⟨spelling, high, rfl, spelled, rfl⟩ := ih _ (shift + 7) (width - 7) (by omega) (by omega)
              (continued_below value _ shift below (by omega)) read keeps
            refine ⟨byte :: spelling, 2 ^ 7 * high + (byte.toNat - 2 ^ 7), rfl, .more width byte high spelling (by omega) (by omega) spelled, ?_⟩
            rw [Nat.pow_add]
            ring

theorem varint_spelled {spelling : List UInt8} (rest : List UInt8) (spelled : Leb128.Unsigned 64 number spelling) :
    varint (spelling ++ rest) = some (number, rest) ∧ varintFits (spelling ++ rest) 0 = true := by
  have read := varint_loop_spelled 64 number spelling rest spelled 0 0 (by omega) rfl (by omega)
  rwa [Nat.zero_add, Nat.pow_zero, Nat.one_mul] at read

theorem varint_read (read : varint buf = some (number, rest))
    (keeps : varintFits buf 0 = true) : ∃ spelling, buf = spelling ++ rest ∧ Leb128.Unsigned 64 number spelling := by
  obtain ⟨spelling, high, whole, spelled, same⟩ := varint_loop_read buf rest 0 0 number 64 (by omega) rfl (by omega) read keeps
  rw [Nat.zero_add, Nat.pow_zero, Nat.one_mul] at same
  exact ⟨spelling, whole, same ▸ spelled⟩

theorem wire_type_lt (payload : Payload) : payload.wireType < 2 ^ 3 := by
  cases payload <;> simp [Payload.wireType]

theorem next_field_tag {wire : Nat} {tag : List UInt8} (rest : List UInt8) (positive : 0 < number) (small : wire < 2 ^ 3)
    (spelled : Leb128.Unsigned 64 (number * 2 ^ 3 + wire) tag) :
    nextField (tag ++ rest) =
      if wire = 0 then (varint rest).map fun read => ((number, none), read.2)
      else if wire = 1 then fixed number 8 rest
      else if wire = 5 then fixed number 4 rest
      else if wire = 2 then delimited number rest
      else none := by
  have high : (number * 2 ^ 3 + wire) / 2 ^ 3 = number := by omega
  have low : (number * 2 ^ 3 + wire) % 2 ^ 3 = wire := by omega
  rw [nextField, (varint_spelled _ rest spelled).1, Option.bind_eq_bind, Option.bind_some]
  simp only [high, low]
  rw [if_neg (by omega)]

theorem fixed_exact (octets rest : List UInt8) :
    fixed number octets.length (octets ++ rest) = some ((number, none), rest) := by
  rw [fixed, if_pos (by rw [List.length_append]; omega), List.drop_left]

theorem delimited_spelled (data spelling rest : List UInt8) (spelled : Leb128.Unsigned 64 data.length spelling) :
    delimited number ((spelling ++ data) ++ rest) = some ((number, some data), rest) := by
  rw [delimited, List.append_assoc, (varint_spelled _ (data ++ rest) spelled).1, Option.bind_eq_bind, Option.bind_some]
  dsimp only
  rw [if_pos (by rw [List.length_append]; omega), List.take_left, List.drop_left]

theorem field_spelled (field : Field) (tag body rest : List UInt8) (spelled : field.Spelled tag body) :
    nextField (tag ++ (body ++ rest)) = some ((field.number, field.payload.data), rest) ∧ fieldFits (tag ++ (body ++ rest)) = true := by
  obtain ⟨positive, legal, tagged, carried⟩ := spelled
  obtain ⟨number, payload⟩ := field
  have small := wire_type_lt payload
  have low : (number * 2 ^ 3 + payload.wireType) % 2 ^ 3 = payload.wireType := by omega
  have below : number * 2 ^ 3 + payload.wireType < 2 ^ 32 := by
    dsimp only at legal
    omega
  obtain ⟨reads, keeps⟩ := varint_spelled _ (body ++ rest) tagged
  rw [next_field_tag number _ positive small tagged, fieldFits, keeps, reads]
  dsimp only
  rw [low, decide_eq_true below, Bool.true_and, Bool.true_and]
  cases carried with
  | varint value spelling spelled =>
      obtain ⟨value_reads, value_keeps⟩ := varint_spelled value rest spelled
      have wire : (Payload.varint value).wireType = 0 := rfl
      rw [wire]
      refine ⟨?_, ?_⟩
      · rw [if_pos rfl, value_reads]
        rfl
      · rw [value_keeps, Bool.or_true]
  | fixed64 body eight =>
      have wire : (Payload.fixed64 body).wireType = 1 := rfl
      rw [wire]
      refine ⟨?_, rfl⟩
      rw [if_neg (by decide), if_pos rfl, ← eight, fixed_exact]
      rfl
  | delimited data spelling spelled =>
      have wire : (Payload.delimited data).wireType = 2 := rfl
      rw [wire]
      refine ⟨?_, ?_⟩
      · rw [if_neg (by decide), if_neg (by decide), if_neg (by decide), if_pos rfl, delimited_spelled _ data spelling rest spelled]
        rfl
      · rw [List.append_assoc, (varint_spelled _ (data ++ rest) spelled).2, Bool.or_true]
  | fixed32 body four =>
      have wire : (Payload.fixed32 body).wireType = 5 := rfl
      rw [wire]
      refine ⟨?_, rfl⟩
      rw [if_neg (by decide), if_neg (by decide), if_pos rfl, ← four, fixed_exact]
      rfl

theorem fixed_read {buf rest : List UInt8} (read : fixed number len buf = some (item, rest)) :
    ∃ octets, octets.length = len ∧ buf = octets ++ rest ∧ item = (number, none) := by
  unfold fixed at read
  split at read
  · next inside =>
      obtain ⟨rfl, rfl⟩ := Prod.mk.inj (Option.some.inj read)
      exact ⟨buf.take len, List.length_take_of_le inside, (List.take_append_drop len buf).symm, rfl⟩
  · cases read

theorem delimited_read (buf rest : List UInt8) (item : Nat × Option (List UInt8))
    (read : delimited number buf = some (item, rest)) (keeps : varintFits buf 0 = true) :
    ∃ data spelling, Leb128.Unsigned 64 data.length spelling ∧ buf = (spelling ++ data) ++ rest ∧ item = (number, some data) := by
  simp only [delimited, Option.bind_eq_bind, Option.bind_eq_some_iff] at read
  obtain ⟨⟨len, after⟩, there, read⟩ := read
  obtain ⟨spelling, rfl, spelled⟩ := varint_read buf after len there keeps
  split at read
  · next inside =>
      obtain ⟨rfl, rfl⟩ := Prod.mk.inj (Option.some.inj read)
      refine ⟨after.take len, spelling, ?_, ?_, rfl⟩
      · rw [List.length_take_of_le inside]
        exact spelled
      · rw [List.append_assoc, List.take_append_drop]
  · cases read

theorem field_read (item : Nat × Option (List UInt8)) (read : nextField buf = some (item, rest))
    (keeps : fieldFits buf = true) :
    ∃ field tag body, Field.Spelled field tag body ∧ buf = tag ++ (body ++ rest) := by
  rw [nextField, Option.bind_eq_bind, Option.bind_eq_some_iff] at read
  obtain ⟨⟨tag, after⟩, there, read⟩ := read
  rw [fieldFits, there, Bool.and_eq_true] at keeps
  obtain ⟨tagKeeps, keeps⟩ := keeps
  rw [Bool.and_eq_true, decide_eq_true_eq] at keeps
  obtain ⟨below, keeps⟩ := keeps
  obtain ⟨spelling, rfl, spelled⟩ := varint_read buf after tag there tagKeeps
  have split_tag : tag = tag / 2 ^ 3 * 2 ^ 3 + tag % 2 ^ 3 := by omega
  have legal : tag / 2 ^ 3 < 2 ^ 29 := by omega
  dsimp only at read
  split_ifs at read with zero varintWire fixedWire shortWire delimitedWire
  · obtain ⟨⟨value, behind⟩, carried, same⟩ := Option.map_eq_some_iff.mp read
    obtain ⟨-, rfl⟩ := Prod.mk.inj same
    rw [varintWire] at keeps split_tag
    obtain ⟨body, rfl, body_spelled⟩ := varint_read after behind value carried keeps
    exact ⟨⟨tag / 2 ^ 3, .varint value⟩, spelling, body, ⟨by dsimp only; omega, legal, split_tag ▸ spelled, .varint value body body_spelled⟩, rfl⟩
  · obtain ⟨octets, eight, rfl, -⟩ := fixed_read _ read
    rw [fixedWire] at split_tag
    exact ⟨⟨tag / 2 ^ 3, .fixed64 octets⟩, spelling, octets, ⟨by dsimp only; omega, legal, split_tag ▸ spelled, .fixed64 octets eight⟩, rfl⟩
  · obtain ⟨octets, four, rfl, -⟩ := fixed_read _ read
    rw [shortWire] at split_tag
    exact ⟨⟨tag / 2 ^ 3, .fixed32 octets⟩, spelling, octets, ⟨by dsimp only; omega, legal, split_tag ▸ spelled, .fixed32 octets four⟩, rfl⟩
  · rw [delimitedWire] at keeps split_tag
    obtain ⟨data, body, body_spelled, rfl, -⟩ := delimited_read _ after rest item read keeps
    exact ⟨⟨tag / 2 ^ 3, .delimited data⟩, spelling, body ++ data,
      ⟨by dsimp only; omega, legal, split_tag ▸ spelled, .delimited data body body_spelled⟩, rfl⟩

variable (message : List Field)

theorem message_read (buf : List UInt8) (spelled : Message message buf) : wellFormed buf = true ∧ fits buf = true ∧
      fields buf = message.filterMap fun field => field.payload.data.map fun data => (field.number, data) := by
  induction spelled with
  | nil =>
      refine ⟨?_, fits_nil, fields_nil⟩
      rw [wellFormed, if_pos rfl]
  | cons field rest tag body buf spelled after ih =>
      obtain ⟨accepted, keeps, listed⟩ := ih
      obtain ⟨reads, fitting⟩ := field_spelled field tag body buf spelled
      rw [well_formed_some _ buf _ reads, fits_some _ buf _ reads, fields_some _ buf _ _ reads, accepted, keeps, fitting, listed,
        List.filterMap_cons]
      refine ⟨rfl, rfl, ?_⟩
      cases field.payload.data with
      | none => rfl
      | some data => rfl

theorem fitting_message (accepted : wellFormed buf = true) (keeps : fits buf = true) : ∃ message, Message message buf := by
  induction size : buf.length using Nat.strong_induction_on generalizing buf with
  | _ count ih =>
      by_cases empty : buf = []
      · exact ⟨[], empty ▸ .nil⟩
      · cases read : nextField buf with
        | none =>
            rw [well_formed_none buf empty read] at accepted
            cases accepted
        | some step =>
            obtain ⟨item, rest⟩ := step
            rw [well_formed_some buf rest item read] at accepted
            rw [fits_some buf rest item read, Bool.and_eq_true] at keeps
            have shorter := next_field_shorter buf rest item read
            obtain ⟨message, later⟩ := ih rest.length (size ▸ shorter) rest accepted keeps.2 rfl
            obtain ⟨field, tag, body, spelled, whole⟩ := field_read buf rest item read keeps.1
            exact ⟨field :: message, whole ▸ .cons field message tag body rest spelled later⟩

theorem last_of_number (number : Nat) :
    ((message.filterMap fun field => field.payload.data.map fun data => (field.number, data)).filter fun entry =>
      entry.1 = number).map Prod.snd = message.filterMap fun field => if field.number = number then field.payload.data else none := by
  induction message with
  | nil => rfl
  | cons field rest ih =>
      rw [List.filterMap_cons, List.filterMap_cons]
      cases carried : field.payload.data with
      | none => rw [ite_self, Option.map_none, ih]
      | some data =>
          rw [Option.map_some]
          rw [List.filter_cons]
          by_cases same : field.number = number
          · rw [if_pos (decide_eq_true same), if_pos same, List.map_cons, ih]
          · rw [if_neg (by simpa using same), if_neg same, ih]

theorem last_field_message (buf : List UInt8) (number : Nat)
    (listed : fields buf = message.filterMap fun field => field.payload.data.map fun data => (field.number, data)) :
    lastField buf number = message.reverse.findSome? fun field => if field.number = number then field.payload.data else none := by
  rw [lastField, listed, ← List.getLast?_map, last_of_number, List.getLast?_filterMap]

-- Every message is read field by field; an accepted buffer is a message exactly
-- when no tag needs more than 32 bits and no varint more than 64.
theorem well_formed_iff_message (buf : List UInt8) :
    (∀ message, Message message buf → wellFormed buf = true ∧
      fields buf = (message.filterMap fun field => field.payload.data.map fun data => (field.number, data)) ∧
      ∀ number, lastField buf number =
        message.reverse.findSome? fun field => if field.number = number then field.payload.data else none) ∧
    (wellFormed buf = true → ((∃ message, Message message buf) ↔ fits buf = true)) := by
  refine ⟨fun message spelled => ?_, fun accepted => ⟨?_, fitting_message buf accepted⟩⟩
  · obtain ⟨accepted, -, listed⟩ := message_read message buf spelled
    exact ⟨accepted, listed, fun number => last_field_message message buf number listed⟩
  · rintro ⟨message, spelled⟩
    exact (message_read message buf spelled).2.1

theorem well_formed_iff_message_two : wellFormed [10, 0x81, 0, 97, 16, 5] = true ∧ lastField [10, 0x81, 0, 97, 16, 5] 1 = some [97] := by
  have number : Leb128.Unsigned 64 5 [5] := .last 64 5 (by decide) (by decide)
  have length : Leb128.Unsigned 64 1 [0x81, 0] := .more 64 0x81 0 [0] (by decide) (by decide) (.last 57 0 (by decide) (by decide))
  have first : Field.Spelled ⟨1, .delimited [97]⟩ [10] ([0x81, 0] ++ [97]) :=
    ⟨by decide, by decide, .last 64 10 (by decide) (by decide), .delimited [97] [0x81, 0] length⟩
  have second : Field.Spelled ⟨2, .varint 5⟩ [16] [5] :=
    ⟨by decide, by decide, .last 64 16 (by decide) (by decide), .varint 5 [5] number⟩
  have read := (well_formed_iff_message _).1 _ (.cons _ _ _ _ _ first (.cons _ _ _ _ _ second .nil))
  exact ⟨read.1, read.2.2 1⟩

-- Tag 2^32, a field number one past the last legal one.
theorem well_formed_large_tag :
    ¬ ∀ buf, wellFormed buf = true → ∃ message, Message message buf := by
  intro claimed
  obtain ⟨message, spelled⟩ := claimed [0x80, 0x80, 0x80, 0x80, 16, 0] (by decide +kernel)
  have kept := (message_read message _ spelled).2.1
  have lost : fits [0x80, 0x80, 0x80, 0x80, 16, 0] = false := by decide +kernel
  rw [lost] at kept
  cases kept

end Filefacts.Crx
