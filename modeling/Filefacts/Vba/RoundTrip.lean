import Mathlib.Tactic.IntervalCases
import Filefacts.Vba.Decompress

set_option autoImplicit false

namespace Filefacts.Vba

variable (position bits : Nat) (data before : List UInt8)

theorem max_bit_count_from (left bits : Nat) :
    maxBitCountFrom position left bits = min (bits + left) (max bits (Nat.clog 2 position)) := by
  induction left generalizing bits with
  | zero =>
      rw [maxBitCountFrom]
      omega
  | succ left ih =>
      rw [maxBitCountFrom, Nat.one_shiftLeft]
      by_cases more : 2 ^ bits < position
      · have above : bits < Nat.clog 2 position := (Nat.lt_clog_iff_pow_lt (by omega)).mpr more
        rw [if_pos more, ih]
        omega
      · have below : Nat.clog 2 position ≤ bits := Nat.clog_le_of_le_pow (by omega)
        rw [if_neg more]
        omega

theorem max_bit_count_spec (inside : position ≤ 4096) : maxBitCount position = bitCount position := by
  have below : Nat.clog 2 position ≤ 12 := Nat.clog_le_of_le_pow inside
  rw [maxBitCount, max_bit_count_from, bitCount]
  omega

theorem bit_count_range (inside : position ≤ 4096) : 4 ≤ bitCount position ∧ bitCount position ≤ 12 := by
  have below : Nat.clog 2 position ≤ 12 := Nat.clog_le_of_le_pow inside
  unfold bitCount
  omega

theorem position_le : position ≤ 2 ^ bitCount position :=
  Nat.le_trans (Nat.le_pow_clog (by omega) position) (Nat.pow_le_pow_right (by omega) (Nat.le_max_right _ _))

theorem length_mask (low : 4 ≤ bits) (high : bits ≤ 12) : 0xFFFF >>> bits = 2 ^ (16 - bits) - 1 := by
  interval_cases bits <;> rfl

theorem offset_mask (low : 4 ≤ bits) (high : bits ≤ 12) : (0xFFFF ^^^ (0xFFFF >>> bits)) >>> (16 - bits) = 2 ^ bits - 1 := by
  interval_cases bits <;> rfl

theorem copy_token_fields (high low : Nat) (least : 4 ≤ bits) (most : bits ≤ 12) (highFits : high < 2 ^ bits)
    (lowFits : low < 2 ^ (16 - bits)) :
    (high <<< (16 - bits) ||| low) &&& (0xFFFF >>> bits) = low ∧
      ((high <<< (16 - bits) ||| low) &&& (0xFFFF ^^^ (0xFFFF >>> bits))) >>> (16 - bits) = high ∧
      high <<< (16 - bits) ||| low < 2 ^ 16 := by
  have sum : high <<< (16 - bits) ||| low = high * 2 ^ (16 - bits) + low := by
    rw [← Nat.shiftLeft_add_eq_or_of_lt lowFits, Nat.shiftLeft_eq]
  have whole : (2 : Nat) ^ bits * 2 ^ (16 - bits) = 2 ^ 16 := by
    rw [← Nat.pow_add, show bits + (16 - bits) = 16 by omega]
  refine ⟨?_, ?_, ?_⟩
  · rw [length_mask bits least most, Nat.and_two_pow_sub_one_eq_mod, sum, Nat.mul_add_mod_self_right, Nat.mod_eq_of_lt lowFits]
  · rw [Nat.shiftRight_and_distrib, offset_mask bits least most, Nat.and_two_pow_sub_one_eq_mod, sum,
      Nat.shiftRight_eq_div_pow, Nat.mul_comm, Nat.mul_add_div (Nat.two_pow_pos _), Nat.div_eq_of_lt lowFits, Nat.add_zero,
      Nat.mod_eq_of_lt highFits]
  · have bound : high * 2 ^ (16 - bits) + 2 ^ (16 - bits) ≤ 2 ^ bits * 2 ^ (16 - bits) := by
      rw [← Nat.succ_mul]
      exact Nat.mul_le_mul_right _ highFits
    omega

theorem little_endian_length (number : Nat) : (littleEndian number).length = 2 := by
  rw [littleEndian, List.length_reverse, BigEndian.octets_of_length]

theorem read_little_endian {rest : List UInt8} {pos number : Nat} (there : data.drop pos = littleEndian number ++ rest)
    (fits : number < 2 ^ 16) : Bytes.u16le data pos = some number := by
  have size := congrArg List.length there
  rw [List.length_drop, List.length_append, little_endian_length] at size
  rw [Bytes.u16le, Bytes.arrayAt, if_pos (by omega), there, Option.map_some,
    List.take_left' (little_endian_length number), littleEndian, List.reverse_reverse, BigEndian.value_octets_of 2 number fits]

theorem encode_nonempty (token : Token) : 1 ≤ (token.encode position).length := by
  cases token with
  | literal byte => exact Nat.le_refl _
  | copy offset length =>
      rw [Token.encode, little_endian_length]
      omega

variable (offset count cap chunkEnd fuel : Nat) (list : List Chunk)

theorem copy_bytes_extend (before produced : List UInt8) (positive : 1 ≤ offset) (reaches : offset ≤ produced.length) :
    copyBytes offset count (before ++ produced) = before ++ Window.extend offset count produced := by
  rw [← Window.extend_append offset count before produced positive reaches]
  have far : offset ≤ (before ++ produced).length := by
    rw [List.length_append]
    omega
  generalize before ++ produced = output at far ⊢
  induction count generalizing output with
  | zero => rfl
  | succ count ih =>
      have inside : output.length - offset < output.length := by omega
      have byte : byteBack output offset = output[output.length - offset] := by
        rw [byteBack, if_pos far, List.getElem?_eq_getElem inside, Option.getD_some]
      have longer := Window.back_length positive far
      rw [copyBytes, Window.extend, byte, ← Window.back_eq inside far]
      exact ih (Window.back offset output) (by omega)

theorem copy_token_encoded (before produced : List UInt8) (offset length : Nat)
    (fits : (Token.copy offset length).Fits produced.length) (inside : produced.length ≤ 4096)
    (room : before.length + produced.length + length ≤ cap) :
    (offset - 1) <<< (16 - bitCount produced.length) ||| (length - 3) < 2 ^ 16 ∧
      copyToken cap before.length ((offset - 1) <<< (16 - bitCount produced.length) ||| (length - 3)) (before ++ produced) =
        .ok (before ++ Window.extend offset length produced) := by
  obtain ⟨positive, reaches, least, most⟩ := fits
  obtain ⟨low, high⟩ := bit_count_range produced.length inside
  have power := position_le produced.length
  have mask := length_mask (bitCount produced.length) low high
  have whole := Nat.two_pow_pos (16 - bitCount produced.length)
  unfold maximumLength at most
  obtain ⟨lengthField, offsetField, small⟩ := copy_token_fields (bitCount produced.length) (offset - 1) (length - 3) low high
    (by omega) (by omega)
  refine ⟨small, ?_⟩
  have position : (before ++ produced).length - before.length = produced.length := by
    rw [List.length_append]
    omega
  simp only [copyToken, position, max_bit_count_spec produced.length inside, lengthField, offsetField]
  rw [Nat.sub_add_cancel least, Nat.sub_add_cancel positive, if_neg (by rw [List.length_append]; omega),
    copy_bytes_extend offset length before produced positive reaches]

theorem flag_bit (flag : UInt8) (left : Nat) (token : Token) (rest : List Token)
    (there : flag.toNat >>> (7 - left) = flags (token :: rest)) (inside : left < 8) :
    flag.toNat >>> (7 - left) &&& 1 = token.isCopy.toNat ∧ flag.toNat >>> (8 - left) = flags rest := by
  have bit := Bool.toNat_lt token.isCopy
  rw [there, Nat.and_one_is_mod, flags]
  refine ⟨by omega, ?_⟩
  rw [show 8 - left = 7 - left + 1 by omega, Nat.shiftRight_succ, there, flags]
  omega

theorem tokens_encoded (flag : UInt8) (group : List Token)
    (produced rest : List UInt8) (left pos : Nat) (few : group.length ≤ left) (eight : left ≤ 8)
    (bits : flag.toNat >>> (8 - left) = flags group)
    (there : data.drop pos = encodeTokens produced.length group ++ rest) (fit : TokensFit produced.length group)
    (inside : produced.length + sizes group ≤ 4096) (room : before.length + produced.length + sizes group ≤ cap)
    (within : pos + (encodeTokens produced.length group).length ≤ chunkEnd)
    (last : group.length < left → pos + (encodeTokens produced.length group).length = chunkEnd) :
    tokens data cap chunkEnd before.length flag left ⟨before ++ produced, pos⟩ =
      .ok ⟨before ++ decodeTokens produced group, pos + (encodeTokens produced.length group).length⟩ := by
  induction group generalizing produced left pos with
  | nil =>
      cases left with
      | zero => rfl
      | succ left =>
          have ended : pos = chunkEnd := last (Nat.succ_pos left)
          rw [tokens, if_pos (Nat.le_of_eq ended.symm)]
          rfl
  | cons token group ih =>
      obtain ⟨left, rfl⟩ : ∃ less, left = less + 1 := ⟨left - 1, by rw [List.length_cons] at few; omega⟩
      have shifted : 8 - (left + 1) = 7 - left := by omega
      rw [shifted] at bits
      obtain ⟨bit, others⟩ := flag_bit flag left token group bits (by omega)
      have some_ := encode_nonempty produced.length token
      have longer := decode_length produced token fit.1
      have size : sizes (token :: group) = token.size + sizes group := List.sum_cons
      have width : (encodeTokens produced.length (token :: group)).length =
          (token.encode produced.length).length + (encodeTokens (token.decode produced).length group).length := by
        rw [encodeTokens, List.length_append, longer]
      rw [width] at within last
      rw [encodeTokens, List.append_assoc] at there
      have further : data.drop (pos + (token.encode produced.length).length) =
          encodeTokens (token.decode produced).length group ++ rest := by
        rw [← List.drop_drop, there, List.drop_left, longer]
      have again := ih (token.decode produced) left (pos + (token.encode produced.length).length)
        (Nat.le_of_succ_le_succ few) (by omega) others further (longer ▸ fit.2) (by omega) (by omega) (by omega)
        (fun shorter => by have ended := last (Nat.succ_lt_succ shorter); omega)
      rw [width, tokens, if_neg (show ¬ chunkEnd ≤ pos by omega), bit, ← Nat.add_assoc, decode_tokens_cons]
      cases token with
      | literal byte =>
          have first : data[pos]? = some byte := by
            rw [← List.head?_drop, there]
            rfl
          rw [if_pos (show (Token.literal byte).isCopy.toNat = 0 from rfl), first]
          simp only [Token.size] at size
          simp only [if_neg (show ¬ cap ≤ (before ++ produced).length by rw [List.length_append]; omega), List.append_assoc]
          exact again
      | copy offset length =>
          simp only [Token.size] at size
          obtain ⟨small, copied⟩ := copy_token_encoded cap before produced offset length fit.1 (by omega) (by omega)
          have read := read_little_endian data there small
          rw [if_neg (show ¬ (Token.copy offset length).isCopy.toNat = 0 from Nat.one_ne_zero), read]
          simp only [copied]
          exact again

theorem sizes_append (front back : List Token) : sizes (front ++ back) = sizes front + sizes back := by
  rw [sizes, sizes, sizes, List.map_append, List.sum_append]

theorem flag_byte (group : List Token) (few : group.length ≤ 8) : (UInt8.ofNat (flags group)).toNat = flags group := by
  have bound := flags_lt group
  have power : (2 : Nat) ^ group.length ≤ 2 ^ 8 := Nat.pow_le_pow_right (by omega) few
  rw [UInt8.toNat_ofNat', Nat.mod_eq_of_lt (by omega)]

theorem sequences_encoded (list : List Token)
    (produced rest : List UInt8) (pos : Nat) (there : data.drop pos = encodeSequences produced.length list ++ rest)
    (fit : TokensFit produced.length list) (inside : produced.length + sizes list ≤ 4096)
    (room : before.length + produced.length + sizes list ≤ cap)
    (ends : pos + (encodeSequences produced.length list).length = chunkEnd)
    (enough : (encodeSequences produced.length list).length ≤ fuel) :
    tokenSequences data cap chunkEnd before.length fuel ⟨before ++ produced, pos⟩ =
      .ok ⟨before ++ decodeTokens produced list, chunkEnd⟩ := by
  induction fuel generalizing list produced pos with
  | zero =>
      rcases list with _ | ⟨token, others⟩
      · rw [encodeSequences, if_pos rfl] at ends
        obtain rfl : pos = chunkEnd := ends
        rfl
      · rw [encodeSequences, if_neg (List.cons_ne_nil _ _)] at enough
        cases enough
  | succ fuel ih =>
      by_cases none_ : list = []
      · rw [none_, encodeSequences, if_pos rfl] at ends
        obtain rfl : pos = chunkEnd := ends
        rw [tokenSequences, if_neg (Nat.lt_irrefl _), none_]
        rfl
      · rw [encodeSequences, if_neg none_, List.cons_append] at there ends enough
        have few : (list.take 8).length ≤ 8 := List.length_take_le 8 list
        have short : (list.take 8).length < 8 → list.drop 8 = [] := fun less => by
          rw [List.length_take] at less
          exact List.drop_eq_nil_of_le (by omega)
        have cut := List.take_append_drop 8 list
        generalize list.take 8 = group at there ends enough cut few short
        generalize list.drop 8 = others at there ends enough cut short
        subst cut
        obtain ⟨groupFit, othersFit⟩ := (tokens_fit_append produced.length group others).mp fit
        have longer := decode_tokens_length produced group groupFit
        have sum := sizes_append group others
        rw [List.length_cons, List.length_append] at ends enough
        have byte : data[pos]? = some (UInt8.ofNat (flags group)) := by
          rw [← List.head?_drop, there]
          rfl
        have onward : data.drop (pos + 1) =
            encodeTokens produced.length group ++ (encodeSequences (produced.length + sizes group) others ++ rest) := by
          rw [← List.drop_drop, there, List.cons_append, List.drop_one, List.tail_cons, List.append_assoc]
        have group_ := tokens_encoded data before cap chunkEnd (UInt8.ofNat (flags group)) group produced _ 8 (pos + 1) few
          (Nat.le_refl 8) (flag_byte group few) onward groupFit (by omega) (by omega) (by omega) (fun less => by
            rw [short less, encodeSequences, if_pos rfl, List.length_nil] at ends
            omega)
        have further : data.drop (pos + 1 + (encodeTokens produced.length group).length) =
            encodeSequences (decodeTokens produced group).length others ++ rest := by
          rw [← List.drop_drop, onward, List.drop_left, longer]
        have again := ih others (decodeTokens produced group) (pos + 1 + (encodeTokens produced.length group).length) further
          (longer ▸ othersFit) (by omega) (by omega) (by rw [longer]; omega) (by rw [longer]; omega)
        rw [tokenSequences, if_pos (show pos < chunkEnd by omega), byte]
        simp only [group_]
        rw [decode_tokens_append]
        exact again

theorem compressed_header (size : Nat) (least : 3 ≤ size) (most : size ≤ 4098) :
    0x8000 ||| 0x3000 ||| (size - 3) < 2 ^ 16 ∧ (0x8000 ||| 0x3000 ||| (size - 3)) &&& 0x0FFF = size - 3 ∧
      (0x8000 ||| 0x3000 ||| (size - 3)) &&& 0x8000 ≠ 0 := by
  have small : size - 3 < 2 ^ 12 := by omega
  have sum : 0x8000 ||| 0x3000 ||| (size - 3) = 11 * 2 ^ 12 + (size - 3) := by
    rw [show 0x8000 ||| 0x3000 = 11 <<< 12 from rfl, ← Nat.shiftLeft_add_eq_or_of_lt small, Nat.shiftLeft_eq]
  refine ⟨by omega, ?_, fun zero => ?_⟩
  · rw [sum, show 0x0FFF = 2 ^ 12 - 1 from rfl, Nat.and_two_pow_sub_one_eq_mod]
    omega
  · rw [Nat.and_or_distrib_right] at zero
    exact absurd (Nat.or_eq_zero_iff.mp zero).1 (by decide)

theorem sequences_nonempty (list : List Token) (some_ : list ≠ []) : 2 ≤ (encodeSequences position list).length := by
  rw [encodeSequences, if_neg some_, List.length_append, List.length_cons]
  rcases list with _ | ⟨token, others⟩
  · exact absurd rfl some_
  · have first := encode_nonempty position token
    rw [List.take_succ_cons, encodeTokens, List.length_append]
    omega

def decodeAll (list : List Chunk) : List UInt8 := list.flatMap Chunk.decode

theorem chunk_read (rest : List UInt8) (cap fuel pos : Nat) (chunk : Chunk)
    (there : data.drop pos = chunk.encode ++ rest) (room : before.length + chunk.decode.length ≤ cap) :
    chunks data cap (fuel + 1) ⟨before, pos⟩ = chunks data cap fuel ⟨before ++ chunk.decode, pos + chunk.encode.length⟩ := by
  have total := congrArg List.length there
  rw [List.length_drop, List.length_append] at total
  cases chunk with
  | raw bytes full =>
      simp only [Chunk.encode, Chunk.decode, List.append_assoc] at there room ⊢
      simp only [Chunk.encode, List.length_append, chunkHeader, little_endian_length] at total ⊢
      have header := read_little_endian data there (by rw [full]; decide)
      rw [full] at header
      have body : data.drop (pos + 2) = bytes ++ rest := by
        rw [← List.drop_drop, there, chunkHeader, List.drop_left' (little_endian_length _)]
      have taken : Bytes.get data (pos + 2) (pos + 2 + 4096) = some bytes := by
        rw [Bytes.get, if_pos (by omega), body, List.take_left' (by omega)]
      rw [chunks, if_pos (show pos < data.length by omega), header]
      simp only [Bool.false_eq_true, if_false]
      rw [if_pos (by decide), Nat.min_eq_left (by omega), taken, Option.getD_some, if_neg (by omega), full, ← Nat.add_assoc]
  | compressed list nonempty fit bounded sized =>
      simp only [Chunk.encode, Chunk.decode, List.append_assoc] at there room ⊢
      simp only [Chunk.encode, List.length_append, chunkHeader, little_endian_length] at total ⊢
      have some_ := sequences_nonempty 0 list nonempty
      have size := decode_tokens_length [] list fit
      rw [List.length_nil, Nat.zero_add] at size
      obtain ⟨small, field, flagged⟩ := compressed_header ((encodeSequences 0 list).length + 2) (by omega) (by omega)
      have header := read_little_endian data there small
      have body : data.drop (pos + 2) = encodeSequences 0 list ++ rest := by
        rw [← List.drop_drop, there, chunkHeader, List.drop_left' (little_endian_length _)]
      have read := sequences_encoded data before cap (pos + 2 + (encodeSequences 0 list).length) data.length list [] rest (pos + 2)
        body fit (by rw [List.length_nil]; omega) (by rw [List.length_nil]; omega) rfl (by rw [List.length_nil]; omega)
      rw [List.append_nil] at read
      rw [chunks, if_pos (show pos < data.length by omega), header]
      simp only [if_true, field, if_neg flagged]
      rw [show min (pos + 2 + ((encodeSequences 0 list).length + 2 - 3 + 3) - 2) data.length =
        pos + 2 + (encodeSequences 0 list).length by omega, read, ← Nat.add_assoc]
      rfl

theorem chunks_read (before : List UInt8) (fuel pos : Nat)
    (there : data.drop pos = list.flatMap Chunk.encode) (inside : pos ≤ data.length)
    (room : before.length + (decodeAll list).length ≤ cap)
    (enough : list.length ≤ fuel) : chunks data cap fuel ⟨before, pos⟩ = .ok (before ++ decodeAll list) := by
  induction list generalizing before fuel pos with
  | nil =>
      have ended : pos = data.length := by
        have none_ := congrArg List.length there
        rw [List.length_drop] at none_
        exact Nat.le_antisymm inside (Nat.sub_eq_zero_iff_le.mp none_)
      rw [decodeAll, List.flatMap_nil, List.append_nil]
      cases fuel with
      | zero => rfl
      | succ fuel => rw [chunks, if_neg (show ¬ pos < data.length by omega)]
  | cons chunk list ih =>
      obtain ⟨fuel, rfl⟩ : ∃ less, fuel = less + 1 := ⟨fuel - 1, by rw [List.length_cons] at enough; omega⟩
      rw [List.flatMap_cons] at there
      have total := congrArg List.length there
      rw [List.length_drop, List.length_append] at total
      rw [decodeAll, List.flatMap_cons, List.length_append] at room
      have further : data.drop (pos + chunk.encode.length) = list.flatMap Chunk.encode := by
        rw [← List.drop_drop, there, List.drop_left]
      rw [chunk_read data before _ cap fuel pos chunk there (by omega),
        ih (before ++ chunk.decode) fuel _ further (by omega) (by rw [List.length_append, decodeAll]; omega)
          (Nat.le_of_succ_le_succ enough),
        decodeAll, decodeAll, List.flatMap_cons, List.append_assoc]

theorem chunk_nonempty (chunk : Chunk) : 1 ≤ chunk.encode.length := by
  cases chunk with
  | raw bytes full =>
      rw [Chunk.encode, List.length_append, full]
      omega
  | compressed list nonempty fit bounded sized =>
      rw [Chunk.encode, List.length_append]
      have some_ := sequences_nonempty 0 list nonempty
      omega

theorem chunks_count : list.length ≤ (list.flatMap Chunk.encode).length := by
  induction list with
  | nil => exact Nat.le_refl _
  | cons chunk list ih =>
      have some_ := chunk_nonempty chunk
      rw [List.flatMap_cons, List.length_append, List.length_cons]
      omega

theorem container_read (cap : Nat) (room : (decodeAll list).length ≤ cap) :
    decompressVba (encodeContainer list) cap = .ok (decodeAll list) := by
  have count := chunks_count list
  have read := chunks_read (encodeContainer list) cap list [] (encodeContainer list).length 1 rfl
    (by rw [encodeContainer, List.length_cons]; omega) (by rw [List.length_nil]; omega)
    (by rw [encodeContainer, List.length_cons]; omega)
  exact read

variable {α β : Type}

-- A run under a cap: a higher cap changes nothing unless the lower one was passed, and what comes out is within the cap
-- when what went in was.
structure Capped (size : α → Nat) (start : Nat) (run : Nat → Except DecompressError α) : Prop where
  raises : ∀ low high, low ≤ high → run low = run high ∨ run low = .error .tooLarge
  within : ∀ cap result, start ≤ cap → run cap = .ok result → size result ≤ cap

theorem capped_ok (size : α → Nat) (result : α) : Capped size (size result) fun _ => .ok result := by
  refine ⟨fun low high le => Or.inl rfl, fun cap other start same => ?_⟩
  obtain rfl := Except.ok.inj same
  exact start

theorem capped_check {size : α → Nat} (start : Nat) {needed : Nat} (refused : Nat → Prop) [DecidablePred refused]
    (short : ∀ cap, refused cap ↔ cap < needed) (run : Nat → Except DecompressError α) (capped : Capped size needed run) :
    Capped size start fun cap => if refused cap then .error .tooLarge else run cap := by
  constructor
  · intro low high le
    by_cases refusal : refused low
    · exact Or.inr (if_pos refusal)
    · have enough : ¬ refused high := fun also => by
        have under := (short high).mp also
        exact refusal ((short low).mpr (by omega))
      rw [if_neg refusal, if_neg enough]
      exact capped.raises low high le
  · intro cap result _ same
    split at same
    · cases same
    · next passed =>
        have enough : needed ≤ cap := Nat.le_of_not_lt fun under => passed ((short cap).mpr under)
        exact capped.within cap result enough same

theorem capped_bind {size : α → Nat} {after : β → Nat} {start : Nat} {run : Nat → Except DecompressError α}
    (next : Nat → α → Except DecompressError β) (first : Capped size start run)
    (rest : ∀ result, Capped after (size result) fun cap => next cap result) :
    Capped after start fun cap => (run cap).bind (next cap) := by
  constructor
  · intro low high le
    rcases first.raises low high le with same | large
    · rw [same]
      cases run high with
      | error error => exact Or.inl rfl
      | ok result => exact (rest result).raises low high le
    · rw [large]
      exact Or.inr rfl
  · intro cap result enough same
    cases ran : run cap with
    | error error => rw [ran] at same; cases same
    | ok middle =>
        rw [ran] at same
        exact (rest middle).within cap result (first.within cap middle enough ran) same

theorem copy_bytes_length (output : List UInt8) : (copyBytes offset count output).length = output.length + count := by
  induction count generalizing output with
  | zero => rfl
  | succ count ih =>
      rw [copyBytes, ih, List.length_append, List.length_singleton]
      omega

variable (start : Nat)

theorem copy_token_capped (token : Nat) (output : List UInt8) :
    Capped List.length output.length fun cap => copyToken cap start token output := by
  unfold copyToken
  refine capped_check output.length _ (fun cap => Iff.rfl) _ ?_
  rw [← copy_bytes_length]
  exact capped_ok List.length _

def Cursor.size (cursor : Cursor) : Nat := cursor.output.length

theorem tokens_capped (flag : UInt8) (left : Nat) (cursor : Cursor) :
    Capped Cursor.size cursor.size fun cap => tokens data cap chunkEnd start flag left cursor := by
  induction left generalizing cursor with
  | zero => exact capped_ok Cursor.size cursor
  | succ left ih =>
      unfold tokens
      by_cases ended : chunkEnd ≤ cursor.pos
      · simp only [if_pos ended]
        exact capped_ok Cursor.size cursor
      · simp only [if_neg ended]
        by_cases plain : flag.toNat >>> (7 - left) &&& 1 = 0
        · simp only [if_pos plain]
          cases data[cursor.pos]? with
          | none => exact ih cursor
          | some literal =>
              have next := ih ⟨cursor.output ++ [literal], cursor.pos + 1⟩
              rw [show Cursor.size ⟨cursor.output ++ [literal], cursor.pos + 1⟩ = cursor.size + 1 from List.length_append] at next
              exact capped_check cursor.size _ (fun cap => Nat.lt_succ_iff.symm) _ next
        · simp only [if_neg plain]
          cases Bytes.u16le data cursor.pos with
          | none => exact capped_ok Cursor.size { cursor with pos := data.length }
          | some token =>
              exact capped_bind _ (copy_token_capped start token cursor.output)
                fun output => ih ⟨output, cursor.pos + 2⟩

theorem token_sequences_capped (fuel : Nat) (cursor : Cursor) :
    Capped Cursor.size cursor.size fun cap => tokenSequences data cap chunkEnd start fuel cursor := by
  induction fuel generalizing cursor with
  | zero => exact capped_ok Cursor.size cursor
  | succ fuel ih =>
      unfold tokenSequences
      by_cases more : cursor.pos < chunkEnd
      · simp only [if_pos more]
        cases data[cursor.pos]? with
        | none => exact capped_ok Cursor.size cursor
        | some flag =>
            exact capped_bind _
              (tokens_capped data chunkEnd start flag 8 { cursor with pos := cursor.pos + 1 }) ih
      · simp only [if_neg more]
        exact capped_ok Cursor.size cursor

theorem chunks_capped (cursor : Cursor) : Capped List.length cursor.size fun cap => chunks data cap fuel cursor := by
  induction fuel generalizing cursor with
  | zero => exact capped_ok List.length cursor.output
  | succ fuel ih =>
      unfold chunks
      by_cases more : cursor.pos < data.length
      · simp only [if_pos more]
        cases Bytes.u16le data cursor.pos with
        | none => exact capped_ok List.length cursor.output
        | some header =>
            by_cases raw : header &&& 0x8000 = 0
            · simp only [if_pos raw]
              refine capped_check cursor.size _ (fun cap => Iff.rfl) _ ?_
              rw [← List.length_append]
              exact ih ⟨_, _⟩
            · simp only [if_neg raw]
              exact capped_bind _
                (token_sequences_capped data _ _ data.length ⟨cursor.output, cursor.pos + 2⟩) ih
      · simp only [if_neg more]
        exact capped_ok List.length cursor.output

theorem decompress_capped : Capped List.length 0 fun cap => decompressVba data cap := by
  unfold decompressVba
  cases data with
  | nil => exact capped_ok List.length []
  | cons signature rest =>
      by_cases wrong : signature ≠ 1
      · simp only [if_pos wrong]
        exact ⟨fun low high le => Or.inl rfl, fun cap result enough same => by cases same⟩
      · simp only [if_neg wrong]
        exact chunks_capped (signature :: rest) (signature :: rest).length ⟨[], 1⟩

-- Every container is read back under a cap that its bytes fit, and raising a cap only turns TooLarge into a result.
theorem decompress_vba_reads :
    (∀ (list : List Chunk) (cap : Nat), (list.flatMap Chunk.decode).length ≤ cap →
      decompressVba (encodeContainer list) cap = .ok (list.flatMap Chunk.decode)) ∧
    ∀ data : List UInt8,
      (∀ low high result, low ≤ high → result ≠ .error .tooLarge → decompressVba data low = result →
        decompressVba data high = result) ∧
      (∀ cap output, decompressVba data cap = .ok output → output.length ≤ cap) ∧
      ∀ low high, low ≤ high → decompressVba data high = .error .tooLarge → decompressVba data low = .error .tooLarge := by
  refine ⟨container_read, fun data => ?_⟩
  have capped := decompress_capped data
  refine ⟨fun low high result le fine same => ?_, fun cap output same => ?_, fun low high le large => ?_⟩
  · rcases capped.raises low high le with equal | large
    · rw [← equal, same]
    · exact absurd (same.symm.trans large) fine
  · exact capped.within cap output (Nat.zero_le cap) same
  · rcases capped.raises low high le with equal | already
    · rw [equal, large]
    · exact already

def repeated : Chunk :=
  .compressed [.literal 97, .literal 98, .literal 99, .copy 3 6] (List.cons_ne_nil _ _)
    ⟨trivial, trivial, trivial, ⟨by decide, by decide, by decide, by decide +kernel⟩, trivial⟩ (by decide) (by
      rw [encodeSequences, encodeSequences]
      decide +kernel)

theorem decompress_vba_reads_repeated :
    decompressVba (encodeContainer [repeated]) 9 = .ok [97, 98, 99, 97, 98, 99, 97, 98, 99] :=
  decompress_vba_reads.1 [repeated] 9 (by decide +kernel)

end Filefacts.Vba
