import Filefacts.Lib.BigEndian
import Filefacts.Lib.Radix

set_option autoImplicit false

namespace Filefacts.Pdf

open BigEndian (octetsOf value)

def isWhite (b : UInt8) : Bool := b == 0 || b == 9 || b == 10 || b == 0x0C || b == 13 || b == 32

-- A group of base-85 digits, padded with the largest digit.
def wordValue (digits : List UInt8) : Nat :=
  (List.range 5).foldl (fun acc i => acc * 85 + (digits[i]?.getD 84).toNat) 0

def word (digits : List UInt8) : Option (List UInt8) :=
  if wordValue digits < 2 ^ 32 then some (octetsOf 4 (wordValue digits)) else none

def ascii85Tail (cap : Nat) (group out : List UInt8) : List UInt8 :=
  if 1 < group.length then
    match word group with
    | some bytes => (out ++ bytes.take (group.length - 1)).take cap
    | none => out.take cap
  else out.take cap

def ascii85Loop (cap : Nat) : List UInt8 → List UInt8 → List UInt8 → List UInt8
  | [], group, out => ascii85Tail cap group out
  | b :: rest, group, out =>
      if cap ≤ out.length then ascii85Tail cap group out
      else if b = 122 ∧ group = [] then ascii85Loop cap rest group (out ++ [0, 0, 0, 0])
      else if 33 ≤ b ∧ b ≤ 117 then
        if (group ++ [b - 33]).length = 5 then
          match word (group ++ [b - 33]) with
          | none => out
          | some bytes => ascii85Loop cap rest [] (out ++ bytes)
        else ascii85Loop cap rest (group ++ [b - 33]) out
      else if isWhite b then ascii85Loop cap rest group out
      else ascii85Tail cap group out

-- Some writers keep the opener of the stand-alone format.
def afterOpener (input : List UInt8) : List UInt8 :=
  let start := (input.findIdx? fun b => !isWhite b).getD 0
  match input.drop start with
  | 60 :: 126 :: rest => rest
  | _ => input

def ascii85Decode (input : List UInt8) (cap : Nat) : List UInt8 := ascii85Loop cap (afterOpener input) [] []

-- The bytes a group stands for, one fewer than its digits.
def groupBytes (group : List UInt8) : List UInt8 := ((word group).getD []).take (group.length - 1)

def decoded : List UInt8 → List UInt8 → List UInt8
  | [], group => groupBytes group
  | b :: rest, group =>
      if b = 122 ∧ group = [] then [0, 0, 0, 0] ++ decoded rest group
      else if 33 ≤ b ∧ b ≤ 117 then
        if (group ++ [b - 33]).length = 5 then
          if wordValue (group ++ [b - 33]) < 2 ^ 32 then groupBytes (group ++ [b - 33]) ++ decoded rest [] else []
        else decoded rest (group ++ [b - 33])
      else if isWhite b then decoded rest group
      else groupBytes group

variable (group : List UInt8) (cap : Nat) (input : List UInt8)

theorem word_length (bytes : List UInt8) (fits : word group = some bytes) : bytes.length = 4 := by
  unfold word at fits
  split at fits
  · obtain rfl := Option.some.inj fits
    exact BigEndian.octets_of_length 4 _
  · cases fits

theorem group_bytes_full (full : group.length = 5) (fits : wordValue group < 2 ^ 32) :
    word group = some (groupBytes group) := by
  have bytes : word group = some (octetsOf 4 (wordValue group)) := if_pos fits
  rw [groupBytes, bytes, Option.getD_some, full, List.take_of_length_le]
  exact (BigEndian.octets_of_length 4 _).le

theorem tail_group_bytes (group out : List UInt8) : ascii85Tail cap group out = (out ++ groupBytes group).take cap := by
  unfold ascii85Tail groupBytes
  split
  · cases word group with
    | none => rw [Option.getD_none, List.take_nil, List.append_nil]
    | some bytes => rfl
  · next short =>
      have dropped : group.length - 1 = 0 := by omega
      rw [dropped, List.take_zero, List.append_nil]

theorem loop_decoded (group out : List UInt8) (room : out.length < cap ∨ group = []) :
    ascii85Loop cap input group out = (out ++ decoded input group).take cap := by
  fun_induction ascii85Loop cap input group out with
  | case1 group out => exact tail_group_bytes cap group out
  | case2 b rest group out full =>
      obtain rfl : group = [] := room.resolve_left (Nat.not_lt_of_le full)
      rw [tail_group_bytes, List.take_append_of_le_length full, List.take_append_of_le_length full]
  | case3 b rest group out space zero ih =>
      obtain ⟨rfl, rfl⟩ := zero
      rw [ih (Or.inr rfl), decoded, if_pos ⟨rfl, rfl⟩, List.append_assoc]
  | case4 b rest group out space plain digit full overflow =>
      have large : ¬ wordValue (group ++ [b - 33]) < 2 ^ 32 := by
        intro fits
        rw [group_bytes_full _ full fits] at overflow
        cases overflow
      rw [decoded, if_neg plain, if_pos digit, if_pos full, if_neg large, List.append_nil, List.take_of_length_le (by omega)]
  | case5 b rest group out space plain digit full bytes there ih =>
      have fits : wordValue (group ++ [b - 33]) < 2 ^ 32 := by
        by_contra large
        rw [word, if_neg large] at there
        cases there
      obtain rfl := Option.some.inj ((group_bytes_full _ full fits).symm.trans there)
      rw [ih (Or.inr rfl), decoded, if_neg plain, if_pos digit, if_pos full, if_pos fits, List.append_assoc]
  | case6 b rest group out space plain digit open_ ih =>
      rw [ih (Or.inl (by omega)), decoded, if_neg plain, if_pos digit, if_neg open_]
  | case7 b rest group out space plain other white ih =>
      rw [ih room, decoded, if_neg plain, if_neg other, if_pos white]
  | case8 b rest group out space plain other stop =>
      rw [tail_group_bytes, decoded, if_neg plain, if_neg other, if_neg stop]

theorem ascii85_decode_take (cap : Nat) : ascii85Decode input cap = (decoded (afterOpener input) []).take cap := by
  rw [ascii85Decode, loop_decoded cap _ _ _ (Or.inr rfl), List.nil_append]

-- How bytes are spelled: five digits for four of them, one digit more than the
-- bytes of a last short group, which is encoded as if zeros followed.
def digitsOf (number : Nat) : List UInt8 := (Radix.digitsOf 85 5 number).map fun digit => UInt8.ofNat (digit + 33)

inductive Groups : List UInt8 → List UInt8 → Prop
  | nil : Groups [] []
  | full (quad rest text : List UInt8) (four : quad.length = 4) (after : Groups rest text) :
      Groups (quad ++ rest) (digitsOf (value quad) ++ text)
  | zero (rest text : List UInt8) (after : Groups rest text) : Groups ([0, 0, 0, 0] ++ rest) (122 :: text)
  | short (last : List UInt8) (filled : 0 < last.length) (few : last.length < 4) :
      Groups last ((digitsOf (value (last ++ List.replicate (4 - last.length) 0))).take (last.length + 1))

-- White space stands anywhere but inside the opener; anything may follow the
-- terminator.
inductive Terminator : List UInt8 → Prop
  | absent : Terminator []
  | present (gap rest : List UInt8) (blank : ∀ b ∈ gap, isWhite b = true) : Terminator (126 :: (gap ++ 62 :: rest))

structure Spelling (bytes text lead opener body tail : List UInt8) : Prop where
  parts : text = lead ++ (opener ++ (body ++ tail))
  blank : ∀ b ∈ lead, isWhite b = true
  opened : opener = [] ∨ opener = [60, 126]
  groups : Groups bytes (body.filter fun b => !isWhite b)
  ended : Terminator tail

variable (digits : List UInt8) (number : Nat) (b : UInt8) (rest text : List UInt8)

theorem word_value_radix (few : digits.length ≤ 5) :
    wordValue digits = Radix.value 85 (digits.map UInt8.toNat ++ List.replicate (5 - digits.length) 84) := by
  have read : (List.range 5).map (fun i => (digits[i]?.getD 84).toNat) =
      digits.map UInt8.toNat ++ List.replicate (5 - digits.length) 84 := by
    apply List.ext_getElem
    · simp only [List.length_map, List.length_range, List.length_append, List.length_replicate]
      omega
    · intro i low high
      rw [List.getElem_map, List.getElem_range, List.getElem_append]
      split
      · next inside =>
          rw [List.length_map] at inside
          rw [List.getElem_map, List.getElem?_eq_getElem inside, Option.getD_some]
      · next outside =>
          rw [List.length_map] at outside
          rw [List.getElem_replicate, List.getElem?_eq_none (Nat.le_of_not_lt outside)]
          rfl
  rw [wordValue, Radix.value, ← read, List.foldl_map]

theorem digits_of_digit (member : b ∈ digitsOf number) : 33 ≤ b ∧ b ≤ 117 := by
  obtain ⟨digit, inside, rfl⟩ := List.mem_map.mp member
  have small := Radix.digits_of_lt 85 (by omega) 5 number digit inside
  rw [UInt8.le_iff_toNat_le, UInt8.le_iff_toNat_le, UInt8.toNat_ofNat']
  constructor
  · change 33 ≤ _
    omega
  · change _ ≤ 117
    omega

theorem digits_of_length : (digitsOf number).length = 5 := by
  rw [digitsOf, List.length_map, Radix.digits_of_length]

theorem digits_of_kept : ((digitsOf number).map fun b => (b - 33).toNat) = Radix.digitsOf 85 5 number := by
  rw [digitsOf, List.map_map]
  apply (List.map_congr_left _).trans (List.map_id _)
  intro digit member
  have small := Radix.digits_of_lt 85 (by omega) 5 number digit member
  have above : (33 : UInt8) ≤ UInt8.ofNat (digit + 33) := by
    rw [UInt8.le_iff_toNat_le, UInt8.toNat_ofNat']
    change 33 ≤ _
    omega
  rw [Function.comp_apply, UInt8.toNat_sub_of_le _ _ above, UInt8.toNat_ofNat']
  change _ - 33 = digit
  omega

theorem decoded_open (group : List UInt8) (proper : ∀ b ∈ digits, 33 ≤ b ∧ b ≤ 117)
    (short : group.length + digits.length < 5) :
    decoded (digits ++ rest) group = decoded rest (group ++ digits.map fun b => b - 33) := by
  induction digits generalizing group with
  | nil => rw [List.nil_append, List.map_nil, List.append_nil]
  | cons b digits ih =>
      have digit := proper b List.mem_cons_self
      rw [List.length_cons] at short
      have plain : ¬ (b = 122 ∧ group = []) := by
        rintro ⟨rfl, -⟩
        exact absurd digit.2 (by decide)
      have unfilled : ¬ (group ++ [b - 33]).length = 5 := by
        rw [List.length_append, List.length_singleton]
        omega
      rw [List.cons_append, decoded, if_neg plain, if_pos digit, if_neg unfilled,
        ih (group ++ [b - 33]) (fun other member => proper other (List.mem_cons_of_mem _ member))
          (by rw [List.length_append, List.length_singleton]; omega), List.map_cons, List.append_assoc, List.singleton_append]

theorem decoded_full (proper : ∀ b ∈ digits, 33 ≤ b ∧ b ≤ 117) (full : digits.length = 5) :
    decoded (digits ++ rest) [] =
      if wordValue (digits.map fun b => b - 33) < 2 ^ 32 then
        groupBytes (digits.map fun b => b - 33) ++ decoded rest []
      else [] := by
  obtain ⟨front, last, rfl⟩ : ∃ front last, digits = front ++ [last] := by
    rcases List.eq_nil_or_concat digits with rfl | ⟨front, last, rfl⟩
    · cases full
    · exact ⟨front, last, List.concat_eq_append⟩
  rw [List.length_append, List.length_singleton] at full
  have digit := proper last (List.mem_append_right _ (List.mem_singleton_self last))
  have plain : ¬ (last = 122 ∧ [] ++ (front.map fun b => b - 33) = []) := by
    rintro ⟨rfl, -⟩
    exact absurd digit.2 (by decide)
  have filled : (([] ++ front.map fun b => b - 33) ++ [last - 33]).length = 5 := by
    rw [List.nil_append, List.length_append, List.length_map, List.length_singleton]
    exact full
  rw [List.append_assoc, decoded_open front ([last] ++ rest) [] (fun b member => proper b (List.mem_append_left _ member))
    (by rw [List.length_nil]; omega), List.singleton_append, decoded, if_neg plain, if_pos digit, if_pos filled,
    List.nil_append, List.map_append, List.map_singleton]

theorem kept_value (front : Nat) (number : Nat) (few : front ≤ 5) :
    wordValue (((digitsOf number).take front).map fun b => b - 33) =
      Radix.value 85 ((Radix.digitsOf 85 5 number).take front ++ List.replicate (5 - front) 84) := by
  have length : (((digitsOf number).take front).map fun b => b - 33).length = front := by
    rw [List.length_map, List.length_take, digits_of_length]
    omega
  rw [word_value_radix _ (by omega), length, List.map_map, ← digits_of_kept, List.map_take]
  rfl

theorem quad_bytes (quad : List UInt8) (four : quad.length = 4) :
    wordValue ((digitsOf (value quad)).map fun b => b - 33) < 2 ^ 32 ∧
      groupBytes ((digitsOf (value quad)).map fun b => b - 33) = quad := by
  have fits := BigEndian.value_lt quad
  rw [four] at fits
  have number := kept_value 5 (value quad) le_rfl
  rw [List.take_of_length_le (digits_of_length _).le, List.take_of_length_le (Radix.digits_of_length 85 5 _).le, Nat.sub_self,
    List.replicate_zero, List.append_nil, Radix.value_digits_of 85 5 _ (fits.trans (by decide))] at number
  have length : ((digitsOf (value quad)).map fun b => b - 33).length = 5 := by
    rw [List.length_map, digits_of_length]
  have small : wordValue ((digitsOf (value quad)).map fun b => b - 33) < 2 ^ 32 := by
    rw [number]
    exact fits
  refine ⟨small, ?_⟩
  have bytes := group_bytes_full _ length small
  rw [word, if_pos small, number] at bytes
  rw [← Option.some.inj bytes, ← four]
  exact BigEndian.octets_of_value quad

variable (last lead : List UInt8)

-- Rounding the missing digits up stays below the next value of the kept bytes.
theorem padding_keeps (filled : 0 < last.length) (few : last.length < 4) :
    ∃ bytes, word (((digitsOf (value (last ++ List.replicate (4 - last.length) 0))).take (last.length + 1)).map fun b => b - 33) =
      some bytes ∧ bytes.take last.length = last := by
  have padded : value (last ++ List.replicate (4 - last.length) 0) = value last * 256 ^ (4 - last.length) := by
    have zeros : ∀ count, value (List.replicate count 0) = 0 := by
      intro count
      induction count with
      | zero => rfl
      | succ count ih => rw [List.replicate_succ', BigEndian.value_concat, ih]; rfl
    rw [BigEndian.value_append, zeros, List.length_replicate, Nat.add_zero]
  have bound := BigEndian.value_lt last
  have digits : ∀ digit ∈ (Radix.digitsOf 85 5 (value last * 256 ^ (4 - last.length))).drop (last.length + 1), digit < 85 :=
    fun digit member => Radix.digits_of_lt 85 (by omega) 5 _ digit (List.mem_of_mem_drop member)
  have rounded := Radix.rounded_up 85 (by omega)
    ((Radix.digitsOf 85 5 (value last * 256 ^ (4 - last.length))).take (last.length + 1)) _ digits
  have fits : value last * 256 ^ (4 - last.length) < 256 ^ 4 := by
    calc value last * 256 ^ (4 - last.length) < 256 ^ last.length * 256 ^ (4 - last.length) :=
          Nat.mul_lt_mul_of_pos_right bound (Nat.pow_pos (by omega))
      _ = 256 ^ 4 := by rw [← Nat.pow_add, Nat.add_sub_of_le few.le]
  have places : ((Radix.digitsOf 85 5 (value last * 256 ^ (4 - last.length))).drop (last.length + 1)).length = 4 - last.length := by
    rw [List.length_drop, Radix.digits_of_length]
    omega
  have missing : 5 - (last.length + 1) = 4 - last.length := by omega
  rw [List.take_append_drop, Radix.value_digits_of 85 5 _ (fits.trans (by decide)), places] at rounded
  have number := kept_value (last.length + 1) (value last * 256 ^ (4 - last.length)) (by omega)
  rw [missing] at number
  rw [← number] at rounded
  have unit : 85 ^ (4 - last.length) ≤ 256 ^ (4 - last.length) := Nat.pow_le_pow_left (by omega) _
  have whole : 256 ^ last.length * 256 ^ (4 - last.length) = 256 ^ 4 := by rw [← Nat.pow_add, Nat.add_sub_of_le few.le]
  have next : (value last + 1) * 256 ^ (4 - last.length) ≤ 256 ^ last.length * 256 ^ (4 - last.length) :=
    Nat.mul_le_mul_right _ bound
  rw [Nat.add_mul, Nat.one_mul, whole] at next
  have kept := Nat.div_eq_of_lt_le (k := value last) rounded.1 (by rw [Nat.add_mul, Nat.one_mul]; omega)
  have width : last.length + (4 - last.length) = 4 := by omega
  rw [padded]
  refine ⟨_, if_pos (show _ < 256 ^ 4 by omega), ?_⟩
  calc (octetsOf 4 _).take last.length = (octetsOf (last.length + (4 - last.length)) _).take last.length := by rw [width]
    _ = octetsOf last.length (_ / 256 ^ (4 - last.length)) := BigEndian.octets_of_take _ _ _
    _ = last := by rw [kept, BigEndian.octets_of_value]

theorem short_bytes (filled : 0 < last.length) (few : last.length < 4) :
    groupBytes (((digitsOf (value (last ++ List.replicate (4 - last.length) 0))).take (last.length + 1)).map fun b => b - 33) = last := by
  obtain ⟨bytes, fits, kept⟩ := padding_keeps last filled few
  have length : (((digitsOf (value (last ++ List.replicate (4 - last.length) 0))).take (last.length + 1)).map
      fun b => b - 33).length - 1 = last.length := by
    rw [List.length_map, List.length_take, digits_of_length]
    omega
  rw [groupBytes, fits, length, Option.getD_some, kept]

theorem white_below (white : isWhite b = true) : b < 33 := by
  simp only [isWhite, Bool.or_eq_true, beq_iff_eq] at white
  rcases white with ((((rfl | rfl) | rfl) | rfl) | rfl) | rfl <;> decide

theorem decoded_white (group : List UInt8) (white : isWhite b = true) : decoded (b :: rest) group = decoded rest group := by
  have below := white_below b white
  rw [UInt8.lt_iff_toNat_lt] at below
  have plain : ¬ (b = 122 ∧ group = []) := by
    rintro ⟨rfl, -⟩
    exact absurd below (by decide)
  have other : ¬ (33 ≤ b ∧ b ≤ 117) := by
    rintro ⟨digit, -⟩
    rw [UInt8.le_iff_toNat_le] at digit
    omega
  rw [decoded, if_neg plain, if_neg other, if_pos white]

theorem decoded_filter (rest group : List UInt8) :
    decoded (text ++ rest) group = decoded (text.filter (fun b => !isWhite b) ++ rest) group := by
  induction text generalizing group with
  | nil => rfl
  | cons b text ih =>
      rw [List.cons_append, List.filter_cons]
      cases white : isWhite b with
      | true => rw [decoded_white b _ group white, ih]; rfl
      | false =>
          rw [Bool.not_false, if_pos rfl, List.cons_append, decoded, decoded]
          simp only [ih]

theorem decoded_terminator (tail group : List UInt8) (ended : Terminator tail) : decoded tail group = groupBytes group := by
  cases ended with
  | absent => rfl
  | present gap rest blank => rw [decoded, if_neg (by simp), if_neg (by decide), if_neg (by decide)]

theorem decoded_groups (bytes text tail : List UInt8) (groups : Groups bytes text) (ended : Terminator tail) :
    decoded (text ++ tail) [] = bytes := by
  induction groups with
  | nil => exact decoded_terminator tail [] ended
  | full quad rest text four after ih =>
      have digits := digits_of_digit (value quad)
      have number := quad_bytes quad four
      rw [List.append_assoc, decoded_full _ _ digits (digits_of_length _), if_pos number.1, number.2, ih]
  | zero rest text after ih => rw [List.cons_append, decoded, if_pos ⟨rfl, rfl⟩, ih]
  | short last filled few =>
      have digits : ∀ b ∈ (digitsOf (value (last ++ List.replicate (4 - last.length) 0))).take (last.length + 1), 33 ≤ b ∧ b ≤ 117 :=
        fun b member => digits_of_digit _ b (List.mem_of_mem_take member)
      rw [decoded_open _ tail [] digits (by rw [List.length_take, digits_of_length, List.length_nil]; omega),
        decoded_terminator tail _ ended, List.nil_append, short_bytes last filled few]

theorem find_dark (rest : List UInt8) (b : UInt8) (blank : ∀ b ∈ lead, isWhite b = true) (dark : isWhite b = false) :
    (lead ++ b :: rest).findIdx? (fun b => !isWhite b) = some lead.length := by
  induction lead with
  | nil =>
      rw [List.nil_append, List.findIdx?_cons, dark]
      rfl
  | cons head lead ih =>
      have white := blank head List.mem_cons_self
      have later := ih fun other member => blank other (List.mem_cons_of_mem _ member)
      simp [List.findIdx?_cons, white, later]

theorem after_opener_opened (rest : List UInt8) (blank : ∀ b ∈ lead, isWhite b = true) :
    afterOpener (lead ++ 60 :: 126 :: rest) = rest := by
  simp only [afterOpener, find_dark lead (126 :: rest) 60 blank rfl, Option.getD_some, List.drop_left]

theorem after_opener_cases : afterOpener text = text ∨
    ∃ lead rest, text = lead ++ 60 :: 126 :: rest ∧ (∀ b ∈ lead, isWhite b = true) ∧ afterOpener text = rest := by
  simp only [afterOpener]
  split
  · next rest there =>
      refine Or.inr ⟨text.take ((text.findIdx? fun b => !isWhite b).getD 0), rest, ?_, ?_, rfl⟩
      · rw [← there, List.take_append_drop]
      · intro b member
        cases found : text.findIdx? fun b => !isWhite b with
        | none =>
            rw [found, Option.getD_none, List.take_zero] at member
            cases member
        | some start =>
            rw [found, Option.getD_some] at member
            obtain ⟨i, inside, rfl⟩ := List.mem_take_iff_getElem.mp member
            have first := List.findIdx?_eq_some_iff_getElem.mp found
            simpa using first.2.2 i (by omega)
  · exact Or.inl rfl

theorem groups_nil (groups : Groups [] text) : text = [] := by
  generalize none_left : ([] : List UInt8) = bytes at groups
  cases groups with
  | nil => rfl
  | full quad rest text four after =>
      rw [(List.append_eq_nil_iff.mp none_left.symm).1] at four
      cases four
  | zero rest text after => cases none_left
  | short last filled few =>
      rw [← none_left] at filled
      cases filled

theorem decoded_spelling {bytes text lead opener body tail : List UInt8} (spelling : Spelling bytes text lead opener body tail) :
    decoded (afterOpener text) [] = bytes := by
  have plain : ∀ front, (∀ b ∈ front, isWhite b = true) → decoded (front ++ (body ++ tail)) [] = bytes := by
    intro front blank
    have gone : front.filter (fun b => !isWhite b) = [] := by simpa [List.filter_eq_nil_iff] using blank
    rw [decoded_filter, gone, List.nil_append, decoded_filter]
    exact decoded_groups bytes _ tail spelling.groups spelling.ended
  rcases spelling.opened with rfl | rfl
  · have text_eq := spelling.parts
    rw [List.nil_append] at text_eq
    have whole := plain lead spelling.blank
    rcases after_opener_cases text with same | ⟨front, rest, parts, blank, -⟩
    · rw [same, text_eq, whole]
    · -- Such a text has one digit at most before its end, so nothing is spelled.
      have gone : front.filter (fun b => !isWhite b) = [] := by simpa [List.filter_eq_nil_iff] using blank
      have empty : bytes = [] := by
        rw [← whole, ← text_eq, parts, decoded_filter, gone]
        rfl
      have dark := congrArg (List.filter fun b => !isWhite b) (text_eq.symm.trans parts)
      have lead_gone : lead.filter (fun b => !isWhite b) = [] := by simpa [List.filter_eq_nil_iff] using spelling.blank
      have groups := spelling.groups
      rw [empty] at groups
      rw [List.filter_append, List.filter_append, List.filter_append, gone, lead_gone, groups_nil _ groups] at dark
      cases spelling.ended with
      | absent => cases dark
      | present gap after hidden => exact absurd (List.cons.inj dark).1 (by decide)
  · rw [spelling.parts, List.cons_append, List.cons_append, List.nil_append, after_opener_opened lead _ spelling.blank]
    exact plain [] (fun b member => absurd member List.not_mem_nil)

theorem ascii85_decode_spelling :
    (∀ bytes text lead opener body tail cap, Spelling bytes text lead opener body tail →
      ascii85Decode text cap = bytes.take cap) ∧
    (∀ last : List UInt8, 0 < last.length → last.length < 4 →
      ∃ padded, word (((digitsOf (value (last ++ List.replicate (4 - last.length) 0))).take (last.length + 1)).map fun b => b - 33) =
        some padded ∧ padded.take last.length = last) ∧
    ∀ input low high, low ≤ high → ascii85Decode input low = (ascii85Decode input high).take low := by
  refine ⟨?_, padding_keeps, ?_⟩
  · intro bytes text lead opener body tail cap spelling
    rw [ascii85_decode_take, decoded_spelling spelling]
  · intro input low high ordered
    rw [ascii85_decode_take, ascii85_decode_take, List.take_take, Nat.min_eq_left ordered]

theorem ascii85_decode_spelling_man :
    ascii85Decode [32, 60, 126, 57, 106, 113, 32, 111, 94, 122, 57, 96, 126, 62, 113] 5 = [77, 97, 110, 32, 0] := by
  have groups : Groups ([77, 97, 110, 32] ++ ([0, 0, 0, 0] ++ [77])) ([57, 106, 113, 111, 94] ++ 122 :: [57, 96]) :=
    .full [77, 97, 110, 32] _ _ rfl (.zero _ _ (.short [77] (by decide) (by decide)))
  have spelling : Spelling ([77, 97, 110, 32] ++ ([0, 0, 0, 0] ++ [77])) _ [32] [60, 126] [57, 106, 113, 32, 111, 94, 122, 57, 96]
      [126, 62, 113] := ⟨rfl, List.forall_mem_singleton.mpr rfl, Or.inr rfl, groups, .present [] [113] (List.forall_mem_nil _)⟩
  exact (ascii85_decode_spelling.1 _ _ _ _ _ _ 5 spelling).trans rfl

end Filefacts.Pdf
