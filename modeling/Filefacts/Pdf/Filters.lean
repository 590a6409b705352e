import Filefacts.Pdf.Ascii85

set_option autoImplicit false

namespace Filefacts.Pdf

open BigEndian (octetsOf)

-- What a reader hands out before it ends or fails.
structure Reader where
  bytes : List UInt8
  failed : Bool
deriving DecidableEq, Repr

inductive OnError where
  | discard
  | keepPartial
deriving DecidableEq, Repr

structure MemberPrefix where
  bytes : List UInt8
  truncated : Bool
deriving DecidableEq, Repr

-- One byte past the cap is read, so an error behind it is not met.
def inflateCapped (reader : Reader) (cap : Nat) (onError : OnError) : Option MemberPrefix :=
  let bytes := reader.bytes.take (cap + 1)
  let failed := reader.failed && decide (reader.bytes.length < cap + 1)
  if failed ∧ (onError = .discard ∨ bytes = []) then none
  else some { bytes := bytes.take cap, truncated := bytes.length > cap }

def hexNibble (b : UInt8) : Option UInt8 :=
  if 48 ≤ b ∧ b ≤ 57 then some (b - 48)
  else if 97 ≤ b ∧ b ≤ 102 then some (b - 97 + 10)
  else if 65 ≤ b ∧ b ≤ 70 then some (b - 65 + 10)
  else none

theorem byte_joined (b : UInt8) : ((b >>> 4) <<< 4) ||| (b &&& 15) = b := by
  apply UInt8.eq_of_toBitVec_eq
  apply BitVec.eq_of_getLsbD_eq
  intro i inside
  have places : i = 0 ∨ i = 1 ∨ i = 2 ∨ i = 3 ∨ i = 4 ∨ i = 5 ∨ i = 6 ∨ i = 7 := by omega
  rcases places with rfl | rfl | rfl | rfl | rfl | rfl | rfl | rfl <;> simp

def decodeHexLoop (cap : Nat) : List UInt8 → Option UInt8 → List UInt8 → List UInt8 × Bool
  | [], _, out => (out, false)
  | b :: rest, high, out =>
      if cap ≤ out.length then (out, false)
      else if b = 62 then
        match high with
        | some h => (out ++ [h <<< 4], true)
        | none => (out, true)
      else if isWhite b then decodeHexLoop cap rest high out
      else
        match hexNibble b with
        | none => (out, false)
        | some nibble =>
            match high with
            | none => decodeHexLoop cap rest (some nibble) out
            | some h => decodeHexLoop cap rest none (out ++ [(h <<< 4) ||| nibble])

def decodeHex (input : List UInt8) (cap : Nat) : List UInt8 × Bool := decodeHexLoop cap input none []

structure StageBudget where
  left : Nat
  refused : Nat
deriving DecidableEq, Repr

inductive DecodeError where
  | unsupported (name : String)
  | corrupt
  | overBudget
deriving DecidableEq, Repr

def maxInflated : Nat := 2 ^ 20

def isFlate (filter : String) : Bool := filter = "FlateDecode" || filter = "Fl"

def isAsciiHex (filter : String) : Bool := filter = "ASCIIHexDecode" || filter = "AHx"

def isAscii85 (filter : String) : Bool := filter = "ASCII85Decode" || filter = "A85"

-- The reader that inflates a text is not part of the repository.
variable (zlibDecoder : List UInt8 → Reader)

def decodeStage (filter : String) (data : List UInt8) (stageCap : Nat) : Except DecodeError (List UInt8) :=
  if isFlate filter then
    match inflateCapped (zlibDecoder data) stageCap .keepPartial with
    | some kept => .ok kept.bytes
    | none => .error .corrupt
  else if isAsciiHex filter then .ok (decodeHex data stageCap).1
  else if isAscii85 filter then .ok (ascii85Decode data stageCap)
  else .error (.unsupported filter)

def stageCap (cap : Nat) (rest : List String) (left : Nat) : Nat :=
  if rest = [] then cap else min (max cap maxInflated) left

def decodeStages (cap : Nat) : List String → List UInt8 → StageBudget → Except DecodeError (List UInt8) × StageBudget
  | [], data, stages => (.ok data, stages)
  | filter :: rest, data, stages =>
      if rest ≠ [] ∧ stages.left = 0 then (.error .overBudget, { stages with refused := stages.refused + 1 })
      else
        match decodeStage zlibDecoder filter data (stageCap cap rest stages.left) with
        | .error failure => (.error failure, stages)
        | .ok next =>
            decodeStages cap rest next (if rest = [] then stages else { stages with left := stages.left - next.length })

def decodeStream (raw : List UInt8) (filters : List String) (cap : Nat) (stages : StageBudget) :
    Except DecodeError (List UInt8) × StageBudget :=
  if filters = [] then (.ok (raw.take cap), stages) else decodeStages zlibDecoder cap filters raw stages

def hexDecoded : List UInt8 → Option UInt8 → List UInt8
  | [], _ => []
  | b :: rest, high =>
      if b = 62 then (high.map fun h : UInt8 => h <<< 4).toList
      else if isWhite b then hexDecoded rest high
      else
        match hexNibble b with
        | none => []
        | some nibble =>
            match high with
            | none => hexDecoded rest (some nibble)
            | some h => ((h <<< 4) ||| nibble) :: hexDecoded rest none

theorem decode_hex_loop_take (cap : Nat) (input : List UInt8) (high : Option UInt8) (out : List UInt8) (room : out.length ≤ cap) :
    (decodeHexLoop cap input high out).1 = (out ++ hexDecoded input high).take cap := by
  induction input generalizing high out with
  | nil => rw [decodeHexLoop, hexDecoded, List.append_nil, List.take_of_length_le room]
  | cons b rest ih =>
      by_cases full : cap ≤ out.length
      · unfold decodeHexLoop
        rw [if_pos full, List.take_append_of_le_length full, List.take_of_length_le room]
      · unfold decodeHexLoop
        rw [if_neg full, hexDecoded]
        by_cases closing : b = 62
        · rw [if_pos closing, if_pos closing]
          cases high with
          | none => rw [Option.map_none, Option.toList_none, List.append_nil, List.take_of_length_le room]
          | some h =>
              rw [Option.map_some, Option.toList_some, List.take_of_length_le]
              rw [List.length_append, List.length_singleton]
              omega
        · rw [if_neg closing, if_neg closing]
          split
          · exact ih high out room
          · cases hexNibble b with
            | none =>
                rw [List.append_nil, List.take_of_length_le room]
            | some nibble =>
                cases high with
                | none => exact ih (some nibble) out room
                | some h =>
                    have longer := ih none (out ++ [(h <<< 4) ||| nibble]) (by rw [List.length_append, List.length_singleton]; omega)
                    rw [List.append_assoc, List.singleton_append] at longer
                    exact longer

theorem decode_hex_take (input : List UInt8) (cap : Nat) : (decodeHex input cap).1 = (hexDecoded input none).take cap :=
  decode_hex_loop_take cap input none [] (Nat.zero_le cap)

-- A digit left open at a cut is dropped, not made up.
theorem hex_decoded_append (front rest : List UInt8) (high : Option UInt8) :
    hexDecoded front high <+: hexDecoded (front ++ rest) high := by
  induction front generalizing high with
  | nil => exact List.nil_prefix
  | cons b front ih =>
      rw [List.cons_append, hexDecoded, hexDecoded]
      split
      · exact List.prefix_rfl
      · split
        · exact ih high
        · cases hexNibble b with
          | none => exact List.prefix_rfl
          | some nibble =>
              cases high with
              | none => exact ih (some nibble)
              | some h => exact List.cons_prefix_cons.mpr ⟨rfl, ih none⟩

theorem inflate_capped_take (reader : Reader) (cap : Nat) (onError : OnError) (kept : MemberPrefix)
    (read : inflateCapped reader cap onError = some kept) : kept.bytes = reader.bytes.take cap := by
  simp only [inflateCapped] at read
  split at read
  · cases read
  · rw [← Option.some.inj read, List.take_take, Nat.min_eq_left (Nat.le_succ cap)]

-- The group open at the end of a text and the count of bytes before it, unless
-- the decoder has stopped in the text.
def openGroup : List UInt8 → List UInt8 → Nat → Option (List UInt8 × Nat)
  | [], group, count => some (group, count)
  | b :: rest, group, count =>
      if b = 122 ∧ group = [] then openGroup rest group (count + 4)
      else if 33 ≤ b ∧ b ≤ 117 then
        if (group ++ [b - 33]).length = 5 then
          if wordValue (group ++ [b - 33]) < 2 ^ 32 then openGroup rest [] (count + 4) else none
        else openGroup rest (group ++ [b - 33]) count
      else if isWhite b then openGroup rest group count
      else none

-- The digits an open group gets from the text behind it.
def completed : List UInt8 → List UInt8 → List UInt8
  | [], group => group
  | b :: rest, group =>
      if 33 ≤ b ∧ b ≤ 117 then
        if (group ++ [b - 33]).length = 5 then group ++ [b - 33] else completed rest (group ++ [b - 33])
      else if isWhite b then completed rest group
      else group

variable (text rest group : List UInt8)

variable (count : Nat) (ended : List UInt8)

theorem open_group_none (stopped : openGroup text group count = none) :
    decoded (text ++ rest) group = decoded text group := by
  fun_induction openGroup text group count with
  | case1 group count => cases stopped
  | case2 b text group count zero ih => rw [List.cons_append, decoded, decoded, if_pos zero, if_pos zero, ih stopped]
  | case3 b text group count plain digit full fits ih =>
      rw [List.cons_append, decoded, decoded, if_neg plain, if_neg plain, if_pos digit, if_pos digit, if_pos full, if_pos full,
        if_pos fits, if_pos fits, ih stopped]
  | case4 b text group count plain digit full large =>
      rw [List.cons_append, decoded, decoded, if_neg plain, if_neg plain, if_pos digit, if_pos digit, if_pos full, if_pos full,
        if_neg large, if_neg large]
  | case5 b text group count plain digit short ih =>
      rw [List.cons_append, decoded, decoded, if_neg plain, if_neg plain, if_pos digit, if_pos digit, if_neg short, if_neg short,
        ih stopped]
  | case6 b text group count plain other white ih =>
      rw [List.cons_append, decoded, decoded, if_neg plain, if_neg plain, if_neg other, if_neg other, if_pos white, if_pos white,
        ih stopped]
  | case7 b text group count plain other dark =>
      rw [List.cons_append, decoded, decoded, if_neg plain, if_neg plain, if_neg other, if_neg other, if_neg dark, if_neg dark]

theorem open_group_some (count total : Nat) (reached : openGroup text group count = some (ended, total)) :
    ∃ out, out.length + count = total ∧ ∀ rest, decoded (text ++ rest) group = out ++ decoded rest ended := by
  fun_induction openGroup text group count with
  | case1 group count =>
      obtain ⟨rfl, rfl⟩ := Prod.mk.inj (Option.some.inj reached)
      exact ⟨[], Nat.zero_add count, fun rest => rfl⟩
  | case2 b text group count zero ih =>
      obtain ⟨out, size, reads⟩ := ih reached
      refine ⟨[0, 0, 0, 0] ++ out, ?_, fun rest => ?_⟩
      · rw [List.length_append, ← size]
        change 4 + out.length + count = out.length + (count + 4)
        omega
      · rw [List.cons_append, decoded, if_pos zero, reads, List.append_assoc]
  | case3 b text group count plain digit full fits ih =>
      obtain ⟨out, size, reads⟩ := ih reached
      refine ⟨groupBytes (group ++ [b - 33]) ++ out, ?_, fun rest => ?_⟩
      · have four := word_length _ _ (group_bytes_full _ full fits)
        rw [List.length_append, four]
        omega
      · rw [List.cons_append, decoded, if_neg plain, if_pos digit, if_pos full, if_pos fits, reads, List.append_assoc]
  | case4 b text group count plain digit full large => cases reached
  | case5 b text group count plain digit short ih =>
      obtain ⟨out, size, reads⟩ := ih reached
      refine ⟨out, size, fun rest => ?_⟩
      rw [List.cons_append, decoded, if_neg plain, if_pos digit, if_neg short, reads]
  | case6 b text group count plain other white ih =>
      obtain ⟨out, size, reads⟩ := ih reached
      refine ⟨out, size, fun rest => ?_⟩
      rw [List.cons_append, decoded, if_neg plain, if_neg other, if_pos white, reads]
  | case7 b text group count plain other dark => cases reached

theorem open_group_length (count total : Nat) (short : group.length < 5)
    (reached : openGroup text group count = some (ended, total)) : ended.length < 5 := by
  fun_induction openGroup text group count with
  | case1 group count =>
      obtain ⟨rfl, rfl⟩ := Prod.mk.inj (Option.some.inj reached)
      exact short
  | case2 b text group count zero ih => exact ih short reached
  | case3 b text group count plain digit full fits ih => exact ih (by decide) reached
  | case4 b text group count plain digit full large => cases reached
  | case5 b text group count plain digit unfilled ih =>
      rw [List.length_append, List.length_singleton] at unfilled
      exact ih (by rw [List.length_append, List.length_singleton]; omega) reached
  | case6 b text group count plain other white ih => exact ih short reached
  | case7 b text group count plain other dark => cases reached

theorem completed_extends (short : group.length < 5) :
    ∃ more, completed rest group = group ++ more ∧ group.length + more.length ≤ 5 ∧ ∀ b ∈ more, b.toNat < 85 := by
  have value : ∀ b : UInt8, 33 ≤ b ∧ b ≤ 117 → (b - 33).toNat < 85 := by
    rintro b ⟨above, below⟩
    rw [UInt8.toNat_sub_of_le _ _ above]
    rw [UInt8.le_iff_toNat_le] at below
    change b.toNat ≤ 117 at below
    change b.toNat - 33 < 85
    omega
  fun_induction completed rest group with
  | case1 group => exact ⟨[], (List.append_nil group).symm, Nat.le_of_lt short, fun b member => absurd member List.not_mem_nil⟩
  | case2 b rest group digit full =>
      rw [List.length_append] at full
      refine ⟨[b - 33], rfl, full.le, fun other member => ?_⟩
      rw [List.mem_singleton.mp member]
      exact value b digit
  | case3 b rest group digit unfilled ih =>
      rw [List.length_append, List.length_singleton] at unfilled
      obtain ⟨more, whole, size, proper⟩ := ih (by rw [List.length_append, List.length_singleton]; omega)
      rw [List.length_append, List.length_singleton] at size
      refine ⟨(b - 33) :: more, by rw [whole, List.append_assoc, List.singleton_append], by rw [List.length_cons]; omega, ?_⟩
      intro other member
      rcases List.mem_cons.mp member with rfl | later
      · exact value b digit
      · exact proper other later
  | case4 b rest group other white ih => exact ih short
  | case5 b rest group other dark => exact ⟨[], (List.append_nil group).symm, Nat.le_of_lt short, fun b member => absurd member List.not_mem_nil⟩

theorem decoded_completed (filled : group ≠ []) (short : group.length < 5) :
    (∃ more, decoded rest group = groupBytes (completed rest group) ++ more) ∨ ¬ wordValue (completed rest group) < 2 ^ 32 := by
  induction rest generalizing group with
  | nil => exact Or.inl ⟨[], (List.append_nil _).symm⟩
  | cons b rest ih =>
      have plain : ¬ (b = 122 ∧ group = []) := fun zero => filled zero.2
      rw [decoded, completed, if_neg plain]
      by_cases digit : 33 ≤ b ∧ b ≤ 117
      · rw [if_pos digit, if_pos digit]
        by_cases full : (group ++ [b - 33]).length = 5
        · rw [if_pos full, if_pos full]
          by_cases fits : wordValue (group ++ [b - 33]) < 2 ^ 32
          · exact Or.inl ⟨_, if_pos fits⟩
          · exact Or.inr fits
        · rw [if_neg full, if_neg full]
          rw [List.length_append, List.length_singleton] at full
          exact ih _ (by simp) (by rw [List.length_append, List.length_singleton]; omega)
      · rw [if_neg digit, if_neg digit]
        split
        · exact ih group filled short
        · exact Or.inl ⟨[], (List.append_nil _).symm⟩

-- Whether the first bytes of a group padded at a cut are those of the group the
-- uncut text has there: none is kept, the padded group decodes to nothing, or
-- the two numbers agree above the places dropped.
def paddingKeeps (kept padded whole : Nat) : Bool :=
  kept = 0 || 2 ^ 32 ≤ padded || padded / 256 ^ (4 - kept) = whole / 256 ^ (4 - kept)

-- A text cut off in a group of two digits or more is decoded as if it ended
-- there.
def cutKept (cap : Nat) (data whole : List UInt8) : Bool :=
  match openGroup (afterOpener data) [] 0 with
  | none => true
  | some (group, count) =>
      group.length ≤ 1 || paddingKeeps (min (cap - count) (group.length - 1)) (wordValue group)
        (wordValue (completed ((afterOpener whole).drop (afterOpener data).length) group))

theorem word_value_extended (more : List UInt8) (size : group.length + more.length ≤ 5) (proper : ∀ b ∈ more, b.toNat < 85) :
    wordValue (group ++ more) ≤ wordValue group := by
  have digits : ∀ digit ∈ more.map UInt8.toNat ++ List.replicate (5 - (group ++ more).length) 84, digit < 85 := by
    intro digit member
    rcases List.mem_append.mp member with given | padding
    · obtain ⟨b, inside, rfl⟩ := List.mem_map.mp given
      exact proper b inside
    · rw [List.eq_of_mem_replicate padding]
      decide
  have rounded := (Radix.rounded_up 85 (by omega) (group.map UInt8.toNat) _ digits).1
  have places : (more.map UInt8.toNat ++ List.replicate (5 - (group ++ more).length) 84).length = 5 - group.length := by
    rw [List.length_append, List.length_map, List.length_replicate, List.length_append]
    omega
  rw [places] at rounded
  rw [word_value_radix (group ++ more) (by rw [List.length_append]; exact size), word_value_radix group (by omega), List.map_append,
    List.append_assoc]
  exact rounded

theorem group_bytes_take (room : Nat) (short : group.length ≤ 5) (fits : wordValue group < 2 ^ 32) :
    (groupBytes group).take room =
      octetsOf (min room (group.length - 1)) (wordValue group / 256 ^ (4 - min room (group.length - 1))) := by
  have bytes : word group = some (octetsOf 4 (wordValue group)) := if_pos fits
  have width : min room (group.length - 1) + (4 - min room (group.length - 1)) = 4 := by omega
  rw [groupBytes, bytes, Option.getD_some, List.take_take, ← BigEndian.octets_of_take, width]

theorem group_bytes_large (large : ¬ wordValue group < 2 ^ 32) : groupBytes group = [] := by
  have nothing : word group = none := if_neg large
  rw [groupBytes, nothing, Option.getD_none, List.take_nil]

theorem octets_of_inj (width number other : Nat) (fits : number < 256 ^ width) (fitting : other < 256 ^ width) :
    octetsOf width number = octetsOf width other ↔ number = other := by
  constructor
  · intro same
    rw [← BigEndian.value_octets_of width number fits, same, BigEndian.value_octets_of width other fitting]
  · intro same
    rw [same]

theorem leading_lt (number kept : Nat) (few : kept ≤ 4) (fits : number < 2 ^ 32) : number / 256 ^ (4 - kept) < 256 ^ kept := by
  apply Nat.div_lt_of_lt_mul
  rw [← Nat.pow_add, Nat.sub_add_cancel few]
  exact fits

theorem padding_keeps_iff (rest : List UInt8) (filled : 1 < group.length) (short : group.length < 5) (room : Nat) :
    (groupBytes group).take room <+: decoded rest group ↔
      paddingKeeps (min room (group.length - 1)) (wordValue group) (wordValue (completed rest group)) = true := by
  obtain ⟨more, whole, size, proper⟩ := completed_extends rest group short
  have below := word_value_extended group more size proper
  rw [← whole] at below
  have longer : group.length ≤ (completed rest group).length ∧ (completed rest group).length ≤ 5 := by
    rw [whole, List.length_append]
    omega
  simp only [paddingKeeps, Bool.or_eq_true, decide_eq_true_eq]
  by_cases fits : wordValue group < 2 ^ 32
  · have fitting : wordValue (completed rest group) < 2 ^ 32 := Nat.lt_of_le_of_lt below fits
    obtain ⟨after, reads⟩ := (decoded_completed rest group (List.ne_nil_of_length_pos (by omega)) short).resolve_right (not_not.mpr fitting)
    have bytes : word (completed rest group) = some (octetsOf 4 (wordValue (completed rest group))) := if_pos fitting
    have length : (groupBytes (completed rest group)).length = (completed rest group).length - 1 := by
      rw [groupBytes, bytes, Option.getD_some, List.length_take, BigEndian.octets_of_length]
      omega
    rw [group_bytes_take group room (by omega) fits, reads]
    generalize kept_eq : min room (group.length - 1) = kept
    have inside : kept ≤ (completed rest group).length - 1 := by omega
    rw [List.prefix_iff_eq_take, BigEndian.octets_of_length, List.take_append_of_le_length (by rw [length]; exact inside),
      group_bytes_take _ kept longer.2 fitting, Nat.min_eq_left inside,
      octets_of_inj kept _ _ (leading_lt _ kept (by omega) fits) (leading_lt _ kept (by omega) fitting)]
    constructor
    · exact Or.inr
    · rintro ((rfl | large) | same)
      · exact (Nat.div_eq_of_lt (show wordValue group < 256 ^ 4 from fits)).trans
          (Nat.div_eq_of_lt (show wordValue (completed rest group) < 256 ^ 4 from fitting)).symm
      · exact absurd fits (Nat.not_lt_of_le large)
      · exact same
  · rw [group_bytes_large group fits, List.take_nil]
    exact iff_of_true List.nil_prefix (Or.inl (Or.inr (Nat.le_of_not_lt fits)))

theorem open_group_white (blank : ∀ b ∈ text, isWhite b = true) :
    openGroup (text ++ rest) group count = openGroup rest group count := by
  induction text with
  | nil => rfl
  | cons b text ih =>
      have white := blank b List.mem_cons_self
      have below := white_below b white
      rw [UInt8.lt_iff_toNat_lt] at below
      have plain : ¬ (b = 122 ∧ group = []) := by
        rintro ⟨rfl, -⟩
        exact absurd below (by decide)
      have other : ¬ (33 ≤ b ∧ b ≤ 117) := by
        rintro ⟨digit, -⟩
        rw [UInt8.le_iff_toNat_le] at digit
        omega
      rw [List.cons_append, openGroup, if_neg plain, if_neg other, if_pos white]
      exact ih fun other member => blank other (List.mem_cons_of_mem _ member)

theorem after_opener_append (data more : List UInt8) :
    (∃ rest, afterOpener (data ++ more) = afterOpener data ++ rest) ∨
      ∃ group, openGroup (afterOpener data) [] 0 = some (group, 0) ∧ group.length ≤ 1 := by
  rcases after_opener_cases data with same | ⟨lead, rest, parts, blank, opened⟩
  · rcases after_opener_cases (data ++ more) with all_same | ⟨lead, rest, parts, blank, -⟩
    · exact Or.inl ⟨more, by rw [all_same, same]⟩
    · right
      rw [same]
      rcases List.append_eq_append_iff.mp parts with ⟨bridge, rfl, rfl⟩ | ⟨bridge, rfl, cut⟩
      · have white := open_group_white data [] [] 0 fun b member => blank b (List.mem_append_left _ member)
        rw [List.append_nil] at white
        exact ⟨[], white, Nat.zero_le 1⟩
      · rw [open_group_white lead bridge [] 0 blank]
        cases bridge with
        | nil => exact ⟨[], rfl, Nat.zero_le 1⟩
        | cons first bridge =>
            obtain ⟨rfl, behind⟩ := List.cons.inj cut
            cases bridge with
            | nil => exact ⟨[60 - 33], rfl, le_rfl⟩
            | cons second bridge =>
                obtain ⟨rfl, -⟩ := List.cons.inj behind
                rw [after_opener_opened lead bridge blank] at same
                have shorter := congrArg List.length same
                rw [List.length_append, List.length_cons, List.length_cons] at shorter
                omega
  · refine Or.inl ⟨more, ?_⟩
    rw [opened, parts, List.append_assoc, List.cons_append, List.cons_append, after_opener_opened lead _ blank]

theorem group_bytes_short (few : group.length ≤ 1) : groupBytes group = [] := by
  have dropped : group.length - 1 = 0 := by omega
  rw [groupBytes, dropped, List.take_zero]

theorem cut_kept_iff (cap : Nat) (data more : List UInt8) :
    ascii85Decode data cap <+: decoded (afterOpener (data ++ more)) [] ↔ cutKept cap data (data ++ more) = true := by
  rw [ascii85_decode_take]
  unfold cutKept
  cases reached : openGroup (afterOpener data) [] 0 with
  | none =>
      refine iff_of_true ?_ rfl
      rcases after_opener_append data more with ⟨rest, whole⟩ | ⟨group, open_, -⟩
      · rw [whole, open_group_none _ rest [] 0 reached]
        exact List.take_prefix cap _
      · rw [reached] at open_
        cases open_
  | some state =>
      obtain ⟨group, count⟩ := state
      have short := open_group_length _ _ _ _ _ (by decide) reached
      obtain ⟨out, size, reads⟩ := open_group_some _ _ _ _ _ reached
      have ending := reads []
      rw [List.append_nil, decoded] at ending
      rw [ending]
      dsimp only
      by_cases few : group.length ≤ 1
      · rw [decide_eq_true few, Bool.true_or, group_bytes_short group few, List.append_nil]
        refine iff_of_true ?_ rfl
        rcases after_opener_append data more with ⟨rest, whole⟩ | ⟨other, open_, -⟩
        · rw [whole, reads rest]
          exact (List.take_prefix cap out).trans (List.prefix_append out _)
        · rw [reached] at open_
          obtain ⟨-, rfl⟩ := Prod.mk.inj (Option.some.inj open_)
          rw [List.eq_nil_of_length_eq_zero (show out.length = 0 from size), List.take_nil]
          exact List.nil_prefix
      · rw [decide_eq_false few, Bool.false_or]
        obtain ⟨rest, whole⟩ := (after_opener_append data more).resolve_right (by
          rintro ⟨other, open_, little⟩
          rw [reached] at open_
          obtain ⟨rfl, -⟩ := Prod.mk.inj (Option.some.inj open_)
          exact few little)
        rw [whole, List.drop_left, reads rest, ← padding_keeps_iff group rest (by omega) short (cap - count), List.take_append]
        have total : out.length = count := size
        rw [total]
        by_cases room : count ≤ cap
        · rw [List.take_of_length_le (total ▸ room), List.prefix_append_right_inj]
        · have none_left : cap - count = 0 := by omega
          rw [none_left, List.take_zero, List.append_nil]
          exact iff_of_true ((List.take_prefix cap out).trans (List.prefix_append out _)) List.nil_prefix

end Filefacts.Pdf
