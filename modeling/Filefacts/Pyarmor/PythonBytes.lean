import Filefacts.Pickle.Machine

set_option autoImplicit false

namespace Filefacts.Pyarmor

open Filefacts.Bytes (ascii get get_there toAsciiLower toAsciiLowercase)
open Filefacts.Pickle (escapeDecode hexDigit hexNumber isAscii octal octalByte simpleEscape)

def readOctal : Nat → Nat → List UInt8 → Nat × List UInt8
  | turns + 1, value, next :: rest =>
      if octal next then readOctal turns (value * 8 + (next.toNat - 48)) rest else (value, next :: rest)
  | _, value, rest => (value, rest)

-- What is pushed for the octets behind a backslash, and the octets left. The arms of one octet are those of `simpleEscape`.
def unescaped : List UInt8 → Option (List UInt8 × List UInt8)
  | [] => none
  | escaped :: rest =>
      if escaped = 120 then
        match rest with
        | high :: low :: rest =>
            (hexDigit high).bind fun high => (hexDigit low).map fun low => ([UInt8.ofNat (high * 16 + low)], rest)
        | _ => none
      else if octal escaped then
        let read := readOctal 2 (escaped.toNat - 48) rest
        some ([UInt8.ofNat (read.1 % 256)], read.2)
      else if escaped = 13 ∧ rest.head? = some 10 then some ([], rest.tail)
      else
        match simpleEscape escaped with
        | some pushed => some (pushed, rest)
        | none => some ([92, escaped], rest)

def cooked : Nat → List UInt8 → Option (List UInt8)
  | _, [] => some []
  | 0, _ => none
  | turns + 1, b :: rest =>
      if b ≠ 92 then (cooked turns rest).map fun more => b :: more
      else (unescaped rest).bind fun read => (cooked turns read.2).map fun more => read.1 ++ more

local instance lawfulMark : LawfulBEq (List UInt8) := inferInstance

def pythonBytes (literal : List UInt8) : Option (List UInt8) :=
  (literal.findIdx? fun b => b = 39 || b = 34).bind fun quote =>
    let mark := toAsciiLowercase (literal.take quote)
    if mark ∉ [ascii "b", ascii "br", ascii "rb"] then none
    else
      let rest := literal.drop quote
      rest.head?.bind fun q =>
        let width := if [q, q, q].isPrefixOf rest then 3 else 1
        if !(List.replicate width q).isSuffixOf rest then none
        else
          (get rest width (rest.length - width)).bind fun body =>
            if !isAscii body then none else if 114 ∈ mark then some body else cooked body.length body

-- Python reads its source with every line break as one line feed.
def universalNewlines : List UInt8 → List UInt8
  | [] => []
  | 13 :: 10 :: rest => 10 :: universalNewlines rest
  | b :: rest => (if b = 13 then 10 else b) :: universalNewlines rest

-- What may stand between the quotes: a backslash takes the octet behind it along, a line break needs one or three quotes, and
-- no closing quotes come earlier.
def isBody (quote : UInt8) (triple : Bool) : List UInt8 → Bool
  | [] => true
  | 92 :: 13 :: 10 :: rest => isBody quote triple rest
  | 92 :: _ :: rest => isBody quote triple rest
  | [92] => false
  | b :: rest =>
      (if triple then !(b = quote && [quote, quote].isPrefixOf (rest ++ [quote, quote])) else b ≠ quote && b ≠ 10 && b ≠ 13) &&
        isBody quote triple rest

-- The value of a body: Python decodes its escapes as those of its pickled strings.
def bytesValue (raw : Bool) (body : List UInt8) : Option (List UInt8) :=
  let body := universalNewlines body
  if raw then some body else escapeDecode (body.length + 1) body

structure BytesLiteral where
  mark : List UInt8
  quote : UInt8
  triple : Bool
  body : List UInt8
  value : List UInt8
  marked : toAsciiLowercase mark ∈ [ascii "b", ascii "br", ascii "rb"]
  quotes : quote = 39 ∨ quote = 34
  plain : isAscii body = true
  closed : isBody quote triple body = true
  means : bytesValue (decide (114 ∈ toAsciiLowercase mark)) body = some value

def BytesLiteral.raw (literal : BytesLiteral) : Bool := decide (114 ∈ toAsciiLowercase literal.mark)

def BytesLiteral.fence (literal : BytesLiteral) : List UInt8 := List.replicate (if literal.triple then 3 else 1) literal.quote

def BytesLiteral.text (literal : BytesLiteral) : List UInt8 :=
  literal.mark ++ (literal.fence ++ literal.body ++ literal.fence)

-- A carriage return stands nowhere but between a backslash and a line feed.
def returnsJoined : List UInt8 → Bool
  | [] => true
  | 92 :: 13 :: 10 :: rest => returnsJoined rest
  | 92 :: b :: rest => b ≠ 13 && returnsJoined rest
  | b :: rest => b ≠ 13 && returnsJoined rest

variable (b : UInt8) (rest : List UInt8)

theorem universal_newlines_cons (single : b = 13 → rest.head? ≠ some 10) :
    universalNewlines (b :: rest) = (if b = 13 then 10 else b) :: universalNewlines rest := by
  rw [universalNewlines]
  rintro tail rfl rfl
  exact single rfl rfl

theorem universal_newlines_plain (plain : b ≠ 13) : universalNewlines (b :: rest) = b :: universalNewlines rest := by
  rw [universal_newlines_cons b rest (fun same => absurd same plain), if_neg plain]

theorem universal_newlines_return : ∃ tail, universalNewlines (13 :: rest) = 10 :: tail := by
  cases rest with
  | nil => exact ⟨_, rfl⟩
  | cons b rest =>
      by_cases feed : b = 10
      · rw [feed]
        exact ⟨_, rfl⟩
      · exact ⟨_, universal_newlines_cons 13 (b :: rest) fun _ same => feed (Option.some.inj same)⟩

theorem octal_newlines (turns : Nat) :
    ((universalNewlines rest).take turns).takeWhile octal = (rest.take turns).takeWhile octal ∧
      (universalNewlines rest).drop ((rest.take turns).takeWhile octal).length =
        universalNewlines (rest.drop ((rest.take turns).takeWhile octal).length) := by
  induction turns generalizing rest with
  | zero => exact ⟨rfl, rfl⟩
  | succ turns ih =>
      cases rest with
      | nil => exact ⟨rfl, rfl⟩
      | cons b rest =>
          by_cases plain : b = 13
          · obtain ⟨tail, same⟩ := universal_newlines_return rest
            rw [plain, same]
            exact ⟨rfl, same.symm⟩
          · rw [universal_newlines_plain b rest plain, List.take_succ_cons, List.take_succ_cons]
            by_cases digit : octal b = true
            · rw [List.takeWhile_cons_of_pos digit, List.takeWhile_cons_of_pos digit, List.length_cons, List.drop_succ_cons,
                List.drop_succ_cons, (ih rest).1]
              exact ⟨rfl, (ih rest).2⟩
            · rw [List.takeWhile_cons_of_neg digit, List.takeWhile_cons_of_neg digit]
              exact ⟨rfl, (universal_newlines_plain b rest plain).symm⟩

theorem read_octal_run (turns value : Nat) : readOctal turns value rest =
    (((rest.take turns).takeWhile octal).foldl (fun number b => number * 8 + (b.toNat - 48)) value,
      rest.drop ((rest.take turns).takeWhile octal).length) := by
  induction turns generalizing value rest with
  | zero =>
      cases rest with
      | nil => rfl
      | cons b rest => rfl
  | succ turns ih =>
      cases rest with
      | nil => rfl
      | cons b rest =>
          by_cases digit : octal b = true
          · rw [readOctal, if_pos digit, ih, List.take_succ_cons, List.takeWhile_cons_of_pos digit]
            rfl
          · rw [readOctal, if_neg digit, List.take_succ_cons, List.takeWhile_cons_of_neg digit]
            rfl

theorem hex_pair (high low : UInt8) : hexNumber [high, low] =
    (hexDigit high).bind fun high => (hexDigit low).map fun low => high * 16 + low := by
  simp only [hexNumber, List.foldlM_cons, List.foldlM_nil, Nat.zero_mul, Nat.zero_add]
  cases hexDigit high with
  | none => rfl
  | some high => cases hexDigit low <;> rfl

-- What the reader pushes against the value: where no carriage return is kept the same, and else with more of them.
def Drifts (joined : Bool) (out value : List UInt8) : Prop :=
  if joined then out = value else value.count 13 < out.count 13

variable {joined : Bool} {out value : List UInt8}

theorem drifts_behind (front : List UInt8) (drifts : Drifts joined out value) : Drifts joined (front ++ out) (front ++ value) := by
  cases joined with
  | true => exact congrArg (front ++ ·) drifts
  | false =>
      simp only [Drifts, Bool.false_eq_true, if_false, List.count_append] at drifts ⊢
      omega

theorem drifts_kept (front back : List UInt8) (kept : back.count 13 < front.count 13) (drifts : Drifts joined out value) :
    Drifts false (front ++ out) (back ++ value) := by
  have least : value.count 13 ≤ out.count 13 := by
    cases joined with
    | true => exact le_of_eq (congrArg (List.count 13) (Eq.symm drifts))
    | false => exact Nat.le_of_lt drifts
  simp only [Drifts, Bool.false_eq_true, if_false, List.count_append]
  omega

theorem escape_decode_plain (fuel : Nat) (plain : b ≠ 92) :
    escapeDecode (fuel + 1) (b :: rest) = (escapeDecode fuel rest).map fun more => b :: more := by
  rw [escapeDecode]
  exact plain

theorem simple_escape_octal (digit : octal b = true) : simpleEscape b = none := by
  have apart : ∀ other : UInt8, octal other = false → b ≠ other := fun other none same => by
    rw [same, none] at digit
    cases digit
  simp [simpleEscape, apart 10 rfl, apart 92 rfl, apart 39 rfl, apart 34 rfl, apart 98 rfl, apart 102 rfl, apart 116 rfl,
    apart 110 rfl, apart 114 rfl, apart 118 rfl, apart 97 rfl]

theorem hex_digit_plain (digit : Nat) (read : hexDigit b = some digit) : b ≠ 13 ∧ b ≠ 92 := by
  constructor
  · rintro rfl
    cases read
  · rintro rfl
    cases read

theorem returns_joined_plain (plain : b ≠ 13) (single : b ≠ 92) : returnsJoined (b :: rest) = returnsJoined rest := by
  rw [returnsJoined]
  · rw [decide_eq_true plain, Bool.true_and]
  · rintro tail rfl rfl
    exact single rfl
  · rintro other tail rfl rfl
    exact single rfl

theorem returns_joined_escaped (plain : b ≠ 13) : returnsJoined (92 :: b :: rest) = returnsJoined rest := by
  rw [returnsJoined]
  · rw [decide_eq_true plain, Bool.true_and]
  · rintro tail rfl rfl
    exact plain rfl

theorem returns_joined_single (single : rest.head? ≠ some 10) : returnsJoined (92 :: 13 :: rest) = false := by
  rw [returnsJoined]
  · rfl
  · rintro tail - rfl
    exact single rfl

theorem returns_joined_octal (turns : Nat) :
    returnsJoined (rest.drop ((rest.take turns).takeWhile octal).length) = returnsJoined rest := by
  induction turns generalizing rest with
  | zero => rfl
  | succ turns ih =>
      cases rest with
      | nil => rfl
      | cons b rest =>
          rw [List.take_succ_cons]
          by_cases digit : octal b = true
          · have apart : ∀ other : UInt8, octal other = false → b ≠ other := fun other none same => by
              rw [same, none] at digit
              cases digit
            rw [List.takeWhile_cons_of_pos digit, List.length_cons, List.drop_succ_cons, ih,
              returns_joined_plain b rest (apart 13 rfl) (apart 92 rfl)]
          · rw [List.takeWhile_cons_of_neg digit]
            rfl

theorem hex_newlines (digit : Nat) (read : hexDigit b = some digit) {text others : List UInt8}
    (same : universalNewlines text = b :: others) : ∃ rest, text = b :: rest ∧ others = universalNewlines rest := by
  cases text with
  | nil => cases same
  | cons c rest =>
      by_cases plain : c = 13
      · obtain ⟨tail, first⟩ := universal_newlines_return rest
        rw [plain, first] at same
        obtain ⟨rfl, -⟩ := List.cons.inj same
        cases read
      · rw [universal_newlines_plain c rest plain] at same
        obtain ⟨rfl, rfl⟩ := List.cons.inj same
        exact ⟨rest, rfl, rfl⟩

theorem unescaped_alike (fuel : Nat) (plain : b ≠ 13)
    (read : escapeDecode (fuel + 1) (92 :: b :: universalNewlines rest) = some value) :
    ∃ pushed left more, unescaped (b :: rest) = some (pushed, left) ∧ left.length ≤ rest.length ∧
      (universalNewlines left).length ≤ (universalNewlines rest).length ∧
      escapeDecode fuel (universalNewlines left) = some more ∧ value = pushed ++ more ∧
      returnsJoined (92 :: b :: rest) = returnsJoined left := by
  rw [returns_joined_escaped b rest plain]
  by_cases hex : b = 120
  · subst hex
    cases first : universalNewlines rest with
    | nil =>
        rw [first] at read
        cases read
    | cons high others =>
        cases second : others with
        | nil =>
            rw [first, second] at read
            cases read
        | cons low others =>
            rw [first, second] at read
            change (hexNumber [high, low]).bind _ = some value at read
            rw [hex_pair] at read
            obtain ⟨number, numbered, decoded⟩ := Option.bind_eq_some_iff.mp read
            obtain ⟨upper, up, lowered⟩ := Option.bind_eq_some_iff.mp numbered
            obtain ⟨lower, down, rfl⟩ := Option.map_eq_some_iff.mp lowered
            obtain ⟨more, later, rfl⟩ := Option.map_eq_some_iff.mp decoded
            obtain ⟨rest, rfl, behind⟩ := hex_newlines high upper up first
            obtain ⟨rest, rfl, rfl⟩ := hex_newlines low lower down (behind ▸ second)
            refine ⟨[UInt8.ofNat (upper * 16 + lower)], rest, more, ?_, ?_, ?_, later, rfl, ?_⟩
            · simp only [unescaped, if_true, up, down, Option.bind_some, Option.map_some]
            · exact (Nat.le_succ _).trans (Nat.le_succ _)
            · exact (Nat.le_succ _).trans (Nat.le_succ _)
            · rw [returns_joined_plain high _ (hex_digit_plain high upper up).1 (hex_digit_plain high upper up).2,
                returns_joined_plain low _ (hex_digit_plain low lower down).1 (hex_digit_plain low lower down).2]
  by_cases digit : octal b = true
  · simp only [escapeDecode, simple_escape_octal b digit, digit, if_true, (octal_newlines rest 2).1, List.length_cons,
      Nat.add_sub_cancel, (octal_newlines rest 2).2] at read
    obtain ⟨more, later, rfl⟩ := Option.map_eq_some_iff.mp read
    refine ⟨[octalByte (b :: (rest.take 2).takeWhile octal)], _, more, ?_, ?_, ?_, later, rfl, (returns_joined_octal rest 2).symm⟩
    · simp only [unescaped, if_neg hex, digit, if_true, read_octal_run, octalByte, List.foldl_cons, Nat.zero_mul, Nat.zero_add]
      rw [UInt8.ofNat_mod_size]
    · rw [List.length_drop]
      exact Nat.sub_le _ _
    · rw [← (octal_newlines rest 2).2, List.length_drop]
      exact Nat.sub_le _ _
  · cases simple : simpleEscape b with
    | some pushed =>
        simp only [escapeDecode, simple] at read
        obtain ⟨more, later, rfl⟩ := Option.map_eq_some_iff.mp read
        exact ⟨pushed, rest, more, by simp [unescaped, hex, digit, plain, simple], le_rfl, le_rfl, later, rfl, rfl⟩
    | none =>
        simp only [escapeDecode, simple, digit, hex, if_false, Bool.false_eq_true] at read
        obtain ⟨more, later, rfl⟩ := Option.map_eq_some_iff.mp read
        exact ⟨[92, b], rest, more, by simp [unescaped, hex, digit, plain, simple], le_rfl, le_rfl, later, rfl, rfl⟩

theorem cooked_drifts (turns fuel : Nat) (body : List UInt8) (value : List UInt8) (enough : body.length ≤ turns)
    (more : (universalNewlines body).length < fuel) (read : escapeDecode fuel (universalNewlines body) = some value) :
    ∃ out, cooked turns body = some out ∧ Drifts (returnsJoined body) out value := by
  induction turns using Nat.strong_induction_on generalizing fuel body value with
  | h turns ih =>
      obtain ⟨fuel, rfl⟩ : ∃ spare, fuel = spare + 1 := ⟨fuel - 1, by omega⟩
      cases body with
      | nil =>
          cases read
          exact ⟨[], by cases turns <;> rfl, rfl⟩
      | cons b rest =>
          obtain ⟨turns, rfl⟩ : ∃ spare, turns = spare + 1 := ⟨turns - 1, by rw [List.length_cons] at enough; omega⟩
          have short := Nat.le_of_succ_le_succ enough
          by_cases plain : b = 92
          · subst plain
            cases rest with
            | nil => cases read
            | cons c rest =>
                by_cases joined : c = 13
                · subst joined
                  have single : universalNewlines (92 :: 13 :: rest) = 92 :: universalNewlines (13 :: rest) :=
                    universal_newlines_plain 92 _ (by decide)
                  by_cases feed : rest.head? = some 10
                  · obtain ⟨rest, rfl⟩ := List.head?_eq_some_iff.mp feed
                    obtain ⟨value, later, rfl⟩ := Option.map_eq_some_iff.mp read
                    simp only [single, universalNewlines, List.length_cons] at more short
                    obtain ⟨out, decoded, drifts⟩ := ih turns (Nat.lt_succ_self turns) fuel rest value (by omega) (by omega) later
                    exact ⟨out, congrArg (Option.map fun more => [] ++ more) decoded, drifts⟩
                  · rw [single, universal_newlines_cons 13 rest fun _ => feed] at read more
                    obtain ⟨value, later, rfl⟩ := Option.map_eq_some_iff.mp read
                    simp only [List.length_cons] at more short
                    obtain ⟨out, decoded, drifts⟩ := ih turns (Nat.lt_succ_self turns) fuel rest value (by omega) (by omega) later
                    refine ⟨[92, 13] ++ out, ?_, ?_⟩
                    · simp [cooked, unescaped, feed, octal, simpleEscape, decoded]
                    · exact returns_joined_single rest feed ▸ drifts_kept [92, 13] [] (by decide) drifts
                · rw [universal_newlines_plain 92 _ (by decide), universal_newlines_plain c rest joined] at read more
                  simp only [List.length_cons] at more short
                  obtain ⟨pushed, left, value, pushes, least, less, later, rfl, same⟩ := unescaped_alike c rest fuel joined read
                  obtain ⟨out, decoded, drifts⟩ := ih turns (Nat.lt_succ_self turns) fuel left value (by omega) (by omega) later
                  refine ⟨pushed ++ out, ?_, same ▸ drifts_behind pushed drifts⟩
                  rw [cooked, if_neg (not_not.mpr rfl), pushes, Option.bind_some, decoded, Option.map_some]
          · have turn : cooked (turns + 1) (b :: rest) = (cooked turns rest).map fun more => b :: more := by
              rw [cooked, if_pos plain]
            by_cases single : b = 13 → rest.head? ≠ some 10
            · rw [universal_newlines_cons b rest single] at read more
              rw [escape_decode_plain _ _ fuel (by split <;> simp_all)] at read
              obtain ⟨value, later, rfl⟩ := Option.map_eq_some_iff.mp read
              obtain ⟨out, decoded, drifts⟩ := ih turns (Nat.lt_succ_self turns) fuel rest value short
                (Nat.lt_of_succ_lt_succ more) later
              refine ⟨b :: out, by rw [turn, decoded, Option.map_some], ?_⟩
              by_cases kept : b = 13
              · subst kept
                exact drifts_kept [13] [10] (by decide) drifts
              · rw [if_neg kept, returns_joined_plain b rest kept plain]
                exact drifts_behind [b] drifts
            · obtain ⟨rfl, feed⟩ := Classical.not_imp.mp single
              obtain ⟨rest, rfl⟩ := List.head?_eq_some_iff.mp (not_not.mp feed)
              obtain ⟨turns, rfl⟩ : ∃ spare, turns = spare + 1 := ⟨turns - 1, by rw [List.length_cons] at short; omega⟩
              obtain ⟨value, later, rfl⟩ := Option.map_eq_some_iff.mp read
              obtain ⟨out, decoded, drifts⟩ := ih turns (by omega) fuel rest value (Nat.le_of_succ_le_succ short)
                (Nat.lt_of_succ_lt_succ more) later
              refine ⟨13 :: 10 :: out, ?_, drifts_kept [13, 10] [10] (by decide) drifts⟩
              rw [turn, cooked, if_pos (by decide), decoded, Option.map_some, Option.map_some]

theorem universal_newlines_no_return (body : List UInt8) : 13 ∉ universalNewlines body := by
  fun_induction universalNewlines body with
  | case1 => exact List.not_mem_nil
  | case2 rest ih => exact fun inside => ih (List.mem_of_ne_of_mem (by decide) inside)
  | case3 b rest single ih =>
      intro inside
      rcases List.mem_cons.mp inside with same | inside
      · split at same
        · cases same
        · exact absurd same.symm ‹_›
      · exact ih inside

theorem universal_newlines_same (body : List UInt8) (plain : 13 ∉ body) : universalNewlines body = body := by
  induction body with
  | nil => rfl
  | cons b rest ih =>
      obtain ⟨other, plain⟩ := not_or.mp (mt List.mem_cons.mpr plain)
      rw [universal_newlines_plain b rest (Ne.symm other), ih plain]

variable (literal : BytesLiteral)

theorem mark_unquoted : ∀ b ∈ literal.mark, (b = 39 || b = 34) = false := by
  intro b inside
  have lower : toAsciiLower b ∈ toAsciiLowercase literal.mark := List.mem_map_of_mem inside
  have letters : toAsciiLower b = 98 ∨ toAsciiLower b = 114 := by
    have marked := literal.marked
    generalize toAsciiLowercase literal.mark = mark at lower marked
    simp [ascii] at marked
    rcases marked with rfl | rfl | rfl <;> simp at lower <;> tauto
  by_contra quoted
  simp only [Bool.not_eq_false, Bool.or_eq_true, decide_eq_true_eq] at quoted
  rcases quoted with rfl | rfl <;> revert letters <;> decide

theorem fence_width :
    (if [literal.quote, literal.quote, literal.quote].isPrefixOf (literal.fence ++ literal.body ++ literal.fence) then 3 else 1) =
      if literal.triple then 3 else 1 := by
  obtain ⟨mark, quote, triple, body, value, marked, quotes, plain, closed, means⟩ := literal
  cases triple with
  | true => simp [BytesLiteral.fence]
  | false =>
      cases body with
      | nil => simp [BytesLiteral.fence]
      | cons b rest =>
          have other : b ≠ quote := by
            rintro rfl
            rcases quotes with rfl | rfl <;> simp [isBody] at closed
          simp [BytesLiteral.fence, other.symm]

theorem python_bytes_body : pythonBytes literal.text =
    if literal.raw then some literal.body else cooked literal.body.length literal.body := by
  have width := fence_width literal
  have size : literal.fence.length = if literal.triple then 3 else 1 := List.length_replicate
  obtain ⟨more, fenced⟩ : ∃ more, literal.fence = literal.quote :: more := by
    cases triple : literal.triple <;> simp [BytesLiteral.fence, triple, List.replicate_succ]
  have found : literal.text.findIdx? (fun b => b = 39 || b = 34) = some literal.mark.length := by
    have quoted : (literal.quote = 39 || literal.quote = 34) = true := by simpa using literal.quotes
    rw [BytesLiteral.text, List.findIdx?_append, List.findIdx?_eq_none_iff.mpr (mark_unquoted literal), fenced]
    simp [List.findIdx?_cons, quoted]
  have front : literal.text.take literal.mark.length = literal.mark := List.take_left
  have back : literal.text.drop literal.mark.length = literal.fence ++ literal.body ++ literal.fence := List.drop_left
  have first : (literal.fence ++ literal.body ++ literal.fence).head? = some literal.quote := by rw [fenced]; rfl
  have last : (List.replicate (if literal.triple then 3 else 1) literal.quote).isSuffixOf
      (literal.fence ++ literal.body ++ literal.fence) = true :=
    List.isSuffixOf_iff_suffix.mpr (List.suffix_append _ _)
  have inside : get (literal.fence ++ literal.body ++ literal.fence) (if literal.triple then 3 else 1)
      ((literal.fence ++ literal.body ++ literal.fence).length - if literal.triple then 3 else 1) = some literal.body := by
    have ends : (literal.fence ++ literal.body ++ literal.fence).length - literal.fence.length =
        literal.fence.length + literal.body.length := by
      simp only [List.length_append, Nat.add_sub_cancel]
    rw [← size, ends, List.append_assoc]
    exact get_there literal.fence literal.body literal.fence
  simp only [pythonBytes, found, Option.bind_some, front, literal.marked, not_true, if_false, back, first, width, last,
    Bool.not_true, Bool.false_eq_true, inside, literal.plain]
  simp [BytesLiteral.raw]

-- The reader keeps a carriage return as it stands, but for one that a backslash continues with its line feed.
theorem python_bytes_value_iff : pythonBytes literal.text = some literal.value ↔
    if literal.raw then 13 ∉ literal.body else returnsJoined literal.body = true := by
  have means : bytesValue literal.raw literal.body = some literal.value := literal.means
  rw [python_bytes_body]
  by_cases raw : literal.raw = true
  · rw [bytesValue, if_pos raw, Option.some.injEq] at means
    rw [if_pos raw, if_pos raw, ← means, Option.some.injEq]
    constructor
    · intro same
      exact same ▸ universal_newlines_no_return literal.body
    · intro plain
      exact (universal_newlines_same literal.body plain).symm
  · rw [bytesValue, if_neg raw] at means
    obtain ⟨out, decoded, drifts⟩ := cooked_drifts literal.body.length _ literal.body literal.value le_rfl
      (Nat.lt_succ_self _) means
    rw [if_neg raw, if_neg raw, decoded, Option.some.injEq]
    cases joined : returnsJoined literal.body with
    | true =>
        rw [joined] at drifts
        exact ⟨fun _ => rfl, fun _ => drifts⟩
    | false =>
        rw [joined] at drifts
        refine ⟨fun same => absurd (congrArg (List.count 13) same) (Nat.ne_of_gt drifts), fun other => absurd other (by decide)⟩

def loneReturn : BytesLiteral where
  mark := ascii "b"
  quote := 39
  triple := true
  body := [13]
  value := [10]
  marked := by decide
  quotes := .inl rfl
  plain := rfl
  closed := rfl
  means := by decide

theorem lone_return_kept : loneReturn.value = [10] ∧ pythonBytes loneReturn.text = some [13] := ⟨rfl, by decide⟩

end Filefacts.Pyarmor
