import Filefacts.Pdf.Lex
import Filefacts.Pdf.Filters
import Filefacts.Rar.Name

set_option autoImplicit false

namespace Filefacts.Pdf

def isDelimiter (b : UInt8) : Bool :=
  b == 40 || b == 41 || b == 60 || b == 62 || b == 91 || b == 93 || b == 123 || b == 125 || b == 47 || b == 37

def isRegular (b : UInt8) : Bool := !isWhite b && !isDelimiter b

-- The mark of a comment is passed on every turn but the last.
def skipTurns (bytes : List UInt8) : Nat → Nat → Nat
  | 0, position => skipWhile bytes position isWhite
  | fuel + 1, position =>
      let position := skipWhile bytes position isWhite
      if bytes[position]? ≠ some 37 then position
      else skipTurns bytes fuel (skipWhile bytes position fun b => b != 10 && b != 13)

def skipWhiteAndComments (bytes : List UInt8) (position : Nat) : Nat := skipTurns bytes bytes.length position

def escaped (b hi lo : UInt8) : Option UInt8 :=
  if b = 35 then (hexNibble hi).bind fun h => (hexNibble lo).map fun l => (h <<< 4) ||| l else none

def unescape : List UInt8 → List UInt8
  | [] => []
  | [b] => [b]
  | [b, c] => [b, c]
  | b :: hi :: lo :: after =>
      match escaped b hi lo with
      | some octet => octet :: unescape after
      | none => b :: unescape (hi :: lo :: after)

def decodeName (raw : List UInt8) : List UInt8 := if (35 : UInt8) ∉ raw then raw else unescape raw

def nameAt (bytes : List UInt8) (slash : Nat) : Option (List UInt8 × Nat) :=
  let start := slash + 1
  let stop := skipWhile bytes start isRegular
  (Bytes.get bytes start stop).map fun raw => (decodeName raw, stop)

def nextSlash (bytes : List UInt8) (position : Nat) : Option Nat :=
  ((bytes.drop position).findIdx? (· == 47)).map fun ahead => position + ahead

-- Every name has a slash, so there are no more names than bytes.
def namesFrom (bytes : List UInt8) : Nat → Nat → List (List UInt8 × Nat)
  | 0, _ => []
  | fuel + 1, position =>
      match (nextSlash bytes position).bind (nameAt bytes) with
      | none => []
      | some (name, stop) => (name, stop) :: namesFrom bytes fuel stop

def keyEnds (dict key : List UInt8) : List Nat :=
  ((namesFrom dict dict.length 0).filter fun (name, _) => name == key).map fun (_, stop) => stop

def valueName (dict : List UInt8) (position : Nat) : Option (List UInt8) :=
  let there := skipWhiteAndComments dict position
  if dict[there]? ≠ some 47 then none else (nameAt dict there).map fun (name, _) => name

def dictNames (dict key : List UInt8) : List (List UInt8) := (keyEnds dict key).filterMap (valueName dict)

def arrayNames (bytes : List UInt8) : Nat → Nat → List (List UInt8) → Option (List (List UInt8))
  | 0, _, _ => none
  | fuel + 1, cursor, out =>
      let cursor := skipWhiteAndComments bytes cursor
      match bytes[cursor]? with
      | none => some out
      | some b =>
          if b = 93 then some out
          else if b = 47 then
            match nameAt bytes cursor with
            | none => none
            | some (name, stop) => arrayNames bytes fuel stop (out ++ [name])
          else none

def listed (bytes : List UInt8) (position : Nat) : Option (List (List UInt8)) :=
  let position := skipWhiteAndComments bytes position
  bytes[position]?.bind fun b =>
    if b = 47 then (nameAt bytes position).map fun (name, _) => [name]
    else if b = 91 then arrayNames bytes bytes.length (position + 1) []
    else none

local instance lawfulName : LawfulBEq (List UInt8) := inferInstance

def nameList (bytes : List UInt8) (position : Nat) : Option (List Rar.Text) :=
  (listed bytes position).bind fun out =>
    if out = [] ∨ [] ∈ out then none else some (out.map Rar.fromUtf8Lossy)

def beginsHex : List UInt8 → Bool
  | hi :: lo :: _ => (hexNibble hi).isSome && (hexNibble lo).isSome
  | _ => false

-- A name and the ways to write it: any octet as an escape, and a regular one as itself, unless an escape were to begin there.
inductive SpelledName : List UInt8 → List UInt8 → Prop
  | nil : SpelledName [] []
  | plain (b : UInt8) (text raw : List UInt8) (regular : isRegular b = true) (free : b = 35 → beginsHex raw = false)
      (rest : SpelledName text raw) : SpelledName (b :: text) (b :: raw)
  | escape (octet hi lo : UInt8) (text raw : List UInt8) (high : hexNibble hi = some (octet >>> 4))
      (low : hexNibble lo = some (octet &&& 15)) (rest : SpelledName text raw) : SpelledName (octet :: text) (35 :: hi :: lo :: raw)

variable (b : UInt8) (raw text front run rest : List UInt8)

theorem unescape_plain (free : b = 35 → beginsHex raw = false) : unescape (b :: raw) = b :: unescape raw := by
  cases raw with
  | nil => rfl
  | cons hi rest =>
      cases rest with
      | nil => rfl
      | cons lo after =>
          have kept : escaped b hi lo = none := by
            rw [escaped]
            by_cases mark : b = 35
            · have digits := free mark
              rw [beginsHex, Bool.and_eq_false_iff] at digits
              rw [if_pos mark]
              rcases digits with first | second
              · rw [Option.isSome_eq_false_iff.mp first |> Option.isNone_iff_eq_none.mp]
                rfl
              · rw [Option.isSome_eq_false_iff.mp second |> Option.isNone_iff_eq_none.mp]
                cases hexNibble hi with
                | none => rfl
                | some h => rfl
            · rw [if_neg mark]
          rw [unescape, kept]

theorem unescape_escape {octet hi lo : UInt8} (raw : List UInt8) (high : hexNibble hi = some (octet >>> 4))
    (low : hexNibble lo = some (octet &&& 15)) : unescape (35 :: hi :: lo :: raw) = octet :: unescape raw := by
  have joined : escaped 35 hi lo = some octet := by
    rw [escaped, if_pos rfl, high, low, Option.bind_some, Option.map_some, byte_joined]
  rw [unescape, joined]

theorem unescape_spelled (raw : List UInt8) (spelled : SpelledName text raw) : unescape raw = text := by
  induction spelled with
  | nil => rfl
  | plain b text raw _ free _ ih => rw [unescape_plain b raw free, ih]
  | escape octet hi lo text raw high low _ ih => rw [unescape_escape raw high low, ih]

theorem unescape_free (free : (35 : UInt8) ∉ raw) : unescape raw = raw := by
  induction raw with
  | nil => rfl
  | cons b rest ih =>
      rw [List.mem_cons, not_or] at free
      rw [unescape_plain b rest fun mark => absurd mark.symm free.1, ih free.2]

theorem decode_name_eq : decodeName raw = unescape raw := by
  rw [decodeName]
  by_cases free : (35 : UInt8) ∉ raw
  · rw [if_pos free, unescape_free raw free]
  · rw [if_neg free]

theorem hex_nibble_small (nibble : UInt8) (digit : hexNibble b = some nibble) : nibble.toNat < 16 := by
  rw [hexNibble] at digit
  split at digit
  · next range =>
      obtain rfl := Option.some.inj digit
      have high := UInt8.le_iff_toNat_le.mp range.2
      rw [UInt8.toNat_sub_of_le _ _ range.1]
      change b.toNat ≤ 57 at high
      change b.toNat - 48 < 16
      omega
  · split at digit
    · next range =>
        obtain rfl := Option.some.inj digit
        have high := UInt8.le_iff_toNat_le.mp range.2
        change b.toNat ≤ 102 at high
        rw [UInt8.toNat_add, UInt8.toNat_sub_of_le _ _ range.1]
        change (b.toNat - 97 + 10) % 256 < 16
        omega
    · split at digit
      · next range =>
          obtain rfl := Option.some.inj digit
          have high := UInt8.le_iff_toNat_le.mp range.2
          change b.toNat ≤ 70 at high
          rw [UInt8.toNat_add, UInt8.toNat_sub_of_le _ _ range.1]
          change (b.toNat - 65 + 10) % 256 < 16
          omega
      · cases digit

theorem nibbles_apart (h l : UInt8) (high : h.toNat < 16) (low : l.toNat < 16) :
    ((h <<< 4) ||| l) >>> 4 = h ∧ ((h <<< 4) ||| l) &&& 15 = l := by
  have all : ∀ h l : Fin 16, ((UInt8.ofNat h <<< 4) ||| UInt8.ofNat l) >>> 4 = UInt8.ofNat h ∧
      ((UInt8.ofNat h <<< 4) ||| UInt8.ofNat l) &&& 15 = UInt8.ofNat l := by decide
  have apart := all ⟨h.toNat, high⟩ ⟨l.toNat, low⟩
  rwa [UInt8.ofNat_toNat, UInt8.ofNat_toNat] at apart

theorem escaped_none (hi lo : UInt8) (after : List UInt8) (kept : escaped b hi lo = none) :
    b = 35 → beginsHex (hi :: lo :: after) = false := by
  intro mark
  rw [escaped, if_pos mark] at kept
  rw [beginsHex, Bool.and_eq_false_iff]
  cases high : hexNibble hi with
  | none => exact Or.inl rfl
  | some h =>
      rw [high, Option.bind_some, Option.map_eq_none_iff] at kept
      rw [kept]
      exact Or.inr rfl

theorem escaped_some (hi lo octet : UInt8) (read : escaped b hi lo = some octet) :
    b = 35 ∧ hexNibble hi = some (octet >>> 4) ∧ hexNibble lo = some (octet &&& 15) := by
  rw [escaped, Option.ite_none_right_eq_some] at read
  obtain ⟨h, high, rest⟩ := Option.bind_eq_some_iff.mp read.2
  obtain ⟨l, low, rfl⟩ := Option.map_eq_some_iff.mp rest
  have apart := nibbles_apart h l (hex_nibble_small hi h high) (hex_nibble_small lo l low)
  rw [apart.1, apart.2]
  exact ⟨read.1, high, low⟩

theorem spelled_unescape : (∀ b ∈ raw, isRegular b = true) → SpelledName (unescape raw) raw := by
  induction raw using unescape.induct with
  | case1 => exact fun _ => .nil
  | case2 b => exact fun regular => .plain b [] [] (regular b List.mem_cons_self) (fun _ => rfl) .nil
  | case3 b c =>
      intro regular
      have second := regular c (List.mem_cons_of_mem _ List.mem_cons_self)
      exact .plain b [c] [c] (regular b List.mem_cons_self) (fun _ => rfl) (.plain c [] [] second (fun _ => rfl) .nil)
  | case4 b hi lo after octet read ih =>
      intro regular
      obtain ⟨rfl, high, low⟩ := escaped_some b hi lo octet read
      rw [unescape_escape after high low]
      exact .escape octet hi lo _ after high low (ih fun c member =>
        regular c (List.mem_cons_of_mem _ (List.mem_cons_of_mem _ (List.mem_cons_of_mem _ member))))
  | case5 b hi lo after read ih =>
      intro regular
      have free := escaped_none b hi lo after read
      rw [unescape_plain b _ free]
      exact .plain b _ _ (regular b List.mem_cons_self) free (ih fun c member => regular c (List.mem_cons_of_mem _ member))

theorem decode_name_iff (raw : List UInt8) (regular : ∀ b ∈ raw, isRegular b = true) :
    decodeName raw = text ↔ SpelledName text raw := by
  rw [decode_name_eq]
  constructor
  · rintro rfl
    exact spelled_unescape raw regular
  · exact unescape_spelled text raw

theorem hex_digit_regular (nibble : UInt8) (digit : hexNibble b = some nibble) : isRegular b = true := by
  have ranges : (48 ≤ b ∧ b ≤ 57) ∨ (97 ≤ b ∧ b ≤ 102) ∨ (65 ≤ b ∧ b ≤ 70) := by
    by_contra outside
    rw [not_or, not_or] at outside
    rw [hexNibble, if_neg outside.1, if_neg outside.2.1, if_neg outside.2.2] at digit
    cases digit
  have apart : ∀ other : UInt8, other.toNat < 48 ∨ (57 < other.toNat ∧ other.toNat < 65) ∨ (70 < other.toNat ∧ other.toNat < 97) ∨
      102 < other.toNat → (b == other) = false := by
    intro other outside
    apply beq_false_of_ne
    rintro rfl
    simp only [UInt8.le_iff_toNat_le] at ranges
    change (48 ≤ b.toNat ∧ b.toNat ≤ 57) ∨ (97 ≤ b.toNat ∧ b.toNat ≤ 102) ∨ (65 ≤ b.toNat ∧ b.toNat ≤ 70) at ranges
    omega
  rw [isRegular, isWhite, isDelimiter]
  simp only [apart 0 (by decide), apart 9 (by decide), apart 10 (by decide), apart 0x0C (by decide), apart 13 (by decide),
    apart 32 (by decide), apart 40 (by decide), apart 41 (by decide), apart 60 (by decide), apart 62 (by decide), apart 91 (by decide),
    apart 93 (by decide), apart 123 (by decide), apart 125 (by decide), apart 47 (by decide), apart 37 (by decide)]
  rfl

theorem spelled_regular (raw : List UInt8) (spelled : SpelledName text raw) : ∀ b ∈ raw, isRegular b = true := by
  induction spelled with
  | nil => exact fun b member => absurd member List.not_mem_nil
  | plain b text raw regular _ _ ih => exact List.forall_mem_cons.mpr ⟨regular, ih⟩
  | escape octet hi lo text raw high low _ ih =>
      exact List.forall_mem_cons.mpr ⟨rfl, List.forall_mem_cons.mpr ⟨hex_digit_regular hi _ high,
        List.forall_mem_cons.mpr ⟨hex_digit_regular lo _ low, ih⟩⟩⟩

def Ends (passes : UInt8 → Bool) (rest : List UInt8) : Prop := ∀ b ∈ rest.head?, passes b = false

theorem take_while_ends {passes : UInt8 → Bool} {run rest : List UInt8} (all : ∀ b ∈ run, passes b = true) (ends : Ends passes rest) :
    (run ++ rest).takeWhile passes = run := by
  rw [List.takeWhile_append_of_pos all]
  cases rest with
  | nil => rw [List.takeWhile_nil, List.append_nil]
  | cons b more => rw [List.takeWhile_cons_of_neg (by rw [ends b rfl]; exact Bool.false_ne_true), List.append_nil]

theorem skip_while_run (passes : UInt8 → Bool) (all : ∀ b ∈ run, passes b = true)
    (ends : Ends passes rest) : skipWhile (front ++ (run ++ rest)) front.length passes = front.length + run.length := by
  rw [skipWhile, List.drop_left, take_while_ends all ends]

theorem name_at_there {raw rest : List UInt8} (regular : ∀ b ∈ raw, isRegular b = true) (ends : Ends isRegular rest) :
    nameAt (front ++ (47 :: (raw ++ rest))) front.length = some (decodeName raw, front.length + 1 + raw.length) := by
  have whole : front ++ (47 :: (raw ++ rest)) = (front ++ [47]) ++ (raw ++ rest) := by
    rw [List.append_assoc, List.singleton_append]
  have start : (front ++ [47]).length = front.length + 1 := List.length_append
  have stop := skip_while_run (front ++ [47]) raw rest isRegular regular ends
  have got := Bytes.get_there (front ++ [47]) raw rest
  rw [start, ← whole] at stop got
  rw [nameAt, stop, got, Option.map_some]

def scanNames : List UInt8 → List (List UInt8 × List UInt8)
  | [] => []
  | b :: rest =>
      if b = 47 then (decodeName (rest.takeWhile isRegular), rest.dropWhile isRegular) :: scanNames rest else scanNames rest

theorem scan_free (free : (47 : UInt8) ∉ run) : scanNames (run ++ rest) = scanNames rest := by
  induction run with
  | nil => rfl
  | cons b run ih =>
      rw [List.mem_cons, not_or] at free
      rw [List.cons_append, scanNames, if_neg fun slash => free.1 slash.symm, ih free.2]

theorem drop_while_ends (passes : UInt8 → Bool) (bytes : List UInt8) : Ends passes (bytes.dropWhile passes) := by
  intro b first
  have head := List.head?_dropWhile_not passes bytes
  rw [first] at head
  exact head

theorem regular_free (regular : ∀ b ∈ run, isRegular b = true) : (47 : UInt8) ∉ run := by
  intro member
  exact Bool.false_ne_true (regular 47 member)

theorem scan_name (regular : ∀ b ∈ raw, isRegular b = true) (ends : Ends isRegular rest) :
    scanNames (47 :: (raw ++ rest)) = (decodeName raw, rest) :: scanNames rest := by
  have taken := take_while_ends regular ends
  have left : (raw ++ rest).dropWhile isRegular = rest := by
    have whole := List.takeWhile_append_dropWhile (p := isRegular) (l := raw ++ rest)
    rw [taken] at whole
    exact List.append_cancel_left whole
  rw [scanNames, if_pos rfl, taken, left, scan_free raw rest (regular_free raw regular)]

theorem next_slash_there (free : (47 : UInt8) ∉ run) :
    nextSlash (front ++ (run ++ 47 :: rest)) front.length = some (front.length + run.length) := by
  have absent : run.findIdx? (· == 47) = none := by
    rw [List.findIdx?_eq_none_iff]
    intro b member
    exact beq_false_of_ne fun slash => free (slash ▸ member)
  rw [nextSlash, List.drop_left, List.findIdx?_append, absent]
  simp only [Option.none_or, List.findIdx?_cons, beq_self_eq_true, if_true, Option.map_some, Nat.zero_add]

theorem next_slash_none (free : (47 : UInt8) ∉ rest) : nextSlash (front ++ rest) front.length = none := by
  have absent : rest.findIdx? (· == 47) = none := by
    rw [List.findIdx?_eq_none_iff]
    intro b member
    exact beq_false_of_ne fun slash => free (slash ▸ member)
  rw [nextSlash, List.drop_left, absent, Option.map_none]

theorem names_from_eq (fuel : Nat) : ∀ (front rest : List UInt8), rest.length ≤ fuel →
    namesFrom (front ++ rest) fuel front.length =
      (scanNames rest).map fun (name, suffix) => (name, (front ++ rest).length - suffix.length) := by
  induction fuel with
  | zero =>
      intro front rest short
      obtain rfl := List.eq_nil_of_length_eq_zero (Nat.le_zero.mp short)
      rfl
  | succ fuel ih =>
      intro front rest short
      by_cases found : (47 : UInt8) ∈ rest
      · obtain ⟨run, tail, rfl, free⟩ := List.eq_append_cons_of_mem found
        have regular : ∀ b ∈ tail.takeWhile isRegular, isRegular b = true := fun b => List.mem_takeWhile_imp
        have ends := drop_while_ends isRegular tail
        obtain ⟨raw, suffix, rfl, same, left⟩ :
            ∃ raw suffix, tail = raw ++ suffix ∧ raw = tail.takeWhile isRegular ∧ suffix = tail.dropWhile isRegular :=
          ⟨_, _, List.takeWhile_append_dropWhile.symm, rfl, rfl⟩
        rw [← same] at regular
        rw [← left] at ends
        have name := name_at_there (front ++ run) regular ends
        have next := ih (front ++ (run ++ 47 :: raw)) suffix (by
          simp only [List.length_append, List.length_cons] at short
          omega)
        have whole : front ++ (run ++ 47 :: (raw ++ suffix)) = front ++ (run ++ 47 :: raw) ++ suffix := by
          simp only [List.append_assoc, List.cons_append]
        have stop : (front ++ (run ++ 47 :: raw)).length = front.length + run.length + 1 + raw.length := by
          simp only [List.length_append, List.length_cons]
          omega
        rw [List.append_assoc, List.length_append] at name
        rw [← whole, stop] at next
        rw [namesFrom, next_slash_there front run (raw ++ suffix) free, Option.bind_some, name]
        dsimp only
        rw [next, scan_free run _ free, scan_name raw suffix regular ends, List.map_cons]
        congr 2
        simp only [List.length_append, List.length_cons]
        omega
      · have none_ := scan_free rest [] found
        rw [List.append_nil] at none_
        rw [namesFrom, next_slash_none front rest found, none_]
        rfl

def entryValue (dict key : List UInt8) (entry : List UInt8 × List UInt8) : Option (List UInt8) :=
  if entry.1 = key then valueName dict (dict.length - entry.2.length) else none

theorem dict_names_eq (dict key : List UInt8) : dictNames dict key = (scanNames dict).filterMap (entryValue dict key) := by
  have names := names_from_eq dict.length [] dict (Nat.le_refl _)
  rw [List.nil_append, List.length_nil] at names
  rw [dictNames, keyEnds, names]
  induction scanNames dict with
  | nil => rfl
  | cons entry rest ih =>
      rw [List.map_cons, List.filter_cons, List.filterMap_cons, entryValue]
      by_cases same : entry.1 = key
      · rw [if_pos (beq_iff_eq.mpr same), if_pos same, List.map_cons, List.filterMap_cons, ih]
      · rw [if_neg fun equal => same (beq_iff_eq.mp equal), if_neg same, ih]

end Filefacts.Pdf
