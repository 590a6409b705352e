import Filefacts.Rar.Name

set_option autoImplicit false

namespace Filefacts.Lossy

open Rar (Text replacement continuation fromUtf8Lossy utf8Len)
open Bytes (encodePoint)

def points (text : List Char) : Text := text.map Char.toNat

def utf8 (text : List Char) : List UInt8 := text.flatMap fun c => encodePoint c.toNat

variable (b : UInt8)

theorem continuation_iff : continuation b = true ↔ 0x80 ≤ b.toNat ∧ b.toNat ≤ 0xBF := by
  simp only [continuation, Bool.and_eq_true, decide_eq_true_iff, UInt8.le_iff_toNat_le]
  rfl

variable (c : Char) (a : UInt8) (rest : List UInt8) (text : List Char) (octets : List UInt8)

theorem scalar_ranges : c.toNat < 0xD800 ∨ (0xDFFF < c.toNat ∧ c.toNat < 0x110000) := c.valid

def lossyFourth (a b c : UInt8) : List UInt8 → Text
  | [] => [replacement]
  | d :: rest =>
      if continuation d then
        (a.toNat % 8 * 262144 + b.toNat % 64 * 4096 + c.toNat % 64 * 64 + d.toNat % 64) :: fromUtf8Lossy rest
      else replacement :: fromUtf8Lossy (d :: rest)

def lossyFour (a b : UInt8) : List UInt8 → Text
  | [] => [replacement]
  | c :: rest => if continuation c then lossyFourth a b c rest else replacement :: fromUtf8Lossy (c :: rest)

def lossyThree (a b : UInt8) : List UInt8 → Text
  | [] => [replacement]
  | c :: rest =>
      if continuation c then (a.toNat % 16 * 4096 + b.toNat % 64 * 64 + c.toNat % 64) :: fromUtf8Lossy rest
      else replacement :: fromUtf8Lossy (c :: rest)

def lossyMany (a : UInt8) : List UInt8 → Text
  | [] => [replacement]
  | b :: rest =>
      if a < 0xE0 then
        if continuation b then (a.toNat % 32 * 64 + b.toNat % 64) :: fromUtf8Lossy rest
        else replacement :: fromUtf8Lossy (b :: rest)
      else if a < 0xF0 then
        if continuation b && (a ≠ 0xE0 || 0xA0 ≤ b) && (a ≠ 0xED || b ≤ 0x9F) then lossyThree a b rest
        else replacement :: fromUtf8Lossy (b :: rest)
      else if continuation b && (a ≠ 0xF0 || 0x90 ≤ b) && (a ≠ 0xF4 || b ≤ 0x8F) then lossyFour a b rest
      else replacement :: fromUtf8Lossy (b :: rest)

theorem lossy_cons : fromUtf8Lossy (a :: rest) =
      if a < 0x80 then a.toNat :: fromUtf8Lossy rest
      else if a < 0xC2 || 0xF4 < a then replacement :: fromUtf8Lossy rest
      else lossyMany a rest := by
  rcases rest with _ | ⟨b, _ | ⟨c, _ | ⟨d, rest⟩⟩⟩
  · exact Rar.fromUtf8Lossy.eq_2 a
  · exact Rar.fromUtf8Lossy.eq_3 a b
  · exact Rar.fromUtf8Lossy.eq_4 a b c
  · exact Rar.fromUtf8Lossy.eq_5 a b c d rest

def pointLen (point : Nat) : Nat := if point < 0x80 then 1 else if point < 0x800 then 2 else if point < 0x10000 then 3 else 4

-- One turn of the decoding: an ASCII octet, a character of more octets, or up
-- to three octets that are replaced.
inductive Turn : List UInt8 → Nat → List UInt8 → Prop where
  | ascii (a : UInt8) (rest : List UInt8) (small : a.toNat < 0x80) : Turn (a :: rest) a.toNat rest
  | decoded (octets : List UInt8) (point : Nat) (rest : List UInt8) (large : 0x80 ≤ point) (whole : pointLen point = octets.length) :
      Turn (octets ++ rest) point rest
  | replaced (octets : List UInt8) (rest : List UInt8) (some : octets ≠ []) (few : octets.length ≤ 3) :
      Turn (octets ++ rest) replacement rest

theorem octet_below (bound : UInt8) (number : Nat) (same : bound.toNat = number) : a < bound ↔ a.toNat < number :=
  same ▸ UInt8.lt_iff_toNat_lt

theorem leading_iff : (a < 0xC2 || 0xF4 < a) = true ↔ a.toNat < 0xC2 ∨ 0xF4 < a.toNat := by
  rw [Bool.or_eq_true, decide_eq_true_iff, decide_eq_true_iff]
  exact or_congr (octet_below a 0xC2 0xC2 rfl) UInt8.lt_iff_toNat_lt

theorem second_of_three (b : UInt8) : (continuation b && (a ≠ 0xE0 || 0xA0 ≤ b) && (a ≠ 0xED || b ≤ 0x9F)) = true ↔
    (0x80 ≤ b.toNat ∧ b.toNat ≤ 0xBF) ∧ (a.toNat = 0xE0 → 0xA0 ≤ b.toNat) ∧ (a.toNat = 0xED → b.toNat ≤ 0x9F) := by
  simp only [Bool.and_eq_true, Bool.or_eq_true, decide_eq_true_iff, continuation_iff, ne_eq, ← UInt8.toNat_inj,
    UInt8.le_iff_toNat_le, and_assoc, ← imp_iff_not_or]
  rfl

theorem second_of_four (b : UInt8) : (continuation b && (a ≠ 0xF0 || 0x90 ≤ b) && (a ≠ 0xF4 || b ≤ 0x8F)) = true ↔
    (0x80 ≤ b.toNat ∧ b.toNat ≤ 0xBF) ∧ (a.toNat = 0xF0 → 0x90 ≤ b.toNat) ∧ (a.toNat = 0xF4 → b.toNat ≤ 0x8F) := by
  simp only [Bool.and_eq_true, Bool.or_eq_true, decide_eq_true_iff, continuation_iff, ne_eq, ← UInt8.toNat_inj,
    UInt8.le_iff_toNat_le, and_assoc, ← imp_iff_not_or]
  rfl

theorem lossy_one (small : a.toNat < 0x80) : fromUtf8Lossy (a :: rest) = a.toNat :: fromUtf8Lossy rest := by
  rw [lossy_cons, if_pos ((octet_below a 0x80 0x80 rfl).mpr small)]

theorem lossy_stray (large : 0x80 ≤ a.toNat) (stray : a.toNat < 0xC2 ∨ 0xF4 < a.toNat) :
    fromUtf8Lossy (a :: rest) = replacement :: fromUtf8Lossy rest := by
  have notAscii : ¬ a < 0x80 := fun less => Nat.not_lt_of_le large ((octet_below a 0x80 0x80 rfl).mp less)
  rw [lossy_cons, if_neg notAscii, if_pos ((leading_iff a).mpr stray)]

theorem lossy_many (low : 0xC2 ≤ a.toNat) (high : a.toNat ≤ 0xF4) : fromUtf8Lossy (a :: rest) = lossyMany a rest := by
  have notAscii : ¬ a < 0x80 := fun less => by
    have := (octet_below a 0x80 0x80 rfl).mp less
    omega
  have leads : ¬ (a < 0xC2 || 0xF4 < a) = true := fun stray => by
    have := (leading_iff a).mp stray
    omega
  rw [lossy_cons, if_neg notAscii, if_neg leads]

theorem lossy_two (rest : List UInt8) (low : 0xC2 ≤ a.toNat) (high : a.toNat < 0xE0) (second : continuation b = true) :
    fromUtf8Lossy (a :: b :: rest) = (a.toNat % 32 * 64 + b.toNat % 64) :: fromUtf8Lossy rest := by
  rw [lossy_many a _ low (by omega), lossyMany, if_pos ((octet_below a 0xE0 0xE0 rfl).mpr high), if_pos second]

theorem many_three (b : UInt8) (rest : List UInt8) (low : 0xE0 ≤ a.toNat) (high : a.toNat < 0xF0)
    (second : (0x80 ≤ b.toNat ∧ b.toNat ≤ 0xBF) ∧ (a.toNat = 0xE0 → 0xA0 ≤ b.toNat) ∧ (a.toNat = 0xED → b.toNat ≤ 0x9F)) :
    fromUtf8Lossy (a :: b :: rest) = lossyThree a b rest := by
  have notTwo : ¬ a < 0xE0 := fun less => Nat.not_lt_of_le low ((octet_below a 0xE0 0xE0 rfl).mp less)
  rw [lossy_many a _ (by omega) (by omega), lossyMany, if_neg notTwo, if_pos ((octet_below a 0xF0 0xF0 rfl).mpr high),
    if_pos ((second_of_three a b).mpr second)]

theorem many_four (b : UInt8) (rest : List UInt8) (low : 0xF0 ≤ a.toNat) (high : a.toNat ≤ 0xF4)
    (second : (0x80 ≤ b.toNat ∧ b.toNat ≤ 0xBF) ∧ (a.toNat = 0xF0 → 0x90 ≤ b.toNat) ∧ (a.toNat = 0xF4 → b.toNat ≤ 0x8F)) :
    fromUtf8Lossy (a :: b :: rest) = lossyFour a b rest := by
  have notTwo : ¬ a < 0xE0 := fun less => by
    have := (octet_below a 0xE0 0xE0 rfl).mp less
    omega
  have notThree : ¬ a < 0xF0 := fun less => Nat.not_lt_of_le low ((octet_below a 0xF0 0xF0 rfl).mp less)
  rw [lossy_many a _ (by omega) high, lossyMany, if_neg notTwo, if_neg notThree, if_pos ((second_of_four a b).mpr second)]

theorem octet_of (number : Nat) (fits : number < 256) : (UInt8.ofNat number).toNat = number := UInt8.toNat_ofNat_of_lt' fits

theorem lossy_point : fromUtf8Lossy (encodePoint c.toNat ++ rest) = c.toNat :: fromUtf8Lossy rest := by
  have scalar := scalar_ranges c
  generalize c.toNat = point at scalar
  unfold encodePoint
  by_cases one : point < 0x80
  · rw [if_pos one]
    have octet := octet_of point (by omega)
    rw [List.cons_append, List.nil_append, lossy_one _ _ (by omega), octet]
  · rw [if_neg one]
    by_cases two : point < 0x800
    · rw [if_pos two]
      have first := octet_of (0xC0 + point / 64) (by omega)
      have second := octet_of (0x80 + point % 64) (by omega)
      rw [List.cons_append, List.cons_append, List.nil_append, lossy_two _ _ _ (by omega) (by omega)
        ((continuation_iff _).mpr (by omega)), first, second]
      congr 1
      omega
    · rw [if_neg two]
      by_cases three : point < 0x10000
      · rw [if_pos three]
        have first := octet_of (0xE0 + point / 4096) (by omega)
        have second := octet_of (0x80 + point / 64 % 64) (by omega)
        have third := octet_of (0x80 + point % 64) (by omega)
        rw [List.cons_append, List.cons_append, List.cons_append, List.nil_append, many_three _ _ _ (by omega) (by omega) (by omega),
          lossyThree, if_pos ((continuation_iff _).mpr (by omega)), first, second, third]
        congr 1
        omega
      · rw [if_neg three]
        have first := octet_of (0xF0 + point / 262144) (by omega)
        have second := octet_of (0x80 + point / 4096 % 64) (by omega)
        have third := octet_of (0x80 + point / 64 % 64) (by omega)
        have fourth := octet_of (0x80 + point % 64) (by omega)
        rw [List.cons_append, List.cons_append, List.cons_append, List.cons_append, List.nil_append,
          many_four _ _ _ (by omega) (by omega) (by omega), lossyFour, if_pos ((continuation_iff _).mpr (by omega)), lossyFourth,
          if_pos ((continuation_iff _).mpr (by omega)), first, second, third, fourth]
        congr 1
        omega

theorem lossy_utf8 (rest : List UInt8) : fromUtf8Lossy (utf8 text ++ rest) = points text ++ fromUtf8Lossy rest := by
  induction text with
  | nil => rfl
  | cons c text ih =>
      have tail : utf8 (c :: text) ++ rest = encodePoint c.toNat ++ (utf8 text ++ rest) := by
        rw [utf8, List.flatMap_cons, List.append_assoc]
        rfl
      rw [tail, lossy_point, ih]
      rfl

theorem lossy_whole : fromUtf8Lossy (utf8 text) = points text := by
  simpa [fromUtf8Lossy] using lossy_utf8 text []

theorem turn_many (low : 0xC2 ≤ a.toNat) (high : a.toNat ≤ 0xF4) :
    ∃ point later, Turn (a :: rest) point later ∧ lossyMany a rest = point :: fromUtf8Lossy later := by
  have alone : Turn (a :: rest) replacement rest := .replaced [a] rest (by simp) (by simp)
  cases rest with
  | nil => exact ⟨_, _, alone, by rw [lossyMany, fromUtf8Lossy]⟩
  | cons b rest =>
      have pair : Turn (a :: b :: rest) replacement rest := .replaced [a, b] rest (by simp) (by simp)
      rw [lossyMany]
      by_cases two : a < 0xE0
      · rw [if_pos two]
        by_cases second : continuation b = true
        · have bounds := (continuation_iff b).mp second
          have below := (octet_below a 0xE0 0xE0 rfl).mp two
          refine ⟨_, rest, .decoded [a, b] _ rest ?_ ?_, if_pos second⟩
          · omega
          · unfold pointLen
            rw [if_neg (by omega), if_pos (by omega)]
            rfl
        · exact ⟨_, _, alone, if_neg second⟩
      · have notTwo : 0xE0 ≤ a.toNat := Nat.le_of_not_lt fun less => two ((octet_below a 0xE0 0xE0 rfl).mpr less)
        rw [if_neg two]
        by_cases three : a < 0xF0
        · have below := (octet_below a 0xF0 0xF0 rfl).mp three
          rw [if_pos three]
          by_cases second : (continuation b && (a ≠ 0xE0 || 0xA0 ≤ b) && (a ≠ 0xED || b ≤ 0x9F)) = true
          · have bounds := (second_of_three a b).mp second
            rw [if_pos second]
            cases rest with
            | nil => exact ⟨_, _, pair, by rw [lossyThree, fromUtf8Lossy]⟩
            | cons c rest =>
                rw [lossyThree]
                by_cases third : continuation c = true
                · have bounds' := (continuation_iff c).mp third
                  refine ⟨_, rest, .decoded [a, b, c] _ rest ?_ ?_, if_pos third⟩
                  · omega
                  · unfold pointLen
                    rw [if_neg (by omega), if_neg (by omega), if_pos (by omega)]
                    rfl
                · exact ⟨_, _, pair, if_neg third⟩
          · exact ⟨_, _, alone, if_neg second⟩
        · have notThree : 0xF0 ≤ a.toNat := Nat.le_of_not_lt fun less => three ((octet_below a 0xF0 0xF0 rfl).mpr less)
          rw [if_neg three]
          by_cases second : (continuation b && (a ≠ 0xF0 || 0x90 ≤ b) && (a ≠ 0xF4 || b ≤ 0x8F)) = true
          · have bounds := (second_of_four a b).mp second
            rw [if_pos second]
            cases rest with
            | nil => exact ⟨_, _, pair, by rw [lossyFour, fromUtf8Lossy]⟩
            | cons c rest =>
                have triple : Turn (a :: b :: c :: rest) replacement rest := .replaced [a, b, c] rest (by simp) (by simp)
                rw [lossyFour]
                by_cases third : continuation c = true
                · have bounds' := (continuation_iff c).mp third
                  rw [if_pos third]
                  cases rest with
                  | nil => exact ⟨_, _, triple, by rw [lossyFourth, fromUtf8Lossy]⟩
                  | cons d rest =>
                      rw [lossyFourth]
                      by_cases fourth : continuation d = true
                      · refine ⟨_, rest, .decoded [a, b, c, d] _ rest ?_ ?_, if_pos fourth⟩
                        · omega
                        · unfold pointLen
                          rw [if_neg (by omega), if_neg (by omega), if_neg (by omega)]
                          rfl
                      · exact ⟨_, _, triple, if_neg fourth⟩
                · exact ⟨_, _, pair, if_neg third⟩
          · exact ⟨_, _, alone, if_neg second⟩

theorem lossy_turn :
    ∃ point later, Turn (a :: rest) point later ∧ fromUtf8Lossy (a :: rest) = point :: fromUtf8Lossy later := by
  by_cases small : a.toNat < 0x80
  · exact ⟨_, _, .ascii a rest small, lossy_one a rest small⟩
  · by_cases stray : a.toNat < 0xC2 ∨ 0xF4 < a.toNat
    · exact ⟨_, _, .replaced [a] rest (by simp) (by simp), lossy_stray a rest (by omega) stray⟩
    · rw [lossy_many a rest (by omega) (by omega)]
      exact turn_many a rest (by omega) (by omega)

theorem turn_shorter {later : List UInt8} {point : Nat} (turn : Turn octets point later) :
    later.length < octets.length ∧ octets.length ≤ pointLen point + later.length := by
  cases turn with
  | ascii a rest small => simp [pointLen, small, Nat.add_comm]
  | decoded taken point rest large whole =>
      rw [List.length_append, whole]
      have some : 1 ≤ pointLen point := by unfold pointLen; split <;> (try split) <;> (try split) <;> omega
      omega
  | replaced taken rest some few =>
      have nonempty := List.length_pos_iff.mpr some
      rw [List.length_append]
      change _ ∧ _ ≤ 3 + _
      omega

theorem lossy_induction (motive : List UInt8 → Prop) (none : motive [])
    (turn : ∀ octets later point, Turn octets point later → fromUtf8Lossy octets = point :: fromUtf8Lossy later →
      motive later → motive octets) (octets : List UInt8) : motive octets := by
  induction size : octets.length using Nat.strong_induction_on generalizing octets with
  | _ size ih =>
      cases octets with
      | nil => exact none
      | cons a rest =>
          obtain ⟨point, later, here, same⟩ := lossy_turn a rest
          apply turn (a :: rest) later point here same
          exact ih later.length (size ▸ (turn_shorter (a :: rest) here).1) later rfl

theorem utf8_len_cons (point : Nat) (text : Text) : utf8Len (point :: text) = pointLen point + utf8Len text := rfl

theorem utf8_len_append (front back : Text) : utf8Len (front ++ back) = utf8Len front + utf8Len back := by
  simp [utf8Len]

theorem lossy_length : octets.length ≤ utf8Len (fromUtf8Lossy octets) := by
  induction octets using lossy_induction with
  | none => exact Nat.le_refl _
  | turn octets later point turn same ih =>
      have shorter := (turn_shorter octets turn).2
      rw [same, utf8_len_cons]
      omega

theorem lossy_continued (rest : List UInt8) (continues : continuation b = true) :
    (b :: rest).length + 2 ≤ utf8Len (fromUtf8Lossy (b :: rest)) := by
  have bounds := (continuation_iff b).mp continues
  have after := lossy_length rest
  rw [lossy_stray b rest bounds.1 (by omega), utf8_len_cons, List.length_cons]
  change _ ≤ 3 + _
  omega

theorem lossy_plain (plain : (0x2F : UInt8) ∉ octets) : 0x2F ∉ fromUtf8Lossy octets := by
  induction octets using lossy_induction with
  | none => exact List.not_mem_nil
  | turn octets later point turn same ih =>
      rw [same, List.mem_cons, not_or]
      cases turn with
      | ascii a rest small =>
          refine ⟨fun slash => plain ?_, ih fun member => plain (List.mem_cons_of_mem a member)⟩
          have octet : a = 0x2F := UInt8.toNat_inj.mp slash.symm
          exact octet ▸ List.mem_cons_self
      | decoded taken point rest large whole =>
          exact ⟨by omega, ih fun member => plain (List.mem_append_right taken member)⟩
      | replaced taken rest some few => exact ⟨by decide, ih fun member => plain (List.mem_append_right taken member)⟩

theorem tail_continues (b : UInt8) (member : b ∈ (encodePoint c.toNat).tail) : continuation b = true := by
  have scalar := scalar_ranges c
  generalize c.toNat = point at scalar member
  unfold encodePoint at member
  have continuing : ∀ number, 0x80 ≤ number → number ≤ 0xBF → b = UInt8.ofNat number → continuation b = true := by
    intro number low high same
    rw [continuation_iff, same, octet_of number (by omega)]
    exact ⟨low, high⟩
  split at member
  · cases member
  · split at member
    · exact continuing _ (by omega) (by omega) (List.mem_singleton.mp member)
    · split at member
      · rcases List.mem_cons.mp member with second | member
        · exact continuing _ (by omega) (by omega) second
        · exact continuing _ (by omega) (by omega) (List.mem_singleton.mp member)
      · rcases List.mem_cons.mp member with second | member
        · exact continuing _ (by omega) (by omega) second
        · rcases List.mem_cons.mp member with third | member
          · exact continuing _ (by omega) (by omega) third
          · exact continuing _ (by omega) (by omega) (List.mem_singleton.mp member)

theorem ascii_octet (b : UInt8) (member : b ∈ encodePoint c.toNat) (small : b.toNat < 0x80) : b.toNat = c.toNat := by
  have first : ∀ first rest, encodePoint c.toNat = first :: rest → 0x80 ≤ c.toNat → 0x80 ≤ first.toNat := by
    intro first rest same large
    have scalar := scalar_ranges c
    unfold encodePoint at same
    rw [if_neg (by omega)] at same
    split at same
    · obtain ⟨rfl, _⟩ := List.cons.inj same
      rw [octet_of _ (by omega)]
      omega
    · split at same
      · obtain ⟨rfl, _⟩ := List.cons.inj same
        rw [octet_of _ (by omega)]
        omega
      · obtain ⟨rfl, _⟩ := List.cons.inj same
        rw [octet_of _ (by omega)]
        omega
  by_cases one : c.toNat < 0x80
  · rw [encodePoint, if_pos one] at member
    rw [List.mem_singleton.mp member, octet_of _ (by omega)]
  · have tail := tail_continues c b
    cases octets : encodePoint c.toNat with
    | nil => rw [octets] at member; cases member
    | cons lead rest =>
        rw [octets] at member tail
        rcases List.mem_cons.mp member with rfl | later
        · have large := first b rest octets (Nat.le_of_not_lt one)
          omega
        · have bounds := (continuation_iff b).mp (tail later)
          omega

theorem cut_cases (front back : List UInt8) (same : front ++ back = utf8 text) :
    (∃ left right, text = left ++ right ∧ front = utf8 left ∧ back = utf8 right) ∨
      ∃ b rest, back = b :: rest ∧ continuation b = true := by
  induction text generalizing front with
  | nil =>
      obtain ⟨rfl, rfl⟩ := List.append_eq_nil_iff.mp same
      exact .inl ⟨[], [], rfl, rfl, rfl⟩
  | cons c text ih =>
      have whole : front ++ back = encodePoint c.toNat ++ utf8 text := same
      rcases List.append_eq_append_iff.mp whole with ⟨middle, split, rest⟩ | ⟨middle, rfl, rest⟩
      · cases front with
        | nil => exact .inl ⟨[], c :: text, rfl, rfl, same⟩
        | cons first front =>
            cases middle with
            | nil =>
                refine .inl ⟨[c], text, rfl, ?_, rest⟩
                rw [List.append_nil] at split
                rw [← split]
                exact (List.append_nil _).symm
            | cons b middle =>
                refine .inr ⟨b, middle ++ utf8 text, rest, tail_continues c b ?_⟩
                rw [split]
                exact List.mem_append_right front List.mem_cons_self
      · rcases ih middle rest.symm with ⟨left, right, rfl, rfl, rfl⟩ | continued
        · exact .inl ⟨c :: left, right, rfl, rfl, rfl⟩
        · exact .inr continued

variable (parts : List (List UInt8))

theorem first_octet (b : UInt8) (rest : List UInt8) (same : parts.flatten = b :: rest) :
    ∃ part ∈ parts, ∃ rest', part = b :: rest' := by
  induction parts with
  | nil => cases same
  | cons part parts ih =>
      cases part with
      | nil =>
          obtain ⟨other, member, begins⟩ := ih same
          exact ⟨other, List.mem_cons_of_mem _ member, begins⟩
      | cons first part =>
          obtain ⟨rfl, _⟩ := List.cons.inj same
          exact ⟨first :: part, List.mem_cons_self, part, rfl⟩

def Whole (octets : List UInt8) : Prop := ∃ text, octets = utf8 text

-- The parts of a text are texts, or one of them begins inside a character.
theorem parts_cases (same : parts.flatten = utf8 text) :
    (∀ part ∈ parts, Whole part) ∨ ∃ part ∈ parts, ∃ b rest, part = b :: rest ∧ continuation b = true := by
  induction parts generalizing text with
  | nil => exact .inl fun part member => absurd member List.not_mem_nil
  | cons part parts ih =>
      rw [List.flatten_cons] at same
      rcases cut_cases text part parts.flatten same with ⟨left, right, _, rfl, rest⟩ | ⟨b, rest, later, continues⟩
      · rcases ih right rest with whole | ⟨other, member, begun⟩
        · refine .inl fun other member => ?_
          rcases List.mem_cons.mp member with rfl | member
          · exact ⟨left, rfl⟩
          · exact whole other member
        · exact .inr ⟨other, List.mem_cons_of_mem _ member, begun⟩
      · obtain ⟨other, member, rest', begins⟩ := first_octet parts b rest later
        exact .inr ⟨other, List.mem_cons_of_mem _ member, b, rest', begins, continues⟩

theorem utf8_length : (utf8 text).length = utf8Len (points text) := by
  induction text with
  | nil => rfl
  | cons c text ih =>
      have size : (encodePoint c.toNat).length = pointLen c.toNat := by
        unfold encodePoint pointLen
        split
        · rfl
        · split
          · rfl
          · split <;> rfl
      rw [utf8, List.flatMap_cons, List.length_append, size]
      exact congrArg (pointLen c.toNat + ·) ih

end Filefacts.Lossy
