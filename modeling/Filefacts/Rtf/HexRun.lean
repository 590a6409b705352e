import Filefacts.Pdf.Filters
import Filefacts.Pdf.Lex

set_option autoImplicit false

namespace Filefacts.Rtf

open Bytes (ascii isAsciiAlphabetic)
open Pdf (hexNibble byte_joined isAsciiWhitespace isAsciiDigit)

def maxGroupDepth : Nat := 256

def paramLen (bytes : List UInt8) : Nat :=
  let sign := if bytes.head? = some 45 then 1 else 0
  sign + ((bytes.drop sign).takeWhile isAsciiDigit).length

def splitControlWord (bytes : List UInt8) : List UInt8 × List UInt8 :=
  let word := bytes.takeWhile isAsciiAlphabetic
  let rest := bytes.drop word.length
  (word, rest.drop (paramLen rest))

def stripSpace : List UInt8 → List UInt8
  | 32 :: tail => tail
  | tail => tail

theorem strip_space_length (tail : List UInt8) : (stripSpace tail).length ≤ tail.length := by
  rw [stripSpace.eq_def]
  split
  · exact Nat.le_succ _
  · exact Nat.le_refl _

theorem split_rest_length (bytes : List UInt8) : (splitControlWord bytes).2.length ≤ bytes.length := by
  rw [splitControlWord, List.length_drop, List.length_drop]
  exact (Nat.sub_le _ _).trans (Nat.sub_le _ _)

def binWord : List UInt8 := ascii "bin"

def decodeRun (maxOut : Nat) (text : List UInt8) (depth : Nat) (high : Option UInt8) (out : List UInt8) : List UInt8 :=
  match text with
  | [] => out
  | b :: rest =>
      if b = 123 then
        if maxGroupDepth < depth + 1 then out else decodeRun maxOut rest (depth + 1) high out
      else if b = 125 then
        if depth = 0 then out else decodeRun maxOut rest (depth - 1) high out
      else if b = 92 then
        if rest.head?.any isAsciiAlphabetic then
          -- The data behind `\bin` is bytes, neither digits nor formatting.
          if (splitControlWord rest).1 = binWord then out
          else decodeRun maxOut (stripSpace (splitControlWord rest).2) depth high out
        else if rest.head? = some 42 then decodeRun maxOut rest.tail depth high out
        else out
      else if isAsciiWhitespace b then decodeRun maxOut rest depth high out
      else
        match hexNibble b with
        | none => out
        | some nibble =>
            match high with
            | none => decodeRun maxOut rest depth (some nibble) out
            | some h => if maxOut ≤ out.length then out else decodeRun maxOut rest depth none (out ++ [(h <<< 4) ||| nibble])
termination_by text.length
decreasing_by
  all_goals simp only [List.length_cons]
  all_goals first
    | exact Nat.lt_succ_self _
    | exact Nat.lt_succ_of_le ((strip_space_length _).trans (split_rest_length _))
    | exact Nat.lt_succ_of_le (List.tail_sublist _).length_le

def decodeHexRun (bytes : List UInt8) (maxHex maxOut : Nat) : List UInt8 := decodeRun maxOut (bytes.take maxHex) 0 none []

variable (maxOut depth : Nat) (rest : List UInt8) (high : Option UInt8) (out : List UInt8) (b : UInt8)
  (words : List UInt8 → Prop)

theorem decode_open (inside : depth < maxGroupDepth) :
    decodeRun maxOut (123 :: rest) depth high out = decodeRun maxOut rest (depth + 1) high out := by
  rw [decodeRun, if_pos rfl, if_neg (Nat.not_lt.mpr inside)]

theorem decode_close : decodeRun maxOut (125 :: rest) (depth + 1) high out = decodeRun maxOut rest depth high out := by
  rw [decodeRun, if_neg (by decide), if_pos rfl, if_neg (Nat.succ_ne_zero depth), Nat.add_sub_cancel]

theorem decode_end : decodeRun maxOut (125 :: rest) 0 high out = out := by
  rw [decodeRun, if_neg (by decide), if_pos rfl, if_pos rfl]

theorem decode_mark : decodeRun maxOut (92 :: 42 :: rest) depth high out = decodeRun maxOut rest depth high out := by
  rw [decodeRun, if_neg (by decide), if_neg (by decide), if_pos rfl, List.head?_cons,
    if_neg (by decide), if_pos rfl, List.tail_cons]

theorem plain_white (white : isAsciiWhitespace b = true) : b ≠ 123 ∧ b ≠ 125 ∧ b ≠ 92 := by
  refine ⟨?_, ?_, ?_⟩ <;> rintro rfl <;> exact absurd white (by decide)

theorem plain_digit (nibble : UInt8) (digit : hexNibble b = some nibble) :
    b ≠ 123 ∧ b ≠ 125 ∧ b ≠ 92 ∧ isAsciiWhitespace b = false := by
  refine ⟨?_, ?_, ?_, ?_⟩
  · rintro rfl
    cases digit
  · rintro rfl
    cases digit
  · rintro rfl
    cases digit
  · by_contra white
    rw [Bool.not_eq_false, isAsciiWhitespace] at white
    simp only [Bool.or_eq_true, beq_iff_eq] at white
    rcases white with (((rfl | rfl) | rfl) | rfl) | rfl <;> cases digit

theorem decode_white (rest : List UInt8) (high : Option UInt8) (out : List UInt8) (white : isAsciiWhitespace b = true) :
    decodeRun maxOut (b :: rest) depth high out = decodeRun maxOut rest depth high out := by
  obtain ⟨opens, closes, escapes⟩ := plain_white b white
  rw [decodeRun, if_neg opens, if_neg closes, if_neg escapes, if_pos white]

theorem decode_high (nibble : UInt8) (rest out : List UInt8) (digit : hexNibble b = some nibble) :
    decodeRun maxOut (b :: rest) depth none out = decodeRun maxOut rest depth (some nibble) out := by
  obtain ⟨opens, closes, escapes, plain⟩ := plain_digit b nibble digit
  rw [decodeRun, if_neg opens, if_neg closes, if_neg escapes, if_neg (ne_true_of_eq_false plain), digit]

theorem decode_low (nibble h : UInt8) (rest out : List UInt8) (digit : hexNibble b = some nibble) :
    decodeRun maxOut (b :: rest) depth (some h) out =
      if maxOut ≤ out.length then out else decodeRun maxOut rest depth none (out ++ [(h <<< 4) ||| nibble]) := by
  obtain ⟨opens, closes, escapes, plain⟩ := plain_digit b nibble digit
  rw [decodeRun, if_neg opens, if_neg closes, if_neg escapes, if_neg (ne_true_of_eq_false plain), digit]

theorem decode_strip (tail : List UInt8) (high : Option UInt8) (out : List UInt8) :
    decodeRun maxOut (stripSpace tail) depth high out = decodeRun maxOut tail depth high out := by
  rw [stripSpace.eq_def]
  split
  · exact (decode_white maxOut depth 32 _ high out rfl).symm
  · rfl

inductive Param : List UInt8 → Prop where
  | absent : Param []
  | positive (digits : List UInt8) (listed : digits ≠ []) (all : ∀ d ∈ digits, isAsciiDigit d = true) : Param digits
  | negative (digits : List UInt8) (listed : digits ≠ []) (all : ∀ d ∈ digits, isAsciiDigit d = true) : Param (45 :: digits)

def Ends (param : List UInt8) (b : UInt8) : Prop :=
  isAsciiDigit b = false ∧ (param = [] → isAsciiAlphabetic b = false ∧ b ≠ 45)

theorem take_while_stop (accepts : UInt8 → Bool) (front rest : List UInt8) (all : ∀ b ∈ front, accepts b = true)
    (stops : ∀ b ∈ rest.head?, accepts b = false) : (front ++ rest).takeWhile accepts = front := by
  rw [List.takeWhile_append_of_pos all]
  cases rest with
  | nil => exact List.append_nil front
  | cons b rest => rw [List.takeWhile_cons_of_neg (ne_true_of_eq_false (stops b rfl)), List.append_nil]

theorem digit_not_letter (digit : isAsciiDigit b = true) : isAsciiAlphabetic b = false ∧ b ≠ 45 := by
  rw [isAsciiDigit, Bool.and_eq_true, decide_eq_true_iff, decide_eq_true_iff] at digit
  refine ⟨?_, ?_⟩
  · rw [isAsciiAlphabetic]
    have low : ¬65 ≤ b := fun above => absurd (UInt8.le_trans above digit.2) (by decide)
    have high : ¬97 ≤ b := fun above => absurd (UInt8.le_trans above digit.2) (by decide)
    rw [decide_eq_false low, decide_eq_false high]
    rfl
  · rintro rfl
    exact absurd digit.1 (by decide)

theorem param_len_exact (param rest : List UInt8) (shape : Param param) (ends : ∀ b ∈ rest.head?, Ends param b) :
    paramLen (param ++ rest) = param.length := by
  have digits_stop := fun front all => take_while_stop isAsciiDigit front rest all fun b head => (ends b head).1
  cases shape with
  | absent =>
      have unsigned : rest.head? ≠ some 45 := fun sign => ((ends 45 sign).2 rfl).2 rfl
      have stopped : rest.takeWhile isAsciiDigit = [] := digits_stop [] fun _ absent => nomatch absent
      rw [List.nil_append, paramLen, if_neg unsigned, List.drop_zero, stopped]
      rfl
  | positive _ listed all =>
      have unsigned : (param ++ rest).head? ≠ some 45 := by
        cases param with
        | nil => exact absurd rfl listed
        | cons d param => exact fun sign => (digit_not_letter d (all d List.mem_cons_self)).2 (Option.some.inj sign)
      rw [paramLen, if_neg unsigned, List.drop_zero, digits_stop param all, Nat.zero_add]
  | negative digits listed all =>
      rw [paramLen, List.cons_append, List.head?_cons, if_pos rfl, List.drop_one, List.tail_cons,
        digits_stop digits all, List.length_cons, Nat.add_comm]

theorem split_exact (letters param rest : List UInt8) (alphabetic : ∀ b ∈ letters, isAsciiAlphabetic b = true)
    (shape : Param param) (ends : ∀ b ∈ rest.head?, Ends param b) :
    splitControlWord (letters ++ (param ++ rest)) = (letters, rest) := by
  have word : (letters ++ (param ++ rest)).takeWhile isAsciiAlphabetic = letters := by
    refine take_while_stop isAsciiAlphabetic letters _ alphabetic fun b head => ?_
    cases shape with
    | absent => exact ((ends b head).2 rfl).1
    | positive _ listed all =>
        cases param with
        | nil => exact absurd rfl listed
        | cons d param =>
            obtain rfl := Option.some.inj head
            exact (digit_not_letter d (all d List.mem_cons_self)).1
    | negative digits listed all =>
        obtain rfl := Option.some.inj head
        rfl
  rw [splitControlWord, word, List.drop_left, param_len_exact param rest shape ends, List.drop_left]

variable {param digits text : List UInt8}

theorem decode_word {letters rest : List UInt8} (high : Option UInt8) (out : List UInt8)
    (listed : letters ≠ []) (alphabetic : ∀ b ∈ letters, isAsciiAlphabetic b = true) (plain : letters ≠ binWord)
    (shape : Param param) (ends : ∀ b ∈ rest.head?, Ends param b) :
    decodeRun maxOut (92 :: (letters ++ (param ++ rest))) depth high out = decodeRun maxOut rest depth high out := by
  have starts : (letters ++ (param ++ rest)).head?.any isAsciiAlphabetic = true := by
    cases letters with
    | nil => exact absurd rfl listed
    | cons b letters => exact alphabetic b List.mem_cons_self
  rw [decodeRun, if_neg (by decide), if_neg (by decide), if_pos rfl, if_pos starts,
    split_exact letters param rest alphabetic shape ends, if_neg plain, decode_strip]

-- A hex digit right behind a control word that would be read as part of the word or its parameter.
def Swallowed (param : List UInt8) (b : UInt8) : Prop :=
  if param = [] then hexNibble b ≠ none else isAsciiDigit b = true

-- Object data from some depth of groups to its end: the digits it holds and the text that spells them,
-- whose control words are among `words`.
inductive Spelled (words : List UInt8 → Prop) : Nat → List UInt8 → List UInt8 → Prop where
  | done : Spelled words 0 [] []
  | digit (depth : Nat) (b nibble : UInt8) (digits text : List UInt8) (digit : hexNibble b = some nibble)
      (later : Spelled words depth digits text) : Spelled words depth (nibble :: digits) (b :: text)
  | white (depth : Nat) (b : UInt8) (digits text : List UInt8) (white : isAsciiWhitespace b = true)
      (later : Spelled words depth digits text) : Spelled words depth digits (b :: text)
  | mark (depth : Nat) (digits text : List UInt8) (later : Spelled words depth digits text) :
      Spelled words depth digits (92 :: 42 :: text)
  | bare (depth : Nat) (letters param digits text : List UInt8) (listed : letters ≠ [])
      (alphabetic : ∀ b ∈ letters, isAsciiAlphabetic b = true) (allowed : words letters) (shape : Param param)
      (apart : ∀ b ∈ text.head?, ¬Swallowed param b) (later : Spelled words depth digits text) :
      Spelled words depth digits (92 :: (letters ++ (param ++ text)))
  | spaced (depth : Nat) (letters param digits text : List UInt8) (listed : letters ≠ [])
      (alphabetic : ∀ b ∈ letters, isAsciiAlphabetic b = true) (allowed : words letters) (shape : Param param)
      (later : Spelled words depth digits text) : Spelled words depth digits (92 :: (letters ++ (param ++ 32 :: text)))
  | opened (depth : Nat) (digits text : List UInt8) (inside : depth < maxGroupDepth)
      (later : Spelled words (depth + 1) digits text) : Spelled words depth digits (123 :: text)
  | closed (depth : Nat) (digits text : List UInt8) (later : Spelled words depth digits text) :
      Spelled words (depth + 1) digits (125 :: text)

def digitsOf (bytes : List UInt8) : List UInt8 := bytes.flatMap fun (b : UInt8) => [b >>> 4, b &&& 15]

def collect (maxOut : Nat) : List UInt8 → Option UInt8 → List UInt8 → List UInt8
  | [], _, out => out
  | nibble :: rest, none, out => collect maxOut rest (some nibble) out
  | nibble :: rest, some h, out =>
      if maxOut ≤ out.length then out else collect maxOut rest none (out ++ [(h <<< 4) ||| nibble])

theorem collect_bytes (bytes out : List UInt8) (inside : out.length ≤ maxOut) :
    collect maxOut (digitsOf bytes) none out = out ++ bytes.take (maxOut - out.length) := by
  induction bytes generalizing out with
  | nil =>
      rw [List.take_nil, List.append_nil]
      rfl
  | cons b rest ih =>
      rw [digitsOf, List.flatMap_cons, List.cons_append, collect, List.singleton_append, collect, byte_joined]
      by_cases full : maxOut ≤ out.length
      · rw [if_pos full, Nat.sub_eq_zero_of_le full, List.take_zero, List.append_nil]
      · have room : out.length < maxOut := Nat.not_le.mp full
        rw [if_neg full]
        refine (ih (out ++ [b]) (by rw [List.length_append]; exact room)).trans ?_
        rw [List.append_assoc, List.singleton_append, List.length_append, List.length_singleton]
        obtain ⟨more, rfl⟩ := Nat.exists_eq_add_of_lt room
        rw [Nat.add_assoc, Nat.add_sub_cancel_left, List.take_succ_cons, Nat.add_comm more 1, ← Nat.add_assoc,
          Nat.add_sub_cancel_left]

theorem spelled_head {depth : Nat} {b : UInt8}
    (spelled : Spelled words depth digits text) (head : text.head? = some b) :
    hexNibble b ≠ none ∨ isAsciiWhitespace b = true ∨ b = 92 ∨ b = 123 ∨ b = 125 := by
  cases spelled with
  | done => cases head
  | digit _ _ nibble digits rest digit later =>
      obtain rfl := Option.some.inj head
      exact Or.inl fun absent => by rw [absent] at digit; cases digit
  | white _ _ _ rest white later =>
      obtain rfl := Option.some.inj head
      exact Or.inr (Or.inl white)
  | mark _ _ rest later => exact Or.inr (Or.inr (Or.inl (Option.some.inj head).symm))
  | bare _ letters param _ rest listed alphabetic allowed shape apart later =>
      exact Or.inr (Or.inr (Or.inl (Option.some.inj head).symm))
  | spaced _ letters param _ rest listed alphabetic allowed shape later =>
      exact Or.inr (Or.inr (Or.inl (Option.some.inj head).symm))
  | opened _ _ rest inside later => exact Or.inr (Or.inr (Or.inr (Or.inl (Option.some.inj head).symm)))
  | closed _ _ rest later => exact Or.inr (Or.inr (Or.inr (Or.inr (Option.some.inj head).symm)))

theorem not_hex_plain (plain : isAsciiWhitespace b = true ∨ b = 92 ∨ b = 123 ∨ b = 125) :
    isAsciiDigit b = false ∧ isAsciiAlphabetic b = false ∧ b ≠ 45 := by
  rcases plain with white | rfl | rfl | rfl
  · rw [isAsciiWhitespace] at white
    simp only [Bool.or_eq_true, beq_iff_eq] at white
    rcases white with (((rfl | rfl) | rfl) | rfl) | rfl <;> decide
  all_goals decide

theorem unswallowed_ends {depth : Nat} {b : UInt8}
    (spelled : Spelled words depth digits text) (head : text.head? = some b) (apart : ¬Swallowed param b) : Ends param b := by
  rw [Swallowed] at apart
  by_cases absent : param = []
  · rw [if_pos absent] at apart
    have plain := not_hex_plain b ((spelled_head words spelled head).resolve_left apart)
    exact ⟨plain.1, fun _ => plain.2⟩
  · rw [if_neg absent, Bool.not_eq_true] at apart
    exact ⟨apart, fun empty => absurd empty absent⟩

def Stops (behind : List UInt8) : Prop := behind = [] ∨ ∃ after, behind = 125 :: after

theorem stops_head (behind : List UInt8) (stops : Stops behind) (param : List UInt8) : ∀ b ∈ behind.head?, Ends param b := by
  intro b head
  rcases stops with rfl | ⟨after, rfl⟩
  · cases head
  · obtain rfl := Option.some.inj head
    exact ⟨by decide, fun _ => by decide⟩

theorem decode_spelled (plain : ∀ letters, words letters → letters ≠ binWord) (maxOut : Nat) {depth : Nat}
    {behind : List UInt8} (spelled : Spelled words depth digits text) (stops : Stops behind)
    (high : Option UInt8) (out : List UInt8) :
    decodeRun maxOut (text ++ behind) depth high out = collect maxOut digits high out := by
  induction spelled generalizing high out with
  | done =>
      rw [List.nil_append, collect]
      rcases stops with rfl | ⟨after, rfl⟩
      · rw [decodeRun]
      · exact decode_end maxOut after high out
  | digit depth b nibble digits text digit later ih =>
      cases high with
      | none =>
          rw [List.cons_append, decode_high maxOut depth b nibble _ out digit, collect]
          exact ih (some nibble) out
      | some h =>
          rw [List.cons_append, decode_low maxOut depth b nibble h _ out digit, collect, ih]
  | white depth b digits text white later ih =>
      rw [List.cons_append, decode_white maxOut depth b _ high out white]
      exact ih high out
  | mark depth digits text later ih =>
      rw [List.cons_append, List.cons_append, decode_mark]
      exact ih high out
  | bare depth letters param digits text listed alphabetic allowed shape apart later ih =>
      have ends : ∀ b ∈ (text ++ behind).head?, Ends param b := by
        cases text with
        | nil => exact stops_head behind stops param
        | cons head rest => exact fun b first => unswallowed_ends words later first (apart b first)
      rw [List.cons_append, List.append_assoc, List.append_assoc,
        decode_word maxOut depth high out listed alphabetic (plain letters allowed) shape ends]
      exact ih high out
  | spaced depth letters param digits text listed alphabetic allowed shape later ih =>
      have ends : ∀ b ∈ (32 :: (text ++ behind)).head?, Ends param b := by
        intro b head
        obtain rfl := Option.some.inj head
        exact ⟨by decide, fun _ => by decide⟩
      rw [List.cons_append, List.append_assoc, List.append_assoc, List.cons_append,
        decode_word maxOut depth high out listed alphabetic (plain letters allowed) shape ends,
        decode_white maxOut depth 32 _ high out rfl]
      exact ih high out
  | opened depth digits text inside later ih =>
      rw [List.cons_append, decode_open maxOut depth _ high out inside]
      exact ih high out
  | closed depth digits text later ih =>
      rw [List.cons_append, decode_close]
      exact ih high out

theorem decode_hex_run_exact (bytes text after : List UInt8) (maxHex maxOut : Nat)
    (spelled : Spelled (fun letters => letters ≠ binWord) 0 (digitsOf bytes) text) (inside : text.length ≤ maxHex) :
    decodeHexRun (text ++ 125 :: after) maxHex maxOut = bytes.take maxOut := by
  have stops : Stops ((125 :: after).take (maxHex - text.length)) := by
    cases maxHex - text.length with
    | zero => exact Or.inl rfl
    | succ more => exact Or.inr ⟨after.take more, rfl⟩
  rw [decodeHexRun, List.take_append, List.take_of_length_le inside,
    decode_spelled (fun letters => letters ≠ binWord) (fun _ plain => plain) maxOut spelled stops none [],
    collect_bytes maxOut bytes [] (Nat.zero_le maxOut)]
  rfl

theorem bare_word : Spelled (fun letters => letters ≠ binWord) 0 (digitsOf [65]) (ascii "4\\c7 1") :=
  .digit 0 52 4 [1] _ rfl (.spaced 0 [99] [55] [1] [49] (List.cons_ne_nil _ _) (List.forall_mem_singleton.mpr rfl)
    (fun same => nomatch (List.cons.inj same).2) (.positive [55] (List.cons_ne_nil _ _) (List.forall_mem_singleton.mpr rfl)) (.digit 0 49 1 [] [] rfl .done))

theorem decode_hex_run_exact_word : decodeHexRun (ascii "4\\c7 1" ++ 125 :: ascii "42\x7d") 100 100 = [65] :=
  decode_hex_run_exact [65] (ascii "4\\c7 1") (ascii "42\x7d") 100 100 bare_word (by decide)

theorem bin_letters : ∀ b ∈ ([98, 105, 110] : List UInt8), isAsciiAlphabetic b = true :=
  List.forall_mem_cons.mpr ⟨rfl, List.forall_mem_cons.mpr ⟨rfl, List.forall_mem_singleton.mpr rfl⟩⟩

theorem bin_spelled : Spelled (fun _ => True) 0 (digitsOf [65]) (ascii "4\\bin 1") :=
  .digit 0 52 4 [1] _ rfl (.spaced 0 [98, 105, 110] [] [1] [49] (List.cons_ne_nil _ _) bin_letters trivial .absent
    (.digit 0 49 1 [] [] rfl .done))

-- `\bin` stops the reader with no byte decoded.
theorem bin_word_stops : ¬∀ (bytes text after : List UInt8) (maxHex maxOut : Nat),
    Spelled (fun _ => True) 0 (digitsOf bytes) text → text.length ≤ maxHex →
      decodeHexRun (text ++ 125 :: after) maxHex maxOut = bytes.take maxOut := by
  intro always
  have claimed := always [65] (ascii "4\\bin 1") [] 100 100 bin_spelled (by decide)
  have stopped : decodeHexRun (ascii "4\\bin 1" ++ [125]) 100 100 = [] := by
    rw [decodeHexRun]
    refine (decode_high 100 0 52 4 [92, 98, 105, 110, 32, 49, 125] [] rfl).trans ?_
    rw [decodeRun, if_neg (by decide), if_neg (by decide), if_pos rfl, if_pos (by decide), if_pos (by decide)]
  rw [stopped] at claimed
  cases claimed

end Filefacts.Rtf
