import Filefacts.Pdf.Names

set_option autoImplicit false

namespace Filefacts.Pdf

-- What may stand between two tokens. A comment ends with its line.
inductive Piece where
  | white (b : UInt8) (blank : isWhite b = true)
  | comment (text : List UInt8) (eol : UInt8) (inside : ∀ b ∈ text, b ≠ 10 ∧ b ≠ 13) (ends : eol = 10 ∨ eol = 13)

def Piece.octets : Piece → List UInt8
  | .white b _ => [b]
  | .comment text eol _ _ => 37 :: (text ++ [eol])

def Piece.text : Piece → List UInt8
  | .white _ _ => []
  | .comment text _ _ _ => text

def gapOctets (gap : List Piece) : List UInt8 := gap.flatMap Piece.octets

inductive Token where
  | name (text : List UInt8)
  | word (octets : List UInt8)
  | string (octets : List UInt8)
  | openArray
  | closeArray
  | openDict
  | closeDict
deriving DecidableEq, Repr

-- A word is a number, a boolean, null or a part of a reference. A string is kept as it is written, without a slash.
inductive SpelledToken : Token → List UInt8 → Prop
  | name (text raw : List UInt8) (spelled : SpelledName text raw) : SpelledToken (.name text) (47 :: raw)
  | word (first : UInt8) (rest : List UInt8) (regular : ∀ b ∈ first :: rest, isRegular b = true) :
      SpelledToken (.word (first :: rest)) (first :: rest)
  | string (first : UInt8) (rest : List UInt8) (opens : first = 40 ∨ first = 60) (plain : (47 : UInt8) ∉ first :: rest) :
      SpelledToken (.string (first :: rest)) (first :: rest)
  | openArray : SpelledToken .openArray [91]
  | closeArray : SpelledToken .closeArray [93]
  | openDict : SpelledToken .openDict [60, 60]
  | closeDict : SpelledToken .closeDict [62, 62]

structure Item where
  gap : List Piece
  token : Token
  octets : List UInt8
  spelled : SpelledToken token octets

def Token.runsOn : Token → Bool
  | .name _ => true
  | .word _ => true
  | _ => false

def Token.isWord : Token → Bool
  | .word _ => true
  | _ => false

-- A word needs a gap before it when the token in front has no delimiter at its end.
def Separated : List Item → Prop
  | first :: second :: rest =>
      (first.token.runsOn = true → second.token.isWord = true → second.gap ≠ []) ∧ Separated (second :: rest)
  | _ => True

def spell : List Item → List Piece → List UInt8
  | [], last => gapOctets last
  | item :: rest, last => gapOctets item.gap ++ (item.octets ++ spell rest last)

mutual

inductive Value where
  | name (text : List UInt8)
  | word (octets : List UInt8)
  | reference (number generation : List UInt8)
  | string (octets : List UInt8)
  | array (items : Items)
  | dict (entries : Entries)

inductive Items where
  | nil
  | cons (item : Value) (rest : Items)

inductive Entries where
  | nil
  | cons (key : List UInt8) (value : Value) (rest : Entries)

end

mutual

def Value.tokens : Value → List Token
  | .name text => [.name text]
  | .word octets => [.word octets]
  | .reference number generation => [.word number, .word generation, .word [82]]
  | .string octets => [.string octets]
  | .array items => .openArray :: (items.tokens ++ [.closeArray])
  | .dict entries => .openDict :: (entries.tokens ++ [.closeDict])

def Items.tokens : Items → List Token
  | .nil => []
  | .cons item rest => item.tokens ++ rest.tokens

def Entries.tokens : Entries → List Token
  | .nil => []
  | .cons key value rest => .name key :: (value.tokens ++ rest.tokens)

end

def Value.nameOf : Value → Option (List UInt8)
  | .name text => some text
  | _ => none

-- The name values of the entries with the key, those of nested dictionaries in their place.
mutual

def Value.named (key : List UInt8) : Value → List (List UInt8)
  | .array items => items.named key
  | .dict entries => entries.named key
  | _ => []

def Items.named (key : List UInt8) : Items → List (List UInt8)
  | .nil => []
  | .cons item rest => item.named key ++ rest.named key

def Entries.named (key : List UInt8) : Entries → List (List UInt8)
  | .nil => []
  | .cons other value rest => (if other = key then value.nameOf.toList else []) ++ (value.named key ++ rest.named key)

end

mutual

def Value.valueNames : Value → List (List UInt8)
  | .name text => [text]
  | .array items => items.valueNames
  | .dict entries => entries.valueNames
  | _ => []

def Items.valueNames : Items → List (List UInt8)
  | .nil => []
  | .cons item rest => item.valueNames ++ rest.valueNames

def Entries.valueNames : Entries → List (List UInt8)
  | .nil => []
  | .cons _ value rest => value.valueNames ++ rest.valueNames

end

def Mentions (key text : List UInt8) : Prop :=
  ∃ front raw back, text = front ++ (47 :: (raw ++ back)) ∧ SpelledName key raw ∧ Ends isRegular back

def pieces (items : List Item) (last : List Piece) : List Piece := items.flatMap Item.gap ++ last

def Unmentioned (key : List UInt8) (gaps : List Piece) : Prop := ∀ piece ∈ gaps, ¬ Mentions key piece.text

def Token.nameOf : Token → Option (List UInt8)
  | .name text => some text
  | _ => none

def headName (tokens : List Token) : Option (List UInt8) := tokens.head?.bind Token.nameOf

def follower (key : List UInt8) (token : Token) (rest : List Token) : Option (List UInt8) :=
  if token.nameOf = some key then headName rest else none

def followers (key : List UInt8) : List Token → List (List UInt8)
  | [] => []
  | token :: rest => (follower key token rest).toList ++ followers key rest

variable (key text : List UInt8) (b : UInt8) (rest front : List UInt8) (eol : UInt8) (gap : List Piece)
  (raw : List UInt8) (token : Token) (octets : List UInt8) (item : Item) (items : List Item)

theorem followers_sublist (tokens rest : List Token) : (followers key rest).Sublist (followers key (tokens ++ rest)) := by
  induction tokens with
  | nil => exact List.Sublist.refl _
  | cons token tokens ih => exact ih.trans (List.sublist_append_right _ _)

theorem follower_other (rest : List Token) (other : text ≠ key) : follower key (.name text) rest = none :=
  if_neg fun same => other (Option.some.inj same)

theorem head_name_value (value : Value) (rest : List Token) : headName (value.tokens ++ rest) = value.nameOf := by
  cases value with
  | name text => rfl
  | word octets => rfl
  | reference number generation => rfl
  | string octets => rfl
  | array items => rfl
  | dict entries => rfl

theorem entry_follower (other : List UInt8) (value : Value) (rest : List Token) :
    (follower key (.name other) (value.tokens ++ rest)).toList = if other = key then value.nameOf.toList else [] := by
  by_cases same : other = key
  · rw [if_pos same, follower, Token.nameOf, if_pos (congrArg some same), head_name_value]
  · rw [if_neg same, follower_other key other _ same, Option.toList_none]

mutual

theorem value_followers (key : List UInt8) : ∀ (value : Value) (rest : List Token), key ∉ value.valueNames →
    followers key (value.tokens ++ rest) = value.named key ++ followers key rest
  | .name text, rest, absent => by
      have other : text ≠ key := fun same => absent (List.mem_singleton.mpr same.symm)
      rw [Value.tokens, List.singleton_append, followers, follower_other key text rest other]
      rfl
  | .word octets, rest, _ => rfl
  | .reference number generation, rest, _ => rfl
  | .string octets, rest, _ => rfl
  | .array items, rest, absent => by
      have inside := items_followers key items (.closeArray :: rest) absent
      rw [Value.tokens, List.cons_append, List.append_assoc, List.singleton_append, followers, inside]
      rfl
  | .dict entries, rest, absent => by
      have inside := entries_followers key entries (.closeDict :: rest) absent
      rw [Value.tokens, List.cons_append, List.append_assoc, List.singleton_append, followers, inside]
      rfl

theorem items_followers (key : List UInt8) : ∀ (items : Items) (rest : List Token), key ∉ items.valueNames →
    followers key (items.tokens ++ rest) = items.named key ++ followers key rest
  | .nil, rest, _ => rfl
  | .cons item items, rest, absent => by
      rw [Items.valueNames, List.mem_append, not_or] at absent
      rw [Items.tokens, List.append_assoc, value_followers key item _ absent.1, items_followers key items rest absent.2, Items.named,
        List.append_assoc]

theorem entries_followers (key : List UInt8) : ∀ (entries : Entries) (rest : List Token), key ∉ entries.valueNames →
    followers key (entries.tokens ++ rest) = entries.named key ++ followers key rest
  | .nil, rest, _ => rfl
  | .cons other value entries, rest, absent => by
      rw [Entries.valueNames, List.mem_append, not_or] at absent
      rw [Entries.tokens, List.cons_append, List.append_assoc, followers, entry_follower, value_followers key value _ absent.1,
        entries_followers key entries rest absent.2, Entries.named, List.append_assoc, List.append_assoc]

end

mutual

theorem value_named (key : List UInt8) : ∀ (value : Value) (rest : List Token),
    (value.named key ++ followers key rest).Sublist (followers key (value.tokens ++ rest))
  | .name text, rest => followers_sublist key [.name text] rest
  | .word octets, rest => List.Sublist.refl _
  | .reference number generation, rest => List.Sublist.refl _
  | .string octets, rest => List.Sublist.refl _
  | .array items, rest => by
      have inside := items_named key items (.closeArray :: rest)
      rw [Value.tokens, List.cons_append, List.append_assoc, List.singleton_append]
      exact inside
  | .dict entries, rest => by
      have inside := entries_named key entries (.closeDict :: rest)
      rw [Value.tokens, List.cons_append, List.append_assoc, List.singleton_append]
      exact inside

theorem items_named (key : List UInt8) : ∀ (items : Items) (rest : List Token),
    (items.named key ++ followers key rest).Sublist (followers key (items.tokens ++ rest))
  | .nil, rest => List.Sublist.refl _
  | .cons item items, rest => by
      rw [Items.tokens, List.append_assoc, Items.named, List.append_assoc]
      exact ((items_named key items rest).append_left _).trans (value_named key item _)

theorem entries_named (key : List UInt8) : ∀ (entries : Entries) (rest : List Token),
    (entries.named key ++ followers key rest).Sublist (followers key (entries.tokens ++ rest))
  | .nil, rest => List.Sublist.refl _
  | .cons other value entries, rest => by
      rw [Entries.tokens, List.cons_append, List.append_assoc, followers, entry_follower, Entries.named, List.append_assoc,
        List.append_assoc]
      exact (((entries_named key entries rest).append_left _).trans (value_named key value _)).append_left _

end

theorem white_irregular (blank : isWhite b = true) : isRegular b = false := by
  rw [isRegular, blank]
  rfl

theorem regular_solid (regular : isRegular b = true) : isWhite b = false ∧ b ≠ 37 := by
  constructor
  · cases blank : isWhite b with
    | false => rfl
    | true => exact absurd ((white_irregular b blank).symm.trans regular) Bool.false_ne_true
  · rintro rfl
    exact Bool.false_ne_true regular

def Solid (rest : List UInt8) : Prop := ∀ b ∈ rest.head?, isWhite b = false ∧ b ≠ 37

theorem solid_ends (solid : Solid rest) : Ends isWhite rest := fun b first => (solid b first).1

theorem byte_there (rest : List UInt8) : (front ++ rest)[front.length]? = rest.head? := by
  rw [List.getElem?_append_right (Nat.le_refl _), Nat.sub_self, List.head?_eq_getElem?]

theorem skip_turns_solid (rest : List UInt8) (fuel : Nat) (solid : Solid rest) :
    skipTurns (front ++ rest) fuel front.length = front.length := by
  have stays := skip_while_run front [] rest isWhite (List.forall_mem_nil _) (solid_ends rest solid)
  rw [List.nil_append, List.length_nil, Nat.add_zero] at stays
  cases fuel with
  | zero => exact stays
  | succ fuel =>
      have plain : (front ++ rest)[front.length]? ≠ some 37 := by
        rw [byte_there]
        exact fun mark => (solid 37 mark).2 rfl
      rw [skipTurns, stays]
      exact if_pos plain

theorem skip_while_pass (rest : List UInt8) (b : UInt8) (passes : UInt8 → Bool) (pass : passes b = true) :
    skipWhile (front ++ b :: rest) front.length passes = skipWhile (front ++ b :: rest) (front ++ [b]).length passes := by
  have whole : front ++ b :: rest = (front ++ [b]) ++ rest := by rw [List.append_assoc, List.singleton_append]
  have ahead : (front ++ b :: rest).drop (front ++ [b]).length = rest := by rw [whole, List.drop_left]
  rw [skipWhile, skipWhile, ahead, List.drop_left, List.takeWhile_cons_of_pos pass, List.length_append, List.length_cons,
    List.length_singleton]
  omega

theorem skip_turns_white (rest : List UInt8) (b : UInt8) (fuel : Nat) (blank : isWhite b = true) :
    skipTurns (front ++ b :: rest) fuel front.length = skipTurns (front ++ b :: rest) fuel (front ++ [b]).length := by
  have same := skip_while_pass front rest b isWhite blank
  cases fuel with
  | zero => exact same
  | succ fuel => simp only [skipTurns, same]

theorem eol_white (ends : eol = 10 ∨ eol = 13) : isWhite eol = true := by
  rcases ends with rfl | rfl
  · rfl
  · rfl

theorem skip_turns_comment (text rest : List UInt8) (eol : UInt8) (fuel : Nat) (inside : ∀ b ∈ text, b ≠ 10 ∧ b ≠ 13)
    (ends : eol = 10 ∨ eol = 13) :
    skipTurns (front ++ (37 :: (text ++ eol :: rest))) (fuel + 1) front.length =
      skipTurns (front ++ (37 :: (text ++ eol :: rest))) fuel (front ++ 37 :: text).length := by
  have stays := skip_while_run front [] (37 :: (text ++ eol :: rest)) isWhite (List.forall_mem_nil _) (by
    intro b first
    obtain rfl := Option.some.inj first
    rfl)
  have line := skip_while_run front (37 :: text) (eol :: rest) (fun b => b != 10 && b != 13)
    (by
      refine List.forall_mem_cons.mpr ⟨rfl, fun b member => ?_⟩
      rw [bne_iff_ne.mpr (inside b member).1, bne_iff_ne.mpr (inside b member).2]
      rfl)
    (by
      intro b first
      obtain rfl := Option.some.inj first
      rcases ends with rfl | rfl
      · rfl
      · rfl)
  rw [List.nil_append, List.length_nil, Nat.add_zero] at stays
  rw [List.cons_append, ← List.length_append] at line
  rw [skipTurns, stays, byte_there, if_neg (fun other => other rfl), line]

theorem skip_gap : ∀ (front rest : List UInt8) (fuel : Nat), gap.length ≤ fuel → Solid rest →
    skipTurns (front ++ (gapOctets gap ++ rest)) fuel front.length = (front ++ gapOctets gap).length := by
  induction gap with
  | nil =>
      intro front rest fuel _ solid
      rw [gapOctets, List.flatMap_nil, List.nil_append, List.append_nil]
      exact skip_turns_solid front rest fuel solid
  | cons piece gap ih =>
      intro front rest fuel enough solid
      rw [List.length_cons] at enough
      cases piece with
      | white b blank =>
          have next := ih (front ++ [b]) rest fuel (by omega) solid
          have step := skip_turns_white front (gapOctets gap ++ rest) b fuel blank
          have whole : front ++ (gapOctets (.white b blank :: gap) ++ rest) = front ++ b :: (gapOctets gap ++ rest) := rfl
          rw [List.append_assoc, List.singleton_append] at next
          rw [whole, step, next, List.append_assoc]
          rfl
      | comment text eol inside ends =>
          cases fuel with
          | zero => exact absurd enough (Nat.not_succ_le_zero _)
          | succ fuel =>
              have next := ih (front ++ 37 :: text ++ [eol]) rest fuel (by omega) solid
              have line := skip_turns_comment front text (gapOctets gap ++ rest) eol fuel inside ends
              have step := skip_turns_white (front ++ 37 :: text) (gapOctets gap ++ rest) eol fuel (eol_white eol ends)
              have whole : front ++ (gapOctets (.comment text eol inside ends :: gap) ++ rest) =
                  front ++ (37 :: (text ++ eol :: (gapOctets gap ++ rest))) := by
                simp only [gapOctets, List.flatMap_cons, Piece.octets, List.cons_append, List.append_assoc, List.nil_append]
              rw [List.append_assoc, List.append_assoc, List.singleton_append, List.cons_append] at next
              rw [List.append_assoc, List.cons_append] at step
              rw [whole, line, step, next]
              simp only [gapOctets, List.flatMap_cons, Piece.octets, List.length_append, List.length_cons, List.length_nil]
              omega

theorem gap_length_le : gap.length ≤ (gapOctets gap).length := by
  induction gap with
  | nil => exact Nat.le_refl 0
  | cons piece gap ih =>
      have octet : 1 ≤ piece.octets.length := by
        cases piece with
        | white b blank => exact Nat.le_refl 1
        | comment text eol inside ends => exact Nat.le_add_left _ _
      rw [gapOctets, List.flatMap_cons, List.length_append, List.length_cons, ← gapOctets]
      omega

theorem skip_white_and_comments_gap (rest : List UInt8) (gap : List Piece) (solid : Solid rest) :
    skipWhiteAndComments (front ++ (gapOctets gap ++ rest)) front.length = (front ++ gapOctets gap).length := by
  refine skip_gap gap front rest _ ?_ solid
  have few := gap_length_le gap
  rw [List.length_append, List.length_append]
  omega

theorem value_name_none (rest : List UInt8) (gap : List Piece) (solid : Solid rest) (other : rest.head? ≠ some 47) :
    valueName (front ++ (gapOctets gap ++ rest)) front.length = none := by
  have there := byte_there (front ++ gapOctets gap) rest
  rw [List.append_assoc] at there
  rw [valueName, skip_white_and_comments_gap front rest gap solid, there, if_pos other]

theorem slash_solid : Solid (47 :: rest) := by
  intro b first
  obtain rfl := Option.some.inj first
  exact ⟨rfl, by decide⟩

theorem value_name_some {rest : List UInt8} (gap : List Piece) {text : List UInt8} (spelled : SpelledName text raw)
    (ends : Ends isRegular rest) :
    valueName (front ++ (gapOctets gap ++ (47 :: (raw ++ rest)))) front.length = some text := by
  have there := byte_there (front ++ gapOctets gap) (47 :: (raw ++ rest))
  have regular := spelled_regular text raw spelled
  have name := name_at_there (front ++ gapOctets gap) regular ends
  rw [List.append_assoc] at there name
  rw [valueName, skip_white_and_comments_gap front _ gap (slash_solid _), there, if_neg (fun other => other rfl), name, Option.map_some,
    (decode_name_iff text raw regular).mpr spelled]

structure Starts (token : Token) (first : UInt8) : Prop where
  solid : isWhite first = false
  plain : first ≠ 37
  ends : token.isWord = false → isRegular first = false

theorem token_starts (spelled : SpelledToken token octets) : ∃ first rest, octets = first :: rest ∧ Starts token first := by
  cases spelled with
  | name text raw spelled => exact ⟨47, raw, rfl, rfl, by decide, fun _ => rfl⟩
  | word first rest regular =>
      have solid := regular_solid first (regular first List.mem_cons_self)
      exact ⟨first, rest, rfl, solid.1, solid.2, fun other => by cases other⟩
  | string first rest opens plain =>
      rcases opens with rfl | rfl
      · exact ⟨40, rest, rfl, rfl, by decide, fun _ => rfl⟩
      · exact ⟨60, rest, rfl, rfl, by decide, fun _ => rfl⟩
  | openArray => exact ⟨91, [], rfl, rfl, by decide, fun _ => rfl⟩
  | closeArray => exact ⟨93, [], rfl, rfl, by decide, fun _ => rfl⟩
  | openDict => exact ⟨60, [60], rfl, rfl, by decide, fun _ => rfl⟩
  | closeDict => exact ⟨62, [62], rfl, rfl, by decide, fun _ => rfl⟩

theorem token_solid (rest : List UInt8) (spelled : SpelledToken token octets) : Solid (octets ++ rest) := by
  obtain ⟨first, more, rfl, starts⟩ := token_starts token octets spelled
  intro b head
  obtain rfl := Option.some.inj head
  exact ⟨starts.solid, starts.plain⟩

theorem token_ends (rest : List UInt8) (spelled : SpelledToken token octets) (other : token.isWord = false) :
    Ends isRegular (octets ++ rest) := by
  obtain ⟨first, more, rfl, starts⟩ := token_starts token octets spelled
  intro b head
  obtain rfl := Option.some.inj head
  exact starts.ends other

theorem token_free (spelled : SpelledToken token octets) (other : token.nameOf = none) : (47 : UInt8) ∉ octets := by
  cases spelled with
  | name text raw spelled => cases other
  | word first rest regular => exact regular_free _ regular
  | string first rest opens plain => exact plain
  | openArray => decide
  | closeArray => decide
  | openDict => decide
  | closeDict => decide

theorem gap_ends (rest : List UInt8) (open_ : gap ≠ []) : Ends isRegular (gapOctets gap ++ rest) := by
  intro b first
  cases gap with
  | nil => exact absurd rfl open_
  | cons piece gap =>
      cases piece with
      | white c blank =>
          obtain rfl := Option.some.inj first
          exact white_irregular c blank
      | comment text eol inside ends =>
          obtain rfl := Option.some.inj first
          rfl

theorem spell_ends (rest : List Item) (last : List Piece) (separated : Separated (item :: rest))
    (runs : item.token.runsOn = true) : Ends isRegular (spell rest last) := by
  cases rest with
  | nil =>
      cases last with
      | nil =>
          intro b first
          cases first
      | cons piece last =>
          have ends := gap_ends (piece :: last) [] (List.cons_ne_nil _ _)
          rw [List.append_nil] at ends
          exact ends
  | cons next rest =>
      rw [spell]
      by_cases closed : next.gap = []
      · rw [closed]
        refine token_ends next.token next.octets _ next.spelled ?_
        cases isWord : next.token.isWord with
        | false => rfl
        | true => exact absurd closed (separated.1 runs isWord)
      · exact gap_ends next.gap _ closed

theorem separated_tail (rest : List Item) (separated : Separated (item :: rest)) : Separated rest := by
  cases rest with
  | nil => trivial
  | cons next rest => exact separated.2

theorem value_name_spelled (last : List Piece) (front : List UInt8) (separated : Separated items) :
    valueName (front ++ spell items last) front.length = headName (items.map Item.token) := by
  cases items with
  | nil =>
      have nothing := value_name_none front [] last (fun b first => by cases first) (fun slash => by cases slash)
      rw [List.append_nil] at nothing
      exact nothing
  | cons item rest =>
      obtain ⟨gap, token, octets, spelled⟩ := item
      have solid := token_solid token octets (spell rest last) spelled
      have ends := spell_ends _ rest last separated
      cases named : token.nameOf with
      | none =>
          have free := token_free token octets spelled named
          have nothing := value_name_none front (octets ++ spell rest last) gap solid fun slash => by
            obtain ⟨first, more, rfl, _⟩ := token_starts token octets spelled
            obtain rfl := Option.some.inj slash
            exact free List.mem_cons_self
          exact nothing.trans named.symm
      | some text =>
          cases spelled with
          | name other raw spelled =>
              obtain rfl := Option.some.inj named
              exact value_name_some front raw gap spelled (ends rfl)
          | word first more regular => cases named
          | string first more opens plain => cases named
          | openArray => cases named
          | closeArray => cases named
          | openDict => cases named
          | closeDict => cases named

theorem mentions_cons (mentions : Mentions key text) : Mentions key (b :: text) := by
  obtain ⟨front, raw, back, rfl, spelled, ends⟩ := mentions
  exact ⟨b :: front, raw, back, rfl, spelled, ends⟩

theorem mentions_head : Mentions (decodeName (text.takeWhile isRegular)) (47 :: text) := by
  have regular : ∀ b ∈ text.takeWhile isRegular, isRegular b = true := fun b => List.mem_takeWhile_imp
  exact ⟨[], text.takeWhile isRegular, text.dropWhile isRegular, by rw [List.takeWhile_append_dropWhile]; rfl,
    (decode_name_iff _ _ regular).mp rfl, drop_while_ends isRegular text⟩

theorem take_while_line (ends : isRegular eol = false) :
    (text ++ eol :: rest).takeWhile isRegular = text.takeWhile isRegular := by
  induction text with
  | nil => exact List.takeWhile_cons_of_neg (by rw [ends]; exact Bool.false_ne_true)
  | cons b text ih => rw [List.cons_append, List.takeWhile_cons, List.takeWhile_cons, ih]

theorem scan_line (ends : isRegular eol = false) (other : eol ≠ 47) :
    ∃ found, scanNames (text ++ eol :: rest) = found ++ scanNames rest ∧ ∀ entry ∈ found, Mentions entry.1 text := by
  induction text with
  | nil => exact ⟨[], by rw [List.nil_append, scanNames, if_neg other, List.nil_append], List.forall_mem_nil _⟩
  | cons b text ih =>
      obtain ⟨found, same, spelled⟩ := ih
      have lifted : ∀ entry ∈ found, Mentions entry.1 (b :: text) := fun entry member => mentions_cons _ _ b (spelled entry member)
      rw [List.cons_append, scanNames, same]
      by_cases slash : b = 47
      · subst slash
        rw [if_pos rfl, take_while_line text rest eol ends]
        exact ⟨_ :: found, rfl, List.forall_mem_cons.mpr ⟨mentions_head text, lifted⟩⟩
      · rw [if_neg slash]
        exact ⟨found, rfl, lifted⟩

theorem scan_gap (rest : List UInt8) : ∃ found, scanNames (gapOctets gap ++ rest) = found ++ scanNames rest ∧
      ∀ entry ∈ found, ∃ piece ∈ gap, Mentions entry.1 piece.text := by
  induction gap with
  | nil => exact ⟨[], rfl, List.forall_mem_nil _⟩
  | cons piece gap ih =>
      obtain ⟨found, same, spelled⟩ := ih
      have lifted : ∀ entry ∈ found, ∃ other ∈ piece :: gap, Mentions entry.1 other.text := by
        intro entry member
        obtain ⟨other, inside, mentions⟩ := spelled entry member
        exact ⟨other, List.mem_cons_of_mem _ inside, mentions⟩
      rw [gapOctets, List.flatMap_cons, List.append_assoc, ← gapOctets]
      cases piece with
      | white b blank =>
          have other : b ≠ 47 := by
            rintro rfl
            exact Bool.false_ne_true blank
          refine ⟨found, ?_, lifted⟩
          rw [Piece.octets, List.singleton_append, scanNames, if_neg other, same]
      | comment text eol inside ends =>
          have blank := eol_white eol ends
          obtain ⟨line, read, inLine⟩ := scan_line text (gapOctets gap ++ rest) eol (white_irregular eol blank) (by
            rintro rfl
            exact Bool.false_ne_true blank)
          refine ⟨line ++ found, ?_, ?_⟩
          · rw [Piece.octets, List.cons_append, List.append_assoc, List.singleton_append, scanNames, if_neg (by decide), read, same,
              List.append_assoc]
          · intro entry member
            rcases List.mem_append.mp member with here | later
            · exact ⟨_, List.mem_cons_self, inLine entry here⟩
            · exact lifted entry later

theorem unmentioned_values (dict : List UInt8) {gap : List Piece} {found : List (List UInt8 × List UInt8)}
    (spelled : ∀ entry ∈ found, ∃ piece ∈ gap, Mentions entry.1 piece.text) (unmentioned : Unmentioned key gap) :
    found.filterMap (entryValue dict key) = [] := by
  rw [List.filterMap_eq_nil_iff]
  intro entry member
  obtain ⟨piece, inside, mentions⟩ := spelled entry member
  refine if_neg fun same => ?_
  rw [same] at mentions
  exact unmentioned piece inside mentions

theorem unmentioned_append (front back : List Piece) (unmentioned : Unmentioned key (front ++ back)) :
    Unmentioned key front ∧ Unmentioned key back :=
  List.forall_mem_append.mp unmentioned

theorem scan_token (rest : List Item) (last : List Piece) (separated : Separated (item :: rest)) :
    (scanNames (item.octets ++ spell rest last)).filterMap (entryValue (front ++ (item.octets ++ spell rest last)) key) =
      (follower key item.token (rest.map Item.token)).toList ++
        (scanNames (spell rest last)).filterMap (entryValue (front ++ (item.octets ++ spell rest last)) key) := by
  have ends := spell_ends item rest last separated
  obtain ⟨gap, token, octets, spelled⟩ := item
  have value := value_name_spelled rest last (front ++ octets) (separated_tail _ rest separated)
  cases named : token.nameOf with
  | none =>
      rw [scan_free octets _ (token_free token octets spelled named), follower, named]
      rfl
  | some text =>
      cases spelled with
      | name other raw spelled =>
          obtain rfl := Option.some.inj named
          have regular := spelled_regular other raw spelled
          have position : (front ++ (47 :: raw ++ spell rest last)).length - (spell rest last).length = (front ++ 47 :: raw).length := by
            rw [← List.append_assoc, List.length_append, Nat.add_sub_cancel]
          rw [List.append_assoc] at value
          rw [List.cons_append, scan_name raw _ regular (ends rfl), List.filterMap_cons, entryValue, ← List.cons_append, position, value,
            (decode_name_iff other raw regular).mpr spelled, follower, Token.nameOf]
          by_cases same : other = key
          · rw [if_pos same, if_pos (congrArg some same)]
            cases headName (rest.map Item.token) with
            | none => rfl
            | some name => rfl
          · rw [if_neg same, if_neg fun equal => same (Option.some.inj equal)]
            rfl
      | word first more regular => cases named
      | string first more opens plain => cases named
      | openArray => cases named
      | closeArray => cases named
      | openDict => cases named
      | closeDict => cases named

theorem scan_spelled (last : List Piece) (items : List Item) : ∀ (front : List UInt8), Separated items →
    (followers key (items.map Item.token)).Sublist
        ((scanNames (spell items last)).filterMap (entryValue (front ++ spell items last) key)) ∧
      (Unmentioned key (pieces items last) →
        (scanNames (spell items last)).filterMap (entryValue (front ++ spell items last) key) =
          followers key (items.map Item.token)) := by
  induction items with
  | nil =>
      intro front _
      obtain ⟨found, same, spelled⟩ := scan_gap last []
      rw [List.append_nil, scanNames, List.append_nil] at same
      rw [spell, same]
      exact ⟨List.nil_sublist _, fun unmentioned => unmentioned_values key _ spelled unmentioned⟩
  | cons item rest ih =>
      intro front separated
      obtain ⟨found, same, spelled⟩ := scan_gap item.gap (item.octets ++ spell rest last)
      have token := scan_token key (front ++ gapOctets item.gap) item rest last separated
      obtain ⟨sub, equal⟩ := ih (front ++ gapOctets item.gap ++ item.octets) (separated_tail item rest separated)
      rw [List.append_assoc, List.append_assoc] at sub equal
      rw [List.append_assoc] at token
      rw [spell, same, List.filterMap_append, token, List.map_cons, followers]
      refine ⟨(sub.append_left _).trans (List.sublist_append_right _ _), fun unmentioned => ?_⟩
      rw [pieces, List.flatMap_cons, List.append_assoc, ← pieces] at unmentioned
      have apart := unmentioned_append key item.gap _ unmentioned
      rw [unmentioned_values key _ spelled apart.1, equal apart.2, List.nil_append]

-- The tokens a value that lists names has, and what may follow it.
inductive NameValue : List Token → List (List UInt8) → List UInt8 → Prop
  | single (name back : List UInt8) (ends : Ends isRegular back) : NameValue [.name name] [name] back
  | array (names : List (List UInt8)) (back : List UInt8) : NameValue (.openArray :: (names.map .name ++ [.closeArray])) names back

theorem spell_cons (rest : List Item) (back : List UInt8) :
    spell (item :: rest) [] ++ back = gapOctets item.gap ++ (item.octets ++ (spell rest [] ++ back)) := by
  rw [spell, List.append_assoc, List.append_assoc]

theorem item_ends (rest : List UInt8) (other : item.token.isWord = false) :
    Ends isRegular (gapOctets item.gap ++ (item.octets ++ rest)) := by
  by_cases closed : item.gap = []
  · rw [closed]
    exact token_ends item.token item.octets rest item.spelled other
  · exact gap_ends item.gap _ closed

theorem name_spelled {name octets : List UInt8} (spelled : SpelledToken (.name name) octets) :
    ∃ raw, octets = 47 :: raw ∧ SpelledName name raw := by
  cases spelled with
  | name text raw spelled => exact ⟨raw, rfl, spelled⟩

theorem close_array_spelled (spelled : SpelledToken .closeArray octets) : octets = [93] := by
  cases spelled with
  | closeArray => rfl

theorem open_array_spelled (spelled : SpelledToken .openArray octets) : octets = [91] := by
  cases spelled with
  | openArray => rfl

theorem name_at_spelled {rest : List UInt8} (gap : List Piece) {name : List UInt8} (spelled : SpelledName name raw)
    (ends : Ends isRegular rest) :
    nameAt (front ++ (gapOctets gap ++ (47 :: raw ++ rest))) (front ++ gapOctets gap).length =
      some (name, (front ++ (gapOctets gap ++ 47 :: raw)).length) := by
  have regular := spelled_regular name raw spelled
  have read := name_at_there (front ++ gapOctets gap) regular ends
  have stop : (front ++ gapOctets gap).length + 1 + raw.length = (front ++ (gapOctets gap ++ 47 :: raw)).length := by
    simp only [List.length_append, List.length_cons]
    omega
  rw [List.append_assoc, (decode_name_iff name raw regular).mpr spelled, stop] at read
  exact read

theorem array_names_spelled (names : List (List UInt8)) (back : List UInt8) :
    ∀ (items : List Item) (front : List UInt8) (out : List (List UInt8)) (fuel : Nat),
      items.map Item.token = names.map .name ++ [.closeArray] → items.length ≤ fuel →
        arrayNames (front ++ (spell items [] ++ back)) fuel front.length out = some (out ++ names) := by
  induction names with
  | nil =>
      intro items front out fuel tokens enough
      obtain ⟨item, rest, rfl, same, _⟩ := List.map_eq_cons_iff.mp tokens
      obtain ⟨gap, token, octets, spelled⟩ := item
      cases fuel with
      | zero => exact absurd enough (Nat.not_succ_le_zero _)
      | succ fuel =>
          have solid := token_solid token octets (spell rest [] ++ back) spelled
          have there := byte_there (front ++ gapOctets gap) (octets ++ (spell rest [] ++ back))
          subst same
          obtain rfl := close_array_spelled octets spelled
          rw [List.append_assoc] at there
          rw [spell_cons, arrayNames, skip_white_and_comments_gap front _ gap solid, there]
          exact (if_pos rfl).trans (congrArg some (List.append_nil out).symm)
  | cons name names ih =>
      intro items front out fuel tokens enough
      rw [List.map_cons, List.cons_append] at tokens
      obtain ⟨item, rest, rfl, same, others⟩ := List.map_eq_cons_iff.mp tokens
      obtain ⟨gap, token, octets, spelled⟩ := item
      cases fuel with
      | zero => exact absurd enough (Nat.not_succ_le_zero _)
      | succ fuel =>
          have solid := token_solid token octets (spell rest [] ++ back) spelled
          have there := byte_there (front ++ gapOctets gap) (octets ++ (spell rest [] ++ back))
          subst same
          obtain ⟨raw, rfl, spelledName⟩ := name_spelled spelled
          have ends : Ends isRegular (spell rest [] ++ back) := by
            cases rest with
            | nil => exact absurd others.symm (List.append_ne_nil_of_right_ne_nil _ (List.cons_ne_nil _ _))
            | cons next rest =>
                rw [spell_cons]
                refine item_ends next _ ?_
                cases names with
                | nil => rw [(List.cons.inj others).1]; rfl
                | cons other names => rw [(List.cons.inj others).1]; rfl
          have read := name_at_spelled front raw gap spelledName ends
          have next := ih rest (front ++ (gapOctets gap ++ 47 :: raw)) (out ++ [name]) fuel others (Nat.le_of_succ_le_succ enough)
          rw [List.append_assoc, List.append_assoc] at next
          rw [List.append_assoc] at there
          rw [spell_cons, arrayNames, skip_white_and_comments_gap front _ gap solid, there]
          dsimp only [List.cons_append, List.head?_cons]
          rw [if_neg (by decide), if_pos rfl, ← List.cons_append, read]
          exact next.trans (by rw [List.append_assoc, List.singleton_append])

theorem items_length_le : items.length ≤ (spell items []).length := by
  induction items with
  | nil => exact Nat.zero_le _
  | cons item rest ih =>
      obtain ⟨first, more, same, _⟩ := token_starts item.token item.octets item.spelled
      rw [spell, List.length_append, List.length_append, same, List.length_cons, List.length_cons]
      omega

theorem listed_spelled (names : List (List UInt8)) (front back : List UInt8)
    (value : NameValue (items.map Item.token) names back) : listed (front ++ (spell items [] ++ back)) front.length = some names := by
  generalize shape : items.map Item.token = tokens at value
  cases value with
  | single name back ends =>
      obtain ⟨item, rest, rfl, same, others⟩ := List.map_eq_cons_iff.mp shape
      obtain rfl := List.map_eq_nil_iff.mp others
      obtain ⟨gap, token, octets, spelled⟩ := item
      have solid := token_solid token octets back spelled
      have there := byte_there (front ++ gapOctets gap) (octets ++ back)
      subst same
      obtain ⟨raw, rfl, spelledName⟩ := name_spelled spelled
      have read := name_at_spelled front raw gap spelledName ends
      rw [List.append_assoc] at there
      have nothing : spell [] [] ++ back = back := rfl
      rw [spell_cons, nothing, listed, skip_white_and_comments_gap front _ gap solid, there]
      dsimp only [List.cons_append, List.head?_cons]
      rw [Option.bind_some, if_pos rfl, ← List.cons_append, read, Option.map_some]
  | array names back =>
      obtain ⟨item, rest, rfl, same, others⟩ := List.map_eq_cons_iff.mp shape
      have few := items_length_le rest
      obtain ⟨gap, token, octets, spelled⟩ := item
      have solid := token_solid token octets (spell rest [] ++ back) spelled
      have there := byte_there (front ++ gapOctets gap) (octets ++ (spell rest [] ++ back))
      subst same
      obtain rfl := open_array_spelled octets spelled
      have read := array_names_spelled names back rest (front ++ (gapOctets gap ++ [91])) []
        (front ++ (gapOctets gap ++ ([91] ++ (spell rest [] ++ back)))).length others (by
          simp only [List.length_append]
          omega)
      have start : (front ++ gapOctets gap).length + 1 = (front ++ (gapOctets gap ++ [91])).length := by
        simp only [List.length_append, List.length_singleton]
        omega
      rw [List.append_assoc, List.append_assoc] at read
      rw [List.append_assoc] at there
      rw [spell_cons, listed, skip_white_and_comments_gap front _ gap solid, there]
      dsimp only [List.cons_append, List.head?_cons, List.nil_append]
      rw [Option.bind_some, if_neg (by decide), if_pos rfl, start]
      exact read

def IsDictionary (entries : Entries) (tokens : List Token) : Prop :=
  tokens = entries.tokens ∨ tokens = .openDict :: (entries.tokens ++ [.closeDict])

theorem dictionary_named (entries : Entries) (tokens : List Token) (dictionary : IsDictionary entries tokens) :
    (entries.named key).Sublist (followers key tokens) ∧ (key ∉ entries.valueNames → followers key tokens = entries.named key) := by
  rcases dictionary with rfl | rfl
  · have sub := entries_named key entries []
    have equal := entries_followers key entries []
    simp only [followers, List.append_nil] at sub equal
    exact ⟨sub, equal⟩
  · have sub := entries_named key entries [.closeDict]
    have equal := entries_followers key entries [.closeDict]
    have nothing : followers key [.closeDict] = [] := rfl
    rw [nothing, List.append_nil] at sub equal
    exact ⟨sub, equal⟩

-- No spelling hides an entry. What else is read are names that are the key without being an entry's, or that a comment spells.
theorem dict_names_name_list_spelled :
    (∀ (entries : Entries) (items : List Item) (last : List Piece) (key : List UInt8),
      IsDictionary entries (items.map Item.token) → Separated items →
        (entries.named key).Sublist (dictNames (spell items last) key) ∧
          (key ∉ entries.valueNames → Unmentioned key (pieces items last) →
            dictNames (spell items last) key = entries.named key)) ∧
    (∀ (items : List Item) (names : List (List UInt8)) (front back : List UInt8), NameValue (items.map Item.token) names back →
      nameList (front ++ (spell items [] ++ back)) front.length =
        if names = [] ∨ [] ∈ names then none else some (names.map Rar.fromUtf8Lossy)) := by
  constructor
  · intro entries items last key dictionary separated
    obtain ⟨sub, equal⟩ := scan_spelled key last items [] separated
    obtain ⟨namedSub, namedEqual⟩ := dictionary_named key entries _ dictionary
    rw [List.nil_append] at sub equal
    rw [dict_names_eq]
    exact ⟨namedSub.trans sub, fun absent unmentioned => (equal unmentioned).trans (namedEqual absent)⟩
  · intro items names front back value
    rw [nameList, listed_spelled items names front back value, Option.bind_some]

def nameItem (gap : List Piece) (raw : List UInt8) (regular : ∀ b ∈ raw, isRegular b = true) : Item :=
  ⟨gap, .name (unescape raw), 47 :: raw, .name _ raw (spelled_unescape raw regular)⟩

theorem all_regular (plain : raw.all isRegular = true) : ∀ b ∈ raw, isRegular b = true :=
  List.all_eq_true.mp plain

def escapedItems : List Item :=
  [nameItem [] [35, 53, 52] (all_regular _ rfl),
    nameItem [.comment [65] 10 (List.forall_mem_singleton.mpr ⟨by decide, by decide⟩) (Or.inl rfl), .white 32 rfl] [83] (all_regular _ rfl)]

def escapedEntries : Entries := .cons [84] (.name [83]) .nil

theorem dict_names_name_list_spelled_escaped :
    ((escapedEntries.named [84]).Sublist (dictNames (spell escapedItems []) [84]) ∧
      ([84] ∉ escapedEntries.valueNames → Unmentioned [84] (pieces escapedItems []) →
        dictNames (spell escapedItems []) [84] = escapedEntries.named [84])) ∧
    nameList ([32] ++ (spell [nameItem [] [35, 53, 52] (all_regular _ rfl)] [] ++ [62])) [32].length =
      some [Rar.fromUtf8Lossy [84]] := by
  have spelled : (nameItem [] [35, 53, 52] (all_regular _ rfl)).token = .name [84] := rfl
  have ends : Ends isRegular [62] := by
    intro b first
    obtain rfl := Option.some.inj first
    rfl
  refine ⟨dict_names_name_list_spelled.1 escapedEntries escapedItems [] [84] (Or.inl rfl) ⟨(fun _ other => by cases other), trivial⟩, ?_⟩
  exact dict_names_name_list_spelled.2 [nameItem [] [35, 53, 52] (all_regular _ rfl)] [[84]] [32] [62]
    (by rw [List.map_cons, spelled]; exact .single [84] [62] ends)

def shadowingItems : List Item :=
  [nameItem [] [65] (all_regular _ rfl), nameItem [] [84] (all_regular _ rfl), nameItem [] [66] (all_regular _ rfl),
    nameItem [] [83] (all_regular _ rfl)]

theorem name_value_reads_as_key :
    ¬ ∀ (entries : Entries) (items : List Item) (last : List Piece) (key : List UInt8),
      IsDictionary entries (items.map Item.token) → Separated items →
        dictNames (spell items last) key = entries.named key := by
  intro all
  have read := all (.cons [65] (.name [84]) (.cons [66] (.name [83]) .nil)) shadowingItems [] [84] (Or.inl rfl)
    ⟨(fun _ other => by cases other), (fun _ other => by cases other), (fun _ other => by cases other), trivial⟩
  have found : dictNames (spell shadowingItems []) [84] = [[66]] := by decide
  rw [found] at read
  cases read

end Filefacts.Pdf
