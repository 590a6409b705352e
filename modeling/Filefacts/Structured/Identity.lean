import Filefacts.Structured.Entries
import Mathlib.Data.List.TakeWhile

set_option autoImplicit false

namespace Filefacts.Structured

open Filefacts.Output (Text)

inductive Plain where
  | null
  | bool (value : Bool)
  | int (value : Int)
  | float (bits : Option Nat)
  deriving DecidableEq

-- A node with every NaN one value and the other floats their bits, the entries of a mapping being its keys and values in turn.
inductive Shape where
  | plain (value : Plain)
  | string (value : Text)
  | sequence (items : List Shape)
  | mapping (entries : List Shape)
  | tagged (tag : Text) (node : Shape)

def nul : Char := Char.ofNat 0

def openBrace : Char := Char.ofNat 123

def closeBrace : Char := Char.ofNat 125

def closers : List Char := [']', closeBrace]

section Shapes

variable {F : Type} (std : Std F)

mutual

def Yaml.shape : Yaml F → Shape
  | .null => .plain .null
  | .bool b => .plain (.bool b)
  | .int i => .plain (.int i)
  | .float f => .plain (.float (if std.isNan f then none else some (std.bits f)))
  | .string s => .string s
  | .sequence items => .sequence (itemShapes items)
  | .mapping entries => .mapping (entryShapes entries)
  | .tagged tag node => .tagged tag node.shape

def itemShapes : List (Yaml F) → List Shape
  | [] => []
  | item :: rest => item.shape :: itemShapes rest

def entryShapes : List (Yaml F × Yaml F) → List Shape
  | [] => []
  | entry :: rest => entryShape entry ++ entryShapes rest

def entryShape : Yaml F × Yaml F → List Shape
  | (key, value) => [key.shape, value.shape]

end

end Shapes

def Plain.text : Plain → Text
  | .null => ['~']
  | .bool b => 'b' :: if b then "true".toList else "false".toList
  | .int i => 'i' :: decimalInt i
  | .float none => "fnan".toList
  | .float (some bits) => 'f' :: decimal bits

mutual

def Shape.text : Shape → Text
  | .plain value => value.text
  | .string s => 's' :: s
  | .sequence items => '[' :: (joined items ++ [']'])
  | .mapping entries => openBrace :: (joined entries ++ [closeBrace])
  | .tagged tag node => '!' :: (tag ++ nul :: node.text)

def joined : List Shape → Text
  | [] => []
  | item :: rest => item.text ++ behind rest

def behind : List Shape → Text
  | [] => []
  | item :: rest => nul :: (item.text ++ behind rest)

end

-- What can follow a node inside a collection.
def stops : List Char := nul :: closers

def Longer (short long : Text) (after : List Char) : Prop := ∃ c ∈ after, ∃ rest, long = short ++ c :: rest

-- The first difference between two nodes is that one string, or one tag, goes on where the other's end is written.
mutual

def Shape.Swallows : Shape → Shape → Prop
  | .string s, .string t => Longer s t stops ∨ Longer t s stops
  | .sequence items, .sequence others => AnySwallows items others
  | .mapping entries, .mapping others => AnySwallows entries others
  | .tagged tag node, .tagged other node' =>
      Longer tag other [nul] ∨ Longer other tag [nul] ∨ (tag = other ∧ node.Swallows node')
  | _, _ => False

def AnySwallows : List Shape → List Shape → Prop
  | item :: rest, other :: others => item.Swallows other ∨ (item = other ∧ AnySwallows rest others)
  | _, _ => False

end

-- Outside of collections nothing is written behind a string.
def Shape.Mistaken : Shape → Shape → Prop
  | .string _, .string _ => False
  | .tagged tag node, .tagged other node' =>
      Longer tag other [nul] ∨ Longer other tag [nul] ∨ (tag = other ∧ node.Mistaken node')
  | one, other => one.Swallows other

section Written

variable {F : Type} (std : Std F)

theorem nul_joined_cons (first : Text) (rest : List Text) : nulJoined (first :: rest) = first ++ rest.flatMap (nul :: ·) := by
  induction rest generalizing first with
  | nil => simp [nulJoined]
  | cons second rest ih =>
      have shorter := ih second
      rw [nulJoined, List.intercalate_cons_cons, ← nulJoined, shorter, List.flatMap_cons, List.append_assoc]
      rfl

mutual

theorem identity_text : ∀ node : Yaml F, keyIdentity std node = (node.shape std).text
  | .null => by rw [keyIdentity, Yaml.shape, Shape.text, Plain.text]
  | .bool b => by rw [keyIdentity, Yaml.shape, Shape.text, Plain.text]
  | .int i => by rw [keyIdentity, Yaml.shape, Shape.text, Plain.text]
  | .float f => by
      rw [keyIdentity, Yaml.shape, Shape.text]
      split <;> rfl
  | .string s => by rw [keyIdentity, Yaml.shape, Shape.text]
  | .sequence items => by
      rw [keyIdentity, Yaml.shape, Shape.text, item_texts items]
      rfl
  | .mapping entries => by
      rw [keyIdentity, Yaml.shape, Shape.text, entry_texts entries]
      rfl
  | .tagged tag node => by
      rw [keyIdentity, Yaml.shape, Shape.text, identity_text node]
      simp [nul]

theorem items_behind : ∀ items : List (Yaml F), (itemIdentities std items).flatMap (nul :: ·) = behind (itemShapes std items)
  | [] => by simp [itemIdentities, itemShapes, behind]
  | item :: rest => by simp [itemIdentities, itemShapes, behind, identity_text item, items_behind rest]

theorem item_texts : ∀ items : List (Yaml F), nulJoined (itemIdentities std items) = joined (itemShapes std items)
  | [] => by simp [itemIdentities, itemShapes, joined, nulJoined]
  | item :: rest => by
      rw [itemIdentities, itemShapes, joined, nul_joined_cons, identity_text item, items_behind rest]

theorem entries_behind : ∀ entries : List (Yaml F × Yaml F),
    (entryIdentities std entries).flatMap (nul :: ·) = behind (entryShapes std entries)
  | [] => by simp [entryIdentities, entryShapes, behind]
  | (key, value) :: rest => by
      have later := entries_behind rest
      simpa [entryIdentities, entryIdentity, entryShapes, entryShape, behind, identity_text key, identity_text value, nul] using later

theorem entry_texts : ∀ entries : List (Yaml F × Yaml F), nulJoined (entryIdentities std entries) = joined (entryShapes std entries)
  | [] => by simp [entryIdentities, entryShapes, joined, nulJoined]
  | (key, value) :: rest => by
      rw [entryIdentities, entryShapes, nul_joined_cons, entries_behind rest]
      simp [entryIdentity, entryShape, joined, behind, identity_text key, identity_text value, nul]

end

end Written

def isPlain (c : Char) : Bool := c.isAlphanum || c = '-' || c = '~'

theorem decimal_plain (number : Nat) : ∀ c ∈ decimal number, c.isDigit = true :=
  fun _ member => Nat.isDigit_of_mem_toDigits (by decide) (by decide) member

theorem decimal_unique (one other : Nat) (same : decimal one = decimal other) : one = other := by
  rw [← Nat.ofDigitChars_ten_toDigits (n := one), ← Nat.ofDigitChars_ten_toDigits (n := other)]
  exact congrArg (Nat.ofDigitChars 10 · 0) same

theorem digit_plain (c : Char) (digit : c.isDigit = true) : isPlain c = true := by
  rw [isPlain, Char.isAlphanum, digit, Bool.or_true]
  rfl

theorem plain_chars (value : Plain) : ∀ c ∈ value.text, isPlain c = true := by
  have digits : ∀ number, ∀ c ∈ decimal number, isPlain c = true := fun number c member => digit_plain c (decimal_plain number c member)
  cases value with
  | null => exact List.forall_mem_singleton.mpr rfl
  | bool b => cases b <;> exact List.all_eq_true.mp rfl
  | int i =>
      refine List.forall_mem_cons.mpr ⟨rfl, ?_⟩
      rw [decimalInt]
      split
      · exact List.forall_mem_cons.mpr ⟨rfl, digits _⟩
      · exact digits _
  | float bits =>
      cases bits with
      | none => exact List.all_eq_true.mp rfl
      | some bits => exact List.forall_mem_cons.mpr ⟨rfl, digits bits⟩

theorem decimal_head (number : Nat) (c : Char) (rest : Text) (shape : decimal number = c :: rest) : c.isDigit = true :=
  decimal_plain number c (by rw [shape]; exact List.mem_cons_self)

theorem decimal_int_unique (one other : Int) (same : decimalInt one = decimalInt other) : one = other := by
  have minus : ¬ '-'.isDigit = true := by decide
  rw [decimalInt, decimalInt] at same
  split at same <;> split at same
  · have alike := decimal_unique _ _ (List.cons.inj same).2
    omega
  · exact absurd (decimal_head _ _ _ same.symm) minus
  · exact absurd (decimal_head _ _ _ same) minus
  · have alike := decimal_unique _ _ same
    omega

theorem plain_text_unique (one other : Plain) (same : one.text = other.text) : one = other := by
  have nan : ¬ 'n'.isDigit = true := by decide
  cases one with
  | null => cases other <;> first | rfl | cases (List.cons.inj same).1 | (rename_i bits; cases bits <;> cases (List.cons.inj same).1)
  | bool b =>
      cases other with
      | bool c => revert same; revert b c; decide
      | float bits => cases bits <;> cases (List.cons.inj same).1
      | _ => cases (List.cons.inj same).1
  | int i =>
      cases other with
      | int j => rw [decimal_int_unique i j (List.cons.inj same).2]
      | float bits => cases bits <;> cases (List.cons.inj same).1
      | _ => cases (List.cons.inj same).1
  | float bits =>
      cases other with
      | float others =>
          cases bits with
          | none =>
              cases others with
              | none => rfl
              | some number => exact absurd (decimal_head number _ _ (List.cons.inj same).2.symm) nan
          | some number =>
              cases others with
              | none => exact absurd (decimal_head number _ _ (List.cons.inj same).2) nan
              | some number' => rw [decimal_unique number number' (List.cons.inj same).2]
      | _ => cases bits <;> cases (List.cons.inj same).1

def Tail (text : Text) : Prop := ∀ c ∈ text.head?, c ∈ stops

theorem tail_cons (c : Char) (text : Text) (stop : c ∈ stops) : Tail (c :: text) := fun _ first => Option.some.inj first ▸ stop

theorem plain_unique (one other : Plain) (u v : Text) (left : Tail u) (right : Tail v) (same : one.text ++ u = other.text ++ v) :
    one = other ∧ u = v := by
  have front : ∀ (value : Plain) (u : Text), Tail u → (value.text ++ u).takeWhile isPlain = value.text := by
    intro value u tail
    rw [List.takeWhile_append_of_pos (plain_chars value)]
    cases u with
    | nil => simp
    | cons c u =>
        have closed : stops.all (fun c => !isPlain c) = true := by decide
        have solid : ¬ isPlain c = true := by simpa using List.all_eq_true.mp closed c (tail c rfl)
        rw [List.takeWhile_cons_of_neg solid, List.append_nil]
  have texts : one.text = other.text := by rw [← front one u left, same, front other v right]
  exact ⟨plain_text_unique one other texts, List.append_cancel_left (texts ▸ same)⟩

theorem text_unique (s t u v : Text) (after : List Char) (apart : ¬ Longer s t after) (apart' : ¬ Longer t s after)
    (left : ∀ c ∈ u.head?, c ∈ after) (right : ∀ c ∈ v.head?, c ∈ after) (same : s ++ u = t ++ v) : s = t ∧ u = v := by
  rcases List.append_eq_append_iff.mp same with ⟨between, rfl, rfl⟩ | ⟨between, rfl, rfl⟩
  · cases between with
    | nil => exact ⟨(List.append_nil s).symm, rfl⟩
    | cons c between => exact absurd ⟨c, left c rfl, between, rfl⟩ apart
  · cases between with
    | nil => exact ⟨List.append_nil t, rfl⟩
    | cons c between => exact absurd ⟨c, right c rfl, between, rfl⟩ apart'

theorem tag_unique (s t u v : Text) (apart : ¬ Longer s t [nul]) (apart' : ¬ Longer t s [nul]) (same : s ++ nul :: u = t ++ nul :: v) :
    s = t ∧ u = v := by
  obtain ⟨tags, rest⟩ := text_unique s t (nul :: u) (nul :: v) [nul] apart apart' (by simp) (by simp) same
  exact ⟨tags, (List.cons.inj rest).2⟩

def Shape.kind : Shape → Nat
  | .plain _ => 0
  | .string _ => 1
  | .sequence _ => 2
  | .mapping _ => 3
  | .tagged _ _ => 4

def kindOf (c : Char) : Nat := if c = 's' then 1 else if c = '[' then 2 else if c = openBrace then 3 else if c = '!' then 4 else 0

theorem text_head (shape : Shape) : ∃ c rest, shape.text = c :: rest ∧ shape.kind = kindOf c ∧ c ∉ closers := by
  cases shape with
  | plain value =>
      rcases value with _ | b | i | _ | bits
      · exact ⟨'~', _, by rw [Shape.text, Plain.text], rfl, by decide⟩
      · exact ⟨'b', _, by rw [Shape.text, Plain.text], rfl, by decide⟩
      · exact ⟨'i', _, by rw [Shape.text, Plain.text], rfl, by decide⟩
      · exact ⟨'f', "nan".toList, by rw [Shape.text, Plain.text]; rfl, rfl, by decide⟩
      · exact ⟨'f', _, by rw [Shape.text, Plain.text], rfl, by decide⟩
  | string s => exact ⟨'s', s, by rw [Shape.text], rfl, by decide⟩
  | sequence items => exact ⟨'[', _, by rw [Shape.text], rfl, by decide⟩
  | mapping entries => exact ⟨openBrace, _, by rw [Shape.text], rfl, by decide⟩
  | tagged tag node => exact ⟨'!', _, by rw [Shape.text], rfl, by decide⟩

theorem same_kind (one other : Shape) (u v : Text) (same : one.text ++ u = other.text ++ v) : one.kind = other.kind := by
  obtain ⟨c, front, text, kind, _⟩ := text_head one
  obtain ⟨d, back, text', kind', _⟩ := text_head other
  rw [text, text', List.cons_append, List.cons_append] at same
  rw [kind, kind', (List.cons.inj same).1]

theorem tail_behind (items : List Shape) (close : Char) (text : Text) (closing : close ∈ closers) :
    Tail (behind items ++ close :: text) := by
  cases items with
  | nil =>
      rw [behind]
      exact tail_cons close text (List.mem_cons_of_mem _ closing)
  | cons item rest =>
      rw [behind]
      exact tail_cons nul _ List.mem_cons_self

-- A node and what is behind it are read from the text.
mutual

theorem inner_unique : ∀ (one other : Shape) (u v : Text), ¬ one.Swallows other → Tail u → Tail v →
    one.text ++ u = other.text ++ v → one = other ∧ u = v
  | .plain a, other, u, v, _, left, right, same => by
      cases other with
      | plain b =>
          simp only [Shape.text] at same
          obtain ⟨rfl, rest⟩ := plain_unique a b u v left right same
          exact ⟨rfl, rest⟩
      | _ => cases same_kind _ _ u v same
  | .string s, other, u, v, apart, left, right, same => by
      cases other with
      | string t =>
          simp only [Shape.Swallows, not_or] at apart
          simp only [Shape.text, List.cons_append] at same
          obtain ⟨rfl, rest⟩ := text_unique s t u v stops apart.1 apart.2 left right (List.cons.inj same).2
          exact ⟨rfl, rest⟩
      | _ => cases same_kind _ _ u v same
  | .sequence items, other, u, v, apart, left, right, same => by
      cases other with
      | sequence others =>
          simp only [Shape.Swallows] at apart
          simp only [Shape.text, List.cons_append, List.append_assoc, List.nil_append] at same
          obtain ⟨rfl, rest⟩ := joined_unique items others ']' u v apart (by decide) (List.cons.inj same).2
          exact ⟨rfl, rest⟩
      | _ => cases same_kind _ _ u v same
  | .mapping entries, other, u, v, apart, left, right, same => by
      cases other with
      | mapping others =>
          simp only [Shape.Swallows] at apart
          simp only [Shape.text, List.cons_append, List.append_assoc, List.nil_append] at same
          obtain ⟨rfl, rest⟩ := joined_unique entries others closeBrace u v apart (by decide) (List.cons.inj same).2
          exact ⟨rfl, rest⟩
      | _ => cases same_kind _ _ u v same
  | .tagged tag node, other, u, v, apart, left, right, same => by
      cases other with
      | tagged tag' node' =>
          simp only [Shape.Swallows, not_or, not_and] at apart
          simp only [Shape.text, List.cons_append, List.append_assoc] at same
          obtain ⟨rfl, nodes⟩ := tag_unique tag tag' _ _ apart.1 apart.2.1 (List.cons.inj same).2
          obtain ⟨rfl, rest⟩ := inner_unique node node' u v (apart.2.2 rfl) left right nodes
          exact ⟨rfl, rest⟩
      | _ => cases same_kind _ _ u v same

theorem joined_unique : ∀ (items others : List Shape) (close : Char) (u v : Text), ¬ AnySwallows items others →
    close ∈ closers → joined items ++ close :: u = joined others ++ close :: v → items = others ∧ u = v
  | [], others, close, u, v, _, closing, same => by
      cases others with
      | nil => exact ⟨rfl, (List.cons.inj (by simpa only [joined, List.nil_append] using same)).2⟩
      | cons item rest =>
          obtain ⟨c, text, shape, _, apart⟩ := text_head item
          simp only [joined, shape, List.nil_append, List.cons_append] at same
          exact absurd closing ((List.cons.inj same).1 ▸ apart)
  | item :: rest, others, close, u, v, apart, closing, same => by
      cases others with
      | nil =>
          obtain ⟨c, text, shape, _, apart⟩ := text_head item
          simp only [joined, shape, List.nil_append, List.cons_append] at same
          exact absurd closing ((List.cons.inj same).1 ▸ apart)
      | cons other others =>
          simp only [AnySwallows, not_or, not_and] at apart
          simp only [joined, List.append_assoc] at same
          obtain ⟨rfl, later⟩ := inner_unique item other _ _ apart.1 (tail_behind rest close u closing)
            (tail_behind others close v closing) same
          obtain ⟨rfl, rest⟩ := behind_unique rest others close u v (apart.2 rfl) closing later
          exact ⟨rfl, rest⟩

theorem behind_unique : ∀ (items others : List Shape) (close : Char) (u v : Text), ¬ AnySwallows items others →
    close ∈ closers → behind items ++ close :: u = behind others ++ close :: v → items = others ∧ u = v
  | [], others, close, u, v, _, closing, same => by
      cases others with
      | nil => exact ⟨rfl, (List.cons.inj (by simpa only [behind, List.nil_append] using same)).2⟩
      | cons item rest =>
          simp only [behind, List.nil_append, List.cons_append] at same
          exact absurd closing ((List.cons.inj same).1 ▸ by decide)
  | item :: rest, others, close, u, v, apart, closing, same => by
      cases others with
      | nil =>
          simp only [behind, List.nil_append, List.cons_append] at same
          exact absurd closing ((List.cons.inj same).1 ▸ by decide)
      | cons other others =>
          simp only [AnySwallows, not_or, not_and] at apart
          simp only [behind, List.cons_append, List.append_assoc] at same
          obtain ⟨rfl, later⟩ := inner_unique item other _ _ apart.1 (tail_behind rest close u closing)
            (tail_behind others close v closing) (List.cons.inj same).2
          obtain ⟨rfl, rest⟩ := behind_unique rest others close u v (apart.2 rfl) closing later
          exact ⟨rfl, rest⟩

end

theorem whole_unique {one other : Shape} (apart : ¬ one.Swallows other) (same : one.text = other.text) : one = other :=
  (inner_unique one other [] [] apart (fun _ first => nomatch first) (fun _ first => nomatch first) (congrArg (· ++ []) same)).1

theorem shape_unique : ∀ one other : Shape, ¬ one.Mistaken other → one.text = other.text → one = other
  | .string s, other, _, same => by
      cases other with
      | string t =>
          simp only [Shape.text] at same
          rw [(List.cons.inj same).2]
      | _ => cases same_kind _ _ [] [] (congrArg (· ++ []) same)
  | .tagged tag node, other, apart, same => by
      cases other with
      | tagged tag' node' =>
          simp only [Shape.Mistaken, not_or, not_and] at apart
          simp only [Shape.text] at same
          obtain ⟨rfl, nodes⟩ := tag_unique tag tag' _ _ apart.1 apart.2.1 (List.cons.inj same).2
          rw [shape_unique node node' (apart.2.2 rfl) nodes]
      | _ => cases same_kind _ _ [] [] (congrArg (· ++ []) same)
  | .plain _, other, apart, same => whole_unique apart same
  | .sequence _, other, apart, same => whole_unique apart same
  | .mapping _, other, apart, same => whole_unique apart same

section Keys

variable {F : Type} (std : Std F)

theorem identity_unique {one other : Yaml F} (apart : ¬ (one.shape std).Mistaken (other.shape std)) :
    keyIdentity std one = keyIdentity std other ↔ one.shape std = other.shape std := by
  rw [identity_text, identity_text]
  exact ⟨shape_unique _ _ apart, congrArg Shape.text⟩

-- A key is held to be a duplicate where an earlier one has its identity.
theorem key_identity_unique (key : Yaml F) (earlier : List (Yaml F))
    (apart : ∀ other ∈ earlier, ¬ (other.shape std).Mistaken (key.shape std)) :
    (∀ other ∈ earlier, keyIdentity std other = keyIdentity std key ↔ other.shape std = key.shape std) ∧
      (keyIdentity std key ∈ earlier.map (keyIdentity std) ↔ ∃ other ∈ earlier, other.shape std = key.shape std) := by
  have each := fun other listed => identity_unique std (apart other listed)
  refine ⟨each, ?_⟩
  rw [List.mem_map]
  exact exists_congr fun other => and_congr_right fun listed => each other listed

end Keys

-- A key [a] after a key [b, a].
theorem key_identity_unique_items :
    keyIdentity noFloats (.sequence [.string ['a']]) ∈ [Yaml.sequence [.string ['b'], .string ['a']]].map (keyIdentity noFloats) ↔
      ∃ other ∈ [Yaml.sequence [.string ['b'], .string ['a']]],
        other.shape noFloats = (Yaml.sequence [.string ['a']]).shape noFloats := by
  refine (key_identity_unique noFloats _ _ ?_).2
  intro other listed
  rw [List.mem_singleton.mp listed]
  simp [Yaml.shape, itemShapes, Shape.Mistaken, Shape.Swallows, AnySwallows, Longer]

-- A NUL in a string stands for the end of an item.
theorem joined_items_alike : ¬ ∀ one other : Yaml Unit,
    keyIdentity noFloats one = keyIdentity noFloats other ↔ one.shape noFloats = other.shape noFloats := by
  intro unique
  have same := (unique (.sequence [.string ['a', nul, 's', 'b']]) (.sequence [.string ['a'], .string ['b']])).mp rfl
  simp only [Yaml.shape, itemShapes, Shape.sequence.injEq, List.cons.injEq, Shape.string.injEq] at same
  cases same.1.2

end Filefacts.Structured
