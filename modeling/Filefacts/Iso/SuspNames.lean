import Filefacts.Iso.SuspChain

set_option autoImplicit false

namespace Filefacts.Iso

open Rar (Text fromUtf8Lossy utf8Len)
open Lossy (utf8 points Whole)

section Names

def pushPart (out : Text) (part : List UInt8) : Text := pushCapped out (fromUtf8Lossy part) maxAltNameLen

def namedBy (parts : List (List UInt8)) : Option Text := if parts = [] then none else some (parts.foldl pushPart [])

variable (parts : List (List UInt8))

theorem append_names : parts.foldl appendName none = namedBy parts := by
  have later : ∀ (parts : List (List UInt8)) (out : Text), parts.foldl appendName (some out) = some (parts.foldl pushPart out) := by
    intro parts
    induction parts with
    | nil => exact fun _ => rfl
    | cons part parts ih => exact fun out => ih (pushPart out part)
  cases parts with
  | nil => rfl
  | cons part parts => exact later parts (pushPart [] part)

theorem point_len_le (point : Nat) : utf8Len [point] ≤ 4 := by
  change (if point < 0x80 then 1 else if point < 0x800 then 2 else if point < 0x10000 then 3 else 4) + 0 ≤ 4
  split
  · omega
  · split
    · omega
    · split <;> omega

variable (room : Nat) (part : Text) (text : List Char)

theorem fitting_all (fits : utf8Len part ≤ room) : fitting room part = part := by
  induction part generalizing room with
  | nil => rfl
  | cons point part ih =>
      have split : utf8Len (point :: part) = utf8Len [point] + utf8Len part := Lossy.utf8_len_append [point] part
      rw [fitting, if_pos (by omega), ih _ (by omega)]

theorem fitting_cases : fitting room part = part ∨ room ≤ utf8Len (fitting room part) + 3 := by
  induction part generalizing room with
  | nil => exact .inl rfl
  | cons point part ih =>
      have most := point_len_le point
      rw [fitting]
      by_cases fits : utf8Len [point] ≤ room
      · rw [if_pos fits]
        have split : utf8Len (point :: fitting (room - utf8Len [point]) part) =
            utf8Len [point] + utf8Len (fitting (room - utf8Len [point]) part) := Lossy.utf8_len_append [point] _
        rcases ih (room - utf8Len [point]) with same | full
        · exact .inl (by rw [same])
        · exact .inr (by omega)
      · rw [if_neg fits]
        exact .inr (by omega)

theorem push_parts_whole (whole : ∀ part ∈ parts, Whole part) (out : Text)
    (fits : utf8Len out + parts.flatten.length ≤ maxAltNameLen) :
    parts.foldl pushPart out = out ++ fromUtf8Lossy parts.flatten := by
  induction parts generalizing out with
  | nil =>
      rw [List.flatten_nil, fromUtf8Lossy, List.append_nil]
      rfl
  | cons part parts ih =>
      obtain ⟨text, rfl⟩ := whole part List.mem_cons_self
      rw [List.flatten_cons, List.length_append, Lossy.utf8_length] at fits
      have pushed : pushPart out (utf8 text) = out ++ points text := by
        rw [pushPart, pushCapped, Lossy.lossy_whole, fitting_all]
        omega
      rw [List.foldl_cons, pushed, ih fun other member => whole other (List.mem_cons_of_mem _ member)]
      · rw [List.flatten_cons, Lossy.lossy_utf8, List.append_assoc]
      · rw [Lossy.utf8_len_append]
        omega

theorem push_parts_length (out : Text) : maxAltNameLen ≤ utf8Len (parts.foldl pushPart out) + 3 ∨
      utf8Len (parts.foldl pushPart out) = utf8Len out + (parts.map fun part => utf8Len (fromUtf8Lossy part)).sum := by
  have kept : ∀ (parts : List (List UInt8)) (out : Text), utf8Len out ≤ utf8Len (parts.foldl pushPart out) := by
    intro parts
    induction parts with
    | nil => exact fun out => Nat.le_refl _
    | cons part parts ih =>
        intro out
        have longer := ih (pushPart out part)
        have here : utf8Len (pushPart out part) = utf8Len out + _ := Lossy.utf8_len_append out _
        rw [List.foldl_cons]
        omega
  induction parts generalizing out with
  | nil => exact .inr rfl
  | cons part parts ih =>
      have here : utf8Len (pushPart out part) = utf8Len out + _ := Lossy.utf8_len_append out _
      rw [List.foldl_cons, List.map_cons, List.sum_cons]
      rcases fitting_cases (maxAltNameLen - utf8Len out) (fromUtf8Lossy part) with same | full
      · rw [same] at here
        rcases ih (pushPart out part) with capped | exact_
        · exact .inl capped
        · exact .inr (by omega)
      · have longer := kept parts (pushPart out part)
        exact .inl (by omega)

theorem parts_sum : parts.flatten.length ≤ (parts.map fun part => utf8Len (fromUtf8Lossy part)).sum := by
  induction parts with
  | nil => exact Nat.le_refl 0
  | cons part parts ih =>
      have here := Lossy.lossy_length part
      rw [List.flatten_cons, List.length_append, List.map_cons, List.sum_cons]
      omega

theorem parts_sum_continued (part : List UInt8) (member : part ∈ parts) (b : UInt8) (rest : List UInt8)
    (begins : part = b :: rest) (continues : Rar.continuation b = true) :
    parts.flatten.length < (parts.map fun part => utf8Len (fromUtf8Lossy part)).sum := by
  obtain ⟨front, back, rfl⟩ := List.append_of_mem member
  have here := Lossy.lossy_continued b rest continues
  have frontSum := parts_sum front
  have backSum := parts_sum back
  rw [← begins] at here
  rw [List.flatten_append, List.flatten_cons, List.length_append, List.length_append, List.map_append, List.map_cons, List.sum_append,
    List.sum_cons]
  omega

theorem named_whole (parts : List (List UInt8)) (some_ : parts ≠ []) (same : parts.flatten = utf8 text)
    (short : utf8Len (points text) < maxAltNameLen) (whole : ∀ part ∈ parts, Whole part) : namedBy parts = some (points text) := by
  have fits : utf8Len [] + parts.flatten.length ≤ maxAltNameLen := by
    rw [same, Lossy.utf8_length]
    change 0 + _ ≤ _
    omega
  rw [namedBy, if_neg some_, push_parts_whole parts whole [] fits, List.nil_append, same, Lossy.lossy_whole]

theorem named_cut (parts : List (List UInt8)) (same : parts.flatten = utf8 text)
    (roomy : utf8Len (points text) + 3 < maxAltNameLen) (named : namedBy parts = some (points text)) : ∀ part ∈ parts, Whole part := by
  rcases Lossy.parts_cases text parts same with whole | ⟨part, member, b, rest, begins, continues⟩
  · exact whole
  · have longer := parts_sum_continued parts part member b rest begins continues
    have name : parts.foldl pushPart [] = points text := by
      rw [namedBy, if_neg (List.ne_nil_of_mem member)] at named
      exact Option.some.inj named
    have length := push_parts_length parts []
    rw [name] at length
    rw [same, Lossy.utf8_length] at longer
    omega

end Names

section Links

def pushRecord (out : Text) (record : Record) : Text := pushComponent record.flags record.octets out

def linkedBy (entries : List (List Record)) : Option Text := if entries = [] then none else some (decodeRecords entries.flatten [])

theorem decode_records_append (front back : List Record) (out : Text) :
    decodeRecords (front ++ back) out = decodeRecords back (decodeRecords front out) := by
  induction front generalizing out with
  | nil => rfl
  | cons record front ih =>
      rw [List.cons_append, decodeRecords, decodeRecords]
      by_cases room : utf8Len out < maxSymlinkLen
      · rw [if_pos room, if_pos room, ih]
      · rw [if_neg room, if_neg room]
        cases back with
        | nil => rfl
        | cons next back => rw [decodeRecords, if_neg room]

theorem append_links (entries : List (List Record)) : entries.foldl appendLink none = linkedBy entries := by
  have later : ∀ (entries : List (List Record)) (out : Text),
      entries.foldl appendLink (some out) = some (decodeRecords entries.flatten out) := by
    intro entries
    induction entries with
    | nil => exact fun _ => rfl
    | cons records entries ih =>
        intro out
        rw [List.foldl_cons, List.flatten_cons, decode_records_append]
        exact ih (decodeRecords records out)
  cases entries with
  | nil => rfl
  | cons records entries =>
      rw [List.foldl_cons, linkedBy, if_neg (List.cons_ne_nil _ _), List.flatten_cons, decode_records_append]
      exact later entries (decodeRecords records [])

variable (records : List Record) (out : Text) (pieces : List (List UInt8))

theorem decode_cases :
    decodeRecords records out = records.foldl pushRecord out ∨ maxSymlinkLen ≤ utf8Len (decodeRecords records out) := by
  induction records generalizing out with
  | nil => exact .inl rfl
  | cons record records ih =>
      rw [decodeRecords]
      by_cases room : utf8Len out < maxSymlinkLen
      · rw [if_pos room]
        exact ih _
      · rw [if_neg room]
        exact .inr (Nat.le_of_not_lt room)

theorem separated_length : utf8Len out ≤ utf8Len (separated out) := by
  unfold separated
  split
  · rw [Lossy.utf8_len_append]
    exact Nat.le_add_right _ _
  · exact Nat.le_refl _

variable (record : Record)

theorem push_record_length (below : record.flags &&& 0x08 = 0) (out : Text) :
    utf8Len out ≤ utf8Len (pushRecord out record) := by
  have longer := separated_length out
  have appended : ∀ text, utf8Len out ≤ utf8Len (separated out ++ text) := by
    intro text
    rw [Lossy.utf8_len_append]
    omega
  unfold pushRecord pushComponent
  rw [if_neg (by simp [below])]
  split
  · exact appended _
  · split <;> exact appended _

theorem push_records_length (below : ∀ record ∈ records, record.flags &&& 0x08 = 0) (out : Text) :
    utf8Len out ≤ utf8Len (records.foldl pushRecord out) := by
  induction records generalizing out with
  | nil => exact Nat.le_refl _
  | cons record records ih =>
      exact (push_record_length record (below record List.mem_cons_self) out).trans
        (ih (fun other member => below other (List.mem_cons_of_mem _ member)) _)

theorem decode_short (below : ∀ record ∈ records, record.flags &&& 0x08 = 0) (out : Text)
    (short : utf8Len (records.foldl pushRecord out) < maxSymlinkLen) : decodeRecords records out = records.foldl pushRecord out := by
  induction records generalizing out with
  | nil => rfl
  | cons record records ih =>
      have later := fun other member => below other (List.mem_cons_of_mem _ member)
      have longer := push_records_length (record :: records) below out
      rw [decodeRecords, if_pos (by omega)]
      exact ih later (pushRecord out record) short

-- A text that a slash goes behind before more comes.
def Open_ (out : Text) : Prop := out ≠ [] ∧ out.getLast? ≠ some 0x2F

theorem separated_open (opened : Open_ out) : separated out = out ++ [0x2F] := if_pos opened

theorem separated_closed : ¬ Open_ (separated out) := by
  unfold separated Open_
  split
  · simp
  · next closed => exact closed

theorem separated_twice : separated (separated out) = separated out := if_neg (separated_closed out)

theorem open_append (front back : Text) (opened : Open_ back) : Open_ (front ++ back) := by
  refine ⟨fun empty => opened.1 (List.append_eq_nil_iff.mp empty).2, ?_⟩
  rw [List.getLast?_append_of_ne_nil front opened.1]
  exact opened.2

theorem open_plain (text : Text) (nonempty : text ≠ []) (plain : 0x2F ∉ text) : Open_ text :=
  ⟨nonempty, fun slash => plain (List.mem_of_getLast? slash)⟩

def weight (out : Text) : Nat := utf8Len (separated out)

theorem weight_open {text : Text} (opened : Open_ text) : weight (separated out ++ text) = weight out + utf8Len text + 1 := by
  rw [weight, separated_open _ (open_append _ _ opened), Lossy.utf8_len_append, Lossy.utf8_len_append]
  rfl

def pushPiece (out : Text) (piece : List UInt8) : Text := separated out ++ fromUtf8Lossy piece

theorem push_named {flags : UInt8} (named : flags = 0x00 ∨ flags = 0x01) (piece : List UInt8) (out : Text) :
    pushRecord out ⟨flags, piece⟩ = pushPiece out piece := by
  have none : ¬ flags &&& 0x08 ≠ 0 ∧ ¬ flags &&& 0x02 ≠ 0 ∧ ¬ flags &&& 0x04 ≠ 0 := by
    rcases named with rfl | rfl <;> decide
  rw [pushRecord, pushComponent, if_neg none.1, if_neg none.2.1, if_neg none.2.2]
  rfl

theorem piece_records_push : (pieceRecords pieces).foldl pushRecord out = pieces.foldl pushPiece out := by
  induction pieces generalizing out with
  | nil => rfl
  | cons piece pieces ih =>
      cases pieces with
      | nil => exact push_named (.inl rfl) piece out
      | cons next pieces =>
          rw [pieceRecords, List.foldl_cons, push_named (.inr rfl), ih]
          · rfl
          · exact List.cons_ne_nil _ _

theorem push_piece_empty : separated (pushPiece out []) = separated out := by
  rw [pushPiece, fromUtf8Lossy, List.append_nil, separated_twice]

theorem push_pieces_empty (empty : pieces.flatten = []) (out : Text) :
    separated (pieces.foldl pushPiece out) = separated out := by
  induction pieces generalizing out with
  | nil => rfl
  | cons piece pieces ih =>
      obtain ⟨rfl, rest⟩ := List.append_eq_nil_iff.mp (List.flatten_cons ▸ empty)
      rw [List.foldl_cons, ih rest, push_piece_empty]

theorem lossy_nonempty (piece : List UInt8) (nonempty : piece ≠ []) : fromUtf8Lossy piece ≠ [] := by
  intro empty
  have length := Lossy.lossy_length piece
  rw [empty] at length
  exact nonempty (List.length_eq_zero_iff.mp (Nat.le_zero.mp length))

def filled : List (List UInt8) → Nat
  | [] => 0
  | piece :: pieces => (if piece = [] then 0 else 1) + filled pieces

theorem push_pieces_weight (plain : (0x2F : UInt8) ∉ pieces.flatten) (out : Text) :
    weight out + pieces.flatten.length + filled pieces ≤ weight (pieces.foldl pushPiece out) := by
  induction pieces generalizing out with
  | nil => exact Nat.le_refl _
  | cons piece pieces ih =>
      rw [List.flatten_cons, List.mem_append, not_or] at plain
      have later := ih plain.2 (pushPiece out piece)
      rw [List.foldl_cons, List.flatten_cons, List.length_append, filled]
      by_cases empty : piece = []
      · subst empty
        have same : weight (pushPiece out []) = weight out := congrArg utf8Len (push_piece_empty out)
        rw [if_pos rfl, List.length_nil]
        omega
      · have pushed : weight (pushPiece out piece) = weight out + utf8Len (fromUtf8Lossy piece) + 1 :=
          weight_open out (open_plain _ (lossy_nonempty piece empty) (Lossy.lossy_plain piece plain.1))
        have decoded := Lossy.lossy_length piece
        rw [if_neg empty]
        omega

theorem utf8_slash {text : List Char} (plain : '/' ∉ text) : (0x2F : UInt8) ∉ utf8 text := by
  intro member
  obtain ⟨c, inside, octet⟩ := List.mem_flatMap.mp member
  have same := Lossy.ascii_octet c 0x2F octet (by decide)
  obtain rfl : c = '/' := Char.toNat_inj.mp same.symm
  exact plain inside

theorem flatten_filled (some_ : pieces.flatten ≠ []) (one : filled pieces ≤ 1) : pieces.flatten ∈ pieces := by
  induction pieces with
  | nil => exact absurd rfl some_
  | cons piece pieces ih =>
      rw [filled] at one
      by_cases empty : piece = []
      · subst empty
        exact List.mem_cons_of_mem _ (ih some_ (by omega))
      · rw [if_neg empty] at one
        have none : ∀ pieces : List (List UInt8), filled pieces = 0 → pieces.flatten = [] := by
          intro pieces
          induction pieces with
          | nil => exact fun _ => rfl
          | cons piece pieces ih =>
              intro zero
              rw [filled] at zero
              by_cases empty : piece = []
              · subst empty
                exact ih (by omega)
              · rw [if_neg empty] at zero
                omega
        rw [List.flatten_cons, none pieces (by omega), List.append_nil]
        exact List.mem_cons_self

theorem push_pieces_whole (whole : pieces.flatten ∈ pieces) (out : Text) :
    ∃ front back, pieces = front ++ pieces.flatten :: back ∧ back.flatten = [] ∧
      pieces.foldl pushPiece out = back.foldl pushPiece (separated out ++ fromUtf8Lossy pieces.flatten) := by
  obtain ⟨front, back, split⟩ := List.append_of_mem whole
  have lengths := congrArg (fun pieces => pieces.flatten.length) split
  simp only [List.flatten_append, List.flatten_cons, List.length_append] at lengths
  have frontEmpty : front.flatten = [] := List.length_eq_zero_iff.mp (by omega)
  have backEmpty : back.flatten = [] := List.length_eq_zero_iff.mp (by omega)
  refine ⟨front, back, split, backEmpty, ?_⟩
  conv => lhs; rw [split]
  rw [List.foldl_append, List.foldl_cons, pushPiece, push_pieces_empty front frontEmpty]

def addText (out text : Text) : Text := separated out ++ text

def Component.Cut : Component → Prop
  | .name named => utf8 named.text ∉ named.pieces
  | _ => False

variable (component : Component)

theorem component_open : Open_ component.text := by
  cases component with
  | current => exact ⟨by decide, by decide⟩
  | parent => exact ⟨by decide, by decide⟩
  | name named =>
      have nonempty : points named.text ≠ [] := fun empty => named.nonempty (List.map_eq_nil_iff.mp empty)
      apply open_plain _ nonempty
      intro slash
      obtain ⟨c, inside, point⟩ := List.mem_map.mp slash
      obtain rfl : c = '/' := Char.toNat_inj.mp point
      exact named.plain inside

theorem utf8_nonempty {text : List Char} (nonempty : text ≠ []) : utf8 text ≠ [] := by
  intro empty
  have decoded := Lossy.lossy_whole text
  rw [empty] at decoded
  exact nonempty (List.map_eq_nil_iff.mp decoded.symm)

theorem component_weight (out meant : Text) (less : weight meant ≤ weight out) :
    weight (addText meant component.text) ≤ weight (component.records.foldl pushRecord out) ∧
      (component.Cut ∨ weight meant < weight out →
        weight (addText meant component.text) < weight (component.records.foldl pushRecord out)) := by
  have intended := weight_open meant (component_open component)
  change weight (addText meant component.text) = _ at intended
  cases component with
  | current =>
      have read : weight (Component.current.records.foldl pushRecord out) = weight out + utf8Len Component.current.text + 1 :=
        weight_open out (component_open .current)
      rw [intended, read]
      exact ⟨by omega, fun either => by rcases either with cut | less; exacts [cut.elim, by omega]⟩
  | parent =>
      have read : weight (Component.parent.records.foldl pushRecord out) = weight out + utf8Len Component.parent.text + 1 :=
        weight_open out (component_open .parent)
      rw [intended, read]
      exact ⟨by omega, fun either => by rcases either with cut | less; exacts [cut.elim, by omega]⟩
  | name named =>
      have plain : (0x2F : UInt8) ∉ named.pieces.flatten := by
        rw [named.recorded]
        exact utf8_slash named.plain
      have read := push_pieces_weight named.pieces plain out
      rw [← piece_records_push, named.recorded, Lossy.utf8_length] at read
      change _ ≤ weight ((Component.name named).records.foldl pushRecord out) at read
      have some_ : named.pieces.flatten ≠ [] := by
        rw [named.recorded]
        exact utf8_nonempty named.nonempty
      have atLeast : 1 ≤ filled named.pieces := by
        by_contra none
        have whole := flatten_filled named.pieces some_ (by omega)
        obtain ⟨front, back, split, _⟩ := push_pieces_whole named.pieces whole []
        have count : ∀ front : List (List UInt8), 1 ≤ filled (front ++ named.pieces.flatten :: back) := by
          intro front
          induction front with
          | nil => rw [List.nil_append, filled, if_neg some_]; omega
          | cons piece front ih => rw [List.cons_append, filled]; omega
        have found := count front
        rw [← split] at found
        exact none found
      have text : utf8Len (Component.name named).text = utf8Len (points named.text) := rfl
      refine ⟨by omega, fun either => ?_⟩
      rcases either with cut | less
      · have twice : 2 ≤ filled named.pieces := by
          by_contra one
          apply cut
          rw [← named.recorded]
          exact flatten_filled named.pieces some_ (by omega)
        omega
      · omega

theorem component_whole (whole : ¬ component.Cut) (out meant : Text) (same : separated out = separated meant) :
    separated (component.records.foldl pushRecord out) = separated (addText meant component.text) := by
  cases component with
  | current => exact congrArg (fun front => separated (front ++ [0x2E])) same
  | parent => exact congrArg (fun front => separated (front ++ [0x2E, 0x2E])) same
  | name named =>
      have inside : named.pieces.flatten ∈ named.pieces := by
        rw [named.recorded]
        exact not_not.mp whole
      obtain ⟨front, back, _, empty, pushed⟩ := push_pieces_whole named.pieces inside out
      change separated ((pieceRecords named.pieces).foldl pushRecord out) = _
      rw [piece_records_push, pushed, push_pieces_empty back empty, named.recorded, Lossy.lossy_whole, same]
      rfl

theorem components_weight (components : List Component) (out meant : Text) (less : weight meant ≤ weight out) :
    weight ((components.map Component.text).foldl addText meant) ≤
        weight ((components.flatMap Component.records).foldl pushRecord out) ∧
      ((∃ component ∈ components, component.Cut) ∨ weight meant < weight out →
        weight ((components.map Component.text).foldl addText meant) <
          weight ((components.flatMap Component.records).foldl pushRecord out)) := by
  induction components generalizing out meant with
  | nil => exact ⟨less, fun either => either.elim (fun ⟨_, member, _⟩ => absurd member List.not_mem_nil) id⟩
  | cons component components ih =>
      obtain ⟨heavier, cutHere⟩ := component_weight component out meant less
      obtain ⟨rest, cutLater⟩ := ih _ _ heavier
      rw [List.flatMap_cons, List.foldl_append, List.map_cons, List.foldl_cons]
      refine ⟨rest, fun either => cutLater ?_⟩
      rcases either with ⟨cut, member, isCut⟩ | strict
      · rcases List.mem_cons.mp member with rfl | member
        · exact .inr (cutHere (.inl isCut))
        · exact .inl ⟨cut, member, isCut⟩
      · exact .inr (cutHere (.inr strict))

theorem components_whole (components : List Component) (whole : ∀ component ∈ components, ¬ component.Cut) (out meant : Text)
    (same : separated out = separated meant) :
    separated ((components.flatMap Component.records).foldl pushRecord out) =
      separated ((components.map Component.text).foldl addText meant) := by
  induction components generalizing out meant with
  | nil => exact same
  | cons component components ih =>
      rw [List.flatMap_cons, List.foldl_append, List.map_cons, List.foldl_cons]
      apply ih fun other member => whole other (List.mem_cons_of_mem _ member)
      exact component_whole component (whole component List.mem_cons_self) out meant same

theorem add_texts (texts : List Text) (opened : ∀ text ∈ texts, Open_ text) (meant : Text) (open_ : Open_ meant) :
    texts.foldl addText meant = meant ++ texts.flatMap fun text => 0x2F :: text := by
  induction texts generalizing meant with
  | nil => exact (List.append_nil _).symm
  | cons text texts ih =>
      have here := opened text List.mem_cons_self
      rw [List.foldl_cons, addText, ih (fun other member => opened other (List.mem_cons_of_mem _ member)) _ (open_append _ _ here),
        separated_open meant open_, List.flatMap_cons]
      simp

def Target.start (target : Target) : Text := if target.root then [0x2F] else []

variable (target : Target)

theorem target_text_eq : (target.components.map Component.text).foldl addText target.start = target.text := by
  have opened : ∀ text ∈ target.components.map Component.text, Open_ text := by
    intro text member
    obtain ⟨component, _, rfl⟩ := List.mem_map.mp member
    exact component_open component
  have closed : separated target.start = target.start := by
    unfold Target.start
    split <;> rfl
  change _ = target.start ++ joined (target.components.map Component.text)
  cases texts : target.components.map Component.text with
  | nil => exact (List.append_nil _).symm
  | cons text texts' =>
      rw [texts] at opened
      have here := opened text List.mem_cons_self
      rw [List.foldl_cons, addText, add_texts texts' (fun other member => opened other (List.mem_cons_of_mem _ member)) _
        (open_append _ _ here), closed, joined, List.append_assoc]

def Record.IsPiece (record : Record) : Prop := record.flags = 0x00 ∨ record.flags = 0x01

theorem piece_records_pieces (member : record ∈ pieceRecords pieces) : record.IsPiece ∧ record.octets ∈ pieces := by
  induction pieces with
  | nil => cases member
  | cons piece pieces ih =>
      cases pieces with
      | nil =>
          obtain rfl := List.mem_singleton.mp member
          exact ⟨.inl rfl, List.mem_cons_self⟩
      | cons next pieces =>
          rcases List.mem_cons.mp member with rfl | member
          · exact ⟨.inr rfl, List.mem_cons_self⟩
          · exact ⟨(ih member).1, List.mem_cons_of_mem _ (ih member).2⟩

theorem component_records_cases (record : Record) (member : record ∈ component.records) :
    record = ⟨0x02, []⟩ ∨ record = ⟨0x04, []⟩ ∨ (record.IsPiece ∧ (0x2F : UInt8) ∉ record.octets) := by
  cases component with
  | current => exact .inl (List.mem_singleton.mp member)
  | parent => exact .inr (.inl (List.mem_singleton.mp member))
  | name named =>
      obtain ⟨isPiece, inside⟩ := piece_records_pieces named.pieces record member
      refine .inr (.inr ⟨isPiece, fun slash => utf8_slash named.plain ?_⟩)
      rw [← named.recorded]
      exact List.mem_flatten.mpr ⟨record.octets, inside, slash⟩

theorem component_records_below (record : Record) (member : record ∈ component.records) : record.flags &&& 0x08 = 0 := by
  rcases component_records_cases component record member with rfl | rfl | ⟨flag | flag, _⟩
  · rfl
  · rfl
  · rw [flag]
    rfl
  · rw [flag]
    rfl

theorem decode_target :
    decodeRecords target.records [] = decodeRecords (target.components.flatMap Component.records) target.start := by
  unfold Target.records Target.start
  cases target.root with
  | false => rfl
  | true =>
      have room : utf8Len [] < maxSymlinkLen := by decide
      rw [if_pos rfl, if_pos rfl, List.cons_append, decodeRecords, if_pos room]
      rfl

structure Target.Uncut (target : Target) : Prop where
  whole : ∀ component ∈ target.components, ¬ component.Cut
  ending : ∀ record, target.records.getLast? = some record → record.IsPiece → record.octets ≠ []

theorem push_record_open (out : Text)
    (kind : record = ⟨0x02, []⟩ ∨ record = ⟨0x04, []⟩ ∨ (record.IsPiece ∧ (0x2F : UInt8) ∉ record.octets)) :
    Open_ (pushRecord out record) ↔ ¬ (record.IsPiece ∧ record.octets = []) := by
  rcases kind with rfl | rfl | ⟨isPiece, plain⟩
  · refine iff_of_true (open_append _ _ (component_open .current)) fun both => ?_
    rcases both.1 with flag | flag <;> cases flag
  · refine iff_of_true (open_append _ _ (component_open .parent)) fun both => ?_
    rcases both.1 with flag | flag <;> cases flag
  · rw [push_named isPiece record.octets out, and_iff_right isPiece]
    by_cases empty : record.octets = []
    · refine iff_of_false ?_ (not_not.mpr empty)
      rw [pushPiece, empty, fromUtf8Lossy, List.append_nil]
      exact separated_closed out
    · exact iff_of_true (open_append _ _ (open_plain _ (lossy_nonempty _ empty) (Lossy.lossy_plain _ plain))) empty

theorem target_open (some_ : target.components ≠ []) : Open_ target.text := by
  rw [← target_text_eq, ← List.dropLast_append_getLast (mt List.map_eq_nil_iff.mp some_), List.foldl_append, List.foldl_cons,
    List.foldl_nil, addText]
  apply open_append
  obtain ⟨component, _, text⟩ := List.mem_map.mp (List.getLast_mem (mt List.map_eq_nil_iff.mp some_))
  rw [← text]
  exact component_open component

theorem component_records_nonempty : component.records ≠ [] := by
  cases component with
  | current => exact List.cons_ne_nil _ _
  | parent => exact List.cons_ne_nil _ _
  | name named =>
      have some_ : named.pieces ≠ [] := by
        intro empty
        have recorded := named.recorded
        rw [empty] at recorded
        exact utf8_nonempty named.nonempty recorded.symm
      obtain ⟨piece, pieces, split⟩ := List.exists_cons_of_ne_nil some_
      change pieceRecords named.pieces ≠ []
      rw [split]
      cases pieces <;> exact List.cons_ne_nil _ _

def Target.read (target : Target) : Text := (target.components.flatMap Component.records).foldl pushRecord target.start

theorem target_read_open (some_ : target.components ≠ []) :
    Open_ target.read ↔ ∀ record, target.records.getLast? = some record → record.IsPiece → record.octets ≠ [] := by
  obtain ⟨first, rest, split⟩ := List.exists_cons_of_ne_nil some_
  have records : target.components.flatMap Component.records ≠ [] := by
    rw [split, List.flatMap_cons]
    exact fun empty => component_records_nonempty first (List.append_eq_nil_iff.mp empty).1
  have last : target.records.getLast? = some ((target.components.flatMap Component.records).getLast records) := by
    rw [Target.records, List.getLast?_append_of_ne_nil _ records, List.getLast?_eq_some_getLast]
  obtain ⟨component, member, inside⟩ := List.mem_flatMap.mp (List.getLast_mem records)
  have opened := push_record_open _ ((target.components.flatMap Component.records).dropLast.foldl pushRecord target.start)
    (component_records_cases component _ inside)
  have read : target.read = pushRecord ((target.components.flatMap Component.records).dropLast.foldl pushRecord target.start)
      ((target.components.flatMap Component.records).getLast records) := by
    rw [Target.read]
    conv => lhs; rw [← List.dropLast_append_getLast records]
    rw [List.foldl_append]
    rfl
  rw [read, opened, last]
  constructor
  · intro filled record same isPiece empty
    obtain rfl := Option.some.inj same
    exact filled ⟨isPiece, empty⟩
  · intro filled both
    exact filled _ rfl both.1 both.2

theorem target_read_iff : target.read = target.text ↔ target.Uncut := by
  by_cases none : target.components = []
  · have root : target.root = true := target.nonempty.resolve_right fun some_ => some_ none
    refine iff_of_true ?_ ⟨fun component member => ?_, fun record last isPiece => ?_⟩
    · rw [Target.read, ← target_text_eq, none]
      rfl
    · rw [none] at member
      cases member
    · rw [Target.records, root, none] at last
      obtain rfl := Option.some.inj last
      rcases isPiece with flag | flag <;> cases flag
  · have opened := target_read_open target none
    have textOpen := target_open target none
    constructor
    · intro same
      refine ⟨fun component member cut => ?_, opened.mp (same ▸ textOpen)⟩
      have heavier := (components_weight target.components target.start target.start (Nat.le_refl _)).2 (.inl ⟨component, member, cut⟩)
      rw [target_text_eq, ← same] at heavier
      exact Nat.lt_irrefl _ heavier
    · intro uncut
      have separatedSame := components_whole target.components uncut.whole target.start target.start rfl
      rw [target_text_eq] at separatedSame
      change separated target.read = _ at separatedSame
      rw [separated_open _ (opened.mpr uncut.ending), separated_open _ textOpen] at separatedSame
      exact List.append_cancel_right separatedSame

theorem linked_iff (entries : List (List Record)) (same : entries.flatten = target.records)
    (short : utf8Len target.text < maxSymlinkLen) : linkedBy entries = some target.text ↔ target.Uncut := by
  have some_ : entries ≠ [] := by
    rintro rfl
    have empty : [] = target.records := same
    rcases target.nonempty with root | components
    · rw [Target.records, root] at empty
      cases empty
    · obtain ⟨first, rest, split⟩ := List.exists_cons_of_ne_nil components
      rw [Target.records, split, List.flatMap_cons] at empty
      have none := (List.append_eq_nil_iff.mp (List.append_eq_nil_iff.mp empty.symm).2).1
      exact component_records_nonempty first none
  have below : ∀ record ∈ target.components.flatMap Component.records, record.flags &&& 0x08 = 0 := by
    intro record member
    obtain ⟨component, _, inside⟩ := List.mem_flatMap.mp member
    exact component_records_below component record inside
  rw [linkedBy, if_neg some_, same, decode_target, Option.some.injEq, ← target_read_iff]
  constructor
  · intro decoded
    rcases decode_cases (target.components.flatMap Component.records) target.start with full | capped
    · rw [decoded] at full
      exact full.symm
    · rw [decoded] at capped
      omega
  · intro read
    have full := decode_short (target.components.flatMap Component.records) below target.start
    change utf8Len target.read < maxSymlinkLen → _ = target.read at full
    rw [read] at full
    exact full short

end Links

end Filefacts.Iso
