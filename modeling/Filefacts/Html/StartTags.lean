import Filefacts.Html.Kinds

set_option autoImplicit false

-- The start tag states with their attributes are those of the markup, which forgets them.
namespace Filefacts.Html

open Filefacts.Bytes (ascii isAsciiAlphabetic toAsciiLower)
open Filefacts.Scanner (Leaves Mirrors Reaches)

section Markup

variable (page name : List UInt8)

def TagState.markup (name : List UInt8) : TagState → MarkupState
  | .tagName => .tagName (some name)
  | .beforeName _ => .beforeAttributeName (some name)
  | .name _ => .attributeName (some name)
  | .afterName _ => .afterAttributeName (some name)
  | .beforeValue _ => .beforeAttributeValue (some name)
  | .quoted quote _ => .attributeValueQuoted quote (some name)
  | .unquoted _ => .attributeValueUnquoted (some name)
  | .afterQuoted _ => .afterAttributeValueQuoted (some name)
  | .selfClosing _ => .selfClosingStartTag (some name)

def leftWith (name : List UInt8) (out : List Attribute × Nat) : List UInt8 × Nat := (name, out.2)

def Named (page : List UInt8) (state : TagState) (pos : Nat) : Prop :=
  state = .tagName → ∀ b, page[pos]? = some b → endsName b = true

variable (state : TagState) (pos : Nat) (b : UInt8) (out : List Attribute × Nat)

theorem tag_moves (named : Named page state pos) (read : page[pos]? = some b) :
    markupNext pos (state.markup name) b = (tagNext pos state b).map (TagState.markup name) (leftWith name) := by
  cases state with
  | tagName =>
      have ends := named rfl b read
      simp only [TagState.markup, markupNext, tagNext]
      by_cases space : isTagSpace b = true
      · rw [if_pos space, if_pos space]
        rfl
      · rw [if_neg space, if_neg space]
        by_cases slash : b = 47
        · rw [if_pos slash, if_pos slash]
          rfl
        · have close : b = 62 := by simpa [endsName, space, slash] using ends
          rw [if_neg slash, if_neg slash, if_pos close, if_pos close]
          rfl
  | _ =>
      simp only [tagNext, apply_ite (Scanner.Move.map (TagState.markup name) (leftWith name))]
      rfl

theorem tag_moves_named {state after : TagState} {pos : Nat} {b : UInt8} (named : Named page state pos)
    (read : page[pos]? = some b) (moved : tagNext pos state b = .switch after ∨ tagNext pos state b = .reconsume after) :
    after ≠ .tagName := by
  rintro rfl
  cases state with
  | tagName =>
      have ends := named rfl b read
      grind [tagNext, endsName]
  | _ => grind [tagNext]

theorem tag_mirrors :
    Mirrors tagNext page markupNext (TagState.markup name) (leftWith name) (Named page) where
  moves := fun state pos b named read => tag_moves page name state pos b named read
  switched := fun state pos b after named read move same =>
    absurd same (tag_moves_named page named read (.inl move))
  again := fun state pos b after named read move same =>
    absurd same (tag_moves_named page named read (.inr move))

theorem tag_leave_stop (move : tagNext pos state b = .leave out) : out.2 = pos + 1 := by
  cases state <;> grind [tagNext]

theorem tag_leaves_bounds (leaves : Leaves tagNext page state pos out) : pos < out.2 ∧ out.2 ≤ page.length := by
  induction leaves with
  | leave b read move =>
      have inside := (List.getElem?_eq_some_iff.mp read).choose
      rw [tag_leave_stop _ _ b _ move]
      exact ⟨Nat.lt_succ_self _, inside⟩
  | switch b after read move _ hypothesis => exact ⟨Nat.lt_of_succ_lt hypothesis.1, hypothesis.2⟩
  | reconsume b after read move _ hypothesis => exact hypothesis

end Markup

def TagAgrees (page name : List UInt8) (state : MarkupState) (i : Nat) (out : Tag) : Prop :=
  (∀ stop, out.stop = some stop → Leaves markupNext page state i (name, stop) ∧ i < stop ∧ stop ≤ page.length) ∧
    (out.stop = none → ∀ tag, ¬ Leaves markupNext page state i tag)

variable (page : List UInt8) (start : Nat) (tag : Tag)

theorem agrees_collects (name : List UInt8) (state : TagState) (i : Nat) (named : Named page state i)
    (collects : Collects page state i tag) : TagAgrees page name (state.markup name) i tag := by
  refine ⟨fun stop found => ?_, fun none_ out leaves => ?_⟩
  · obtain ⟨attrs, leaves, _⟩ := collects.1 stop found
    have bounds := tag_leaves_bounds page state i _ leaves
    exact ⟨Scanner.leaves_mirrored tagNext page state i markupNext _ _ _ (tag_mirrors page name) named _ leaves, bounds⟩
  · obtain ⟨left, own⟩ := Scanner.mirrored_leaves tagNext page i markupNext _ _ _ (tag_mirrors page name) _ out leaves state rfl named
    exact collects.2 none_ left own

theorem start_tag_agrees (less : page[start]? = some 60) (found : startTag page start = some tag)
    (bare : ∀ name pos, Reaches markupNext page .data start (.beforeAttributeName (some name)) pos → page[pos]? ≠ some 61) :
    TagAgrees page (tag.name.map toAsciiLower) .data start tag := by
  rw [startTag] at found
  split at found
  case isFalse => cases found
  case isTrue letter =>
    have made := (Option.some.inj found).symm
    obtain ⟨b, read, isLetter⟩ := Option.any_eq_true _ _ |>.mp letter
    have inside := (List.getElem?_eq_some_iff.mp read).choose
    have plain := letter_not_delimiter b isLetter
    have ends := name_end_stretch page (Nat.le_of_lt inside)
    have bound : nameEnd page (start + 1) ≤ page.length := by
      rw [ends]
      exact stretch_bound page inName (start + 1) (Nat.le_of_lt inside)
    have named : tag.name = (page.drop (start + 1)).takeWhile inName := by
      rw [made, attributes_name]
      rw [ends, span_stretch page inName (start + 1) (Nat.le_of_lt inside)]
    have opened : Reaches markupNext page .data start (.tagName (some [])) (start + 1) := by
      refine .switch 60 .tagOpen less rfl (Scanner.reaches_again markupNext page _ _ read ?_)
      rw [markupNext, if_neg plain.1, if_neg plain.2.2.1, if_pos isLetter]
    have run := Scanner.reaches_run markupNext page (fun held => .tagName (some (held.map toAsciiLower)))
      ((page.drop (start + 1)).takeWhile inName) ((page.drop (start + 1)).dropWhile inName) [] (start + 1)
      List.takeWhile_append_dropWhile.symm (by
        intro pos held symbol member
        have inName_ : inName symbol = true := List.mem_takeWhile_imp member
        rw [inName, Bool.not_eq_true', endsName, Bool.or_eq_false_iff, Bool.or_eq_false_iff] at inName_
        obtain ⟨⟨space, slash⟩, close⟩ := inName_
        rw [markupNext, if_neg (Bool.eq_false_iff.mp space), if_neg (of_decide_eq_false slash), if_neg (of_decide_eq_false close),
          Option.map_some, List.map_append]
        rfl)
    rw [List.nil_append, ← named] at run
    have stop : start + 1 + tag.name.length = nameEnd page (start + 1) := by rw [ends, stretchEnd, named, tail]
    rw [stop] at run
    have way := Scanner.reaches_trans markupNext page opened run
    have over_ : Named page .tagName (nameEnd page (start + 1)) := fun _ => name_over page start (Nat.le_of_lt inside)
    have mirrors := tag_mirrors page (tag.name.map toAsciiLower)
    have bareTag : BareTag page .tagName (nameEnd page (start + 1)) := fun attrs pos there =>
      bare _ pos (Scanner.reaches_trans markupNext page way
        (Scanner.reaches_mirrored tagNext page _ _ _ markupNext _ _ _ mirrors over_ pos there))
    have collects := attributes_collect page (page.length + 1)
      ⟨span page (start + 1) (nameEnd page (start + 1)), none, none, false, none⟩ [] .tagName (nameEnd page (start + 1)) (by omega)
      bound (name_top page start (Nat.le_of_lt inside)) bareTag rfl ⟨rfl, rfl⟩
    rw [← made] at collects
    have agrees := agrees_collects page tag (tag.name.map toAsciiLower) .tagName _ over_ collects
    refine ⟨fun stop found => ?_, fun none_ out leaves => ?_⟩
    · obtain ⟨leaves, above, below⟩ := agrees.1 stop found
      exact ⟨(Scanner.reaches_leaves markupNext page _ _ way).mpr leaves, by omega, below⟩
    · exact agrees.2 none_ out ((Scanner.reaches_leaves markupNext page _ _ way).mp leaves)

end Filefacts.Html
