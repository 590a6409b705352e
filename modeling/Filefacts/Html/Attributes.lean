import Filefacts.Html.Tags

set_option autoImplicit false

namespace Filefacts.Html

open Filefacts.Bytes (ascii isAsciiAlphabetic toAsciiLower eqIgnoreAsciiCase)
open Filefacts.Rar (Text fromUtf8Lossy)
open Filefacts.Scanner (Move Leaves Reaches)

-- The name in lower case and the octets of the value as they are written; an
-- attribute that is given no value has the empty one.
structure Attribute where
  name : List UInt8
  value : Option (List UInt8)
deriving DecidableEq, Repr

inductive TagState where
  | tagName
  | beforeName (attrs : List Attribute)
  | name (attrs : List Attribute)
  | afterName (attrs : List Attribute)
  | beforeValue (attrs : List Attribute)
  | quoted (quote : UInt8) (attrs : List Attribute)
  | unquoted (attrs : List Attribute)
  | afterQuoted (attrs : List Attribute)
  | selfClosing (attrs : List Attribute)
deriving DecidableEq, Repr

def growName (attrs : List Attribute) (b : UInt8) : List Attribute :=
  attrs.modifyHead fun attr => { attr with name := attr.name ++ [toAsciiLower b] }

def growValue (attrs : List Attribute) (b : UInt8) : List Attribute :=
  attrs.modifyHead fun attr => { attr with value := some (attr.value.getD [] ++ [b]) }

def giveValue (attrs : List Attribute) : List Attribute := attrs.modifyHead fun attr => { attr with value := some [] }

-- Leaving is past the > that ends the tag, with its attributes in order.
def tagNext (pos : Nat) : TagState → UInt8 → Move TagState (List Attribute × Nat)
  | .tagName, b =>
      if isTagSpace b then .switch (.beforeName [])
      else if b = 47 then .switch (.selfClosing [])
      else if b = 62 then .leave ([], pos + 1)
      else .switch .tagName
  | .beforeName attrs, b =>
      if isTagSpace b then .switch (.beforeName attrs)
      else if b = 47 ∨ b = 62 then .reconsume (.afterName attrs)
      else if b = 61 then .switch (.name (⟨[61], none⟩ :: attrs))
      else .reconsume (.name (⟨[], none⟩ :: attrs))
  | .name attrs, b =>
      if endsName b then .reconsume (.afterName attrs)
      else if b = 61 then .switch (.beforeValue (giveValue attrs))
      else .switch (.name (growName attrs b))
  | .afterName attrs, b =>
      if isTagSpace b then .switch (.afterName attrs)
      else if b = 47 then .switch (.selfClosing attrs)
      else if b = 61 then .switch (.beforeValue (giveValue attrs))
      else if b = 62 then .leave (attrs.reverse, pos + 1)
      else .reconsume (.name (⟨[], none⟩ :: attrs))
  | .beforeValue attrs, b =>
      if isTagSpace b then .switch (.beforeValue attrs)
      else if b = 34 ∨ b = 39 then .switch (.quoted b attrs)
      else if b = 62 then .leave (attrs.reverse, pos + 1)
      else .reconsume (.unquoted attrs)
  | .quoted quote attrs, b => if b = quote then .switch (.afterQuoted attrs) else .switch (.quoted quote (growValue attrs b))
  | .unquoted attrs, b =>
      if isTagSpace b then .switch (.beforeName attrs)
      else if b = 62 then .leave (attrs.reverse, pos + 1)
      else .switch (.unquoted (growValue attrs b))
  | .afterQuoted attrs, b =>
      if isTagSpace b then .switch (.beforeName attrs)
      else if b = 47 then .switch (.selfClosing attrs)
      else if b = 62 then .leave (attrs.reverse, pos + 1)
      else .reconsume (.beforeName attrs)
  | .selfClosing attrs, b => if b = 62 then .leave (attrs.reverse, pos + 1) else .reconsume (.beforeName attrs)

theorem tag_stretch (page : List UInt8) (test : UInt8 → Bool) (start : Nat) (state : TagState)
    (moves : ∀ pos b, test b = true → tagNext pos state b = .switch state) :
    Reaches tagNext page state start state (stretchEnd page test start) := by
  refine Scanner.reaches_stretch tagNext page state start _ fun pos above below => ?_
  obtain ⟨b, read, passes⟩ := stretch_inside page test start pos above below
  exact ⟨b, read, moves pos b passes⟩

theorem tag_run {page : List UInt8} (test : UInt8 → Bool) {start : Nat} (states : List UInt8 → TagState)
    (inside : start ≤ page.length)
    (moves : ∀ pos held b, test b = true → tagNext pos (states held) b = .switch (states (held ++ [b]))) :
    Reaches tagNext page (states []) start
      (states (span page start (stretchEnd page test start))) (stretchEnd page test start) := by
  have run := Scanner.reaches_run tagNext page states ((page.drop start).takeWhile test) ((page.drop start).dropWhile test) []
    start List.takeWhile_append_dropWhile.symm fun pos held b member => moves pos held b (List.mem_takeWhile_imp member)
  rw [List.nil_append, ← span_stretch page test start inside] at run
  have length : (span page start (stretchEnd page test start)).length = ((page.drop start).takeWhile test).length := by
    rw [span_stretch page test start inside]
  rw [length] at run
  exact run

-- A state of the tokenizer that reads on as the top of the loop does.
inductive TagTop (page : List UInt8) (attrs : List Attribute) : TagState → Nat → Prop
  | past {state : TagState} {i : Nat} (none_ : page[i]? = none) : TagTop page attrs state i
  | before {i : Nat} : TagTop page attrs (.beforeName attrs) i
  | selfClosing {i : Nat} : TagTop page attrs (.selfClosing attrs) i
  | quoted {i : Nat} : TagTop page attrs (.afterQuoted attrs) i
  | named {i : Nat} (b : UInt8) (read : page[i]? = some b) (ends : endsName b = true) (first : attrs = []) :
      TagTop page attrs .tagName i
  | after {i : Nat} (b : UInt8) (read : page[i]? = some b) (solid : isTagSpace b = false) (bare : b ≠ 61) :
      TagTop page attrs (.afterName attrs) i
  | valueless {i : Nat} (read : page[i]? = some 62) : TagTop page attrs (.beforeValue attrs) i
  | unquoted {i : Nat} (b : UInt8) (read : page[i]? = some b) (stops : inValue b = false) : TagTop page attrs (.unquoted attrs) i

section Top

variable (page : List UInt8) (attrs : List Attribute) (state : TagState) (i : Nat) (top : TagTop page attrs state i)

include top

variable (b : UInt8)

theorem tag_top_space (read : page[i]? = some b) (space : isTagSpace b = true) :
    Reaches tagNext page state i (.beforeName attrs) (i + 1) := by
  have close : b ≠ 62 := by
    rintro rfl
    cases space
  have move : tagNext i (.beforeName attrs) b = .switch (.beforeName attrs) := if_pos space
  cases top with
  | past none_ =>
      rw [read] at none_
      cases none_
  | before => exact Scanner.reaches_next tagNext page _ _ i b read move
  | selfClosing => exact .reconsume b _ read (if_neg close) (Scanner.reaches_next tagNext page _ _ i b read move)
  | quoted => exact Scanner.reaches_next tagNext page _ _ i b read (if_pos space)
  | named c there ends first =>
      subst first
      exact Scanner.reaches_next tagNext page _ _ i b read (if_pos space)
  | after c there solid bare =>
      rw [read] at there
      cases there
      rw [space] at solid
      cases solid
  | valueless there =>
      rw [read] at there
      cases there
      cases space
  | unquoted c there stops => exact Scanner.reaches_next tagNext page _ _ i b read (if_pos space)

theorem tag_top_close (read : page[i]? = some 62) : Leaves tagNext page state i (attrs.reverse, i + 1) := by
  cases top with
  | past none_ =>
      rw [read] at none_
      cases none_
  | before => exact .reconsume 62 _ read rfl (.leave 62 read rfl)
  | selfClosing => exact .leave 62 read rfl
  | quoted => exact .leave 62 read rfl
  | named c there ends first =>
      subst first
      exact .leave 62 read rfl
  | after c there solid bare => exact .leave 62 read rfl
  | valueless there => exact .leave 62 read rfl
  | unquoted c there stops => exact .leave 62 read rfl

theorem tag_top_slash (read : page[i]? = some 47) : Reaches tagNext page state i (.selfClosing attrs) (i + 1) := by
  cases top with
  | past none_ =>
      rw [read] at none_
      cases none_
  | before => exact .reconsume 47 _ read rfl (Scanner.reaches_next tagNext page _ _ i 47 read rfl)
  | selfClosing =>
      exact .reconsume 47 _ read rfl (.reconsume 47 _ read rfl (Scanner.reaches_next tagNext page _ _ i 47 read rfl))
  | quoted => exact Scanner.reaches_next tagNext page _ _ i 47 read rfl
  | named c there ends first =>
      subst first
      exact Scanner.reaches_next tagNext page _ _ i 47 read rfl
  | after c there solid bare => exact Scanner.reaches_next tagNext page _ _ i 47 read rfl
  | valueless there =>
      rw [read] at there
      cases there
  | unquoted c there stops =>
      rw [read] at there
      cases there
      cases stops

theorem tag_top_equals (read : page[i]? = some 61) : Reaches tagNext page state i (.beforeName attrs) i := by
  cases top with
  | past none_ =>
      rw [read] at none_
      cases none_
  | before => exact .here _ i
  | selfClosing => exact Scanner.reaches_again tagNext page _ _ read rfl
  | quoted => exact Scanner.reaches_again tagNext page _ _ read rfl
  | named c there ends first =>
      rw [read] at there
      cases there
      cases ends
  | after c there solid bare =>
      rw [read] at there
      cases there
      exact absurd rfl bare
  | valueless there =>
      rw [read] at there
      cases there
  | unquoted c there stops =>
      rw [read] at there
      cases there
      cases stops

theorem tag_top_attribute (read : page[i]? = some b) (inside : inAttribute b = true) :
    Reaches tagNext page state i (.name (⟨[], none⟩ :: attrs)) i := by
  simp only [inAttribute, Bool.and_eq_true, Bool.not_eq_true', decide_eq_true_eq] at inside
  obtain ⟨⟨⟨space, bare⟩, close⟩, slash⟩ := inside
  have notSpace : ¬ isTagSpace b = true := Bool.eq_false_iff.mp space
  have before : Reaches tagNext page (.beforeName attrs) i (.name (⟨[], none⟩ :: attrs)) i := by
    apply Scanner.reaches_again tagNext page _ _ read
    rw [tagNext, if_neg notSpace, if_neg fun either => either.elim slash close, if_neg bare]
  cases top with
  | past none_ =>
      rw [read] at none_
      cases none_
  | before => exact before
  | selfClosing => exact .reconsume b _ read (if_neg close) before
  | quoted =>
      refine .reconsume b (.beforeName attrs) read ?_ before
      rw [tagNext, if_neg notSpace, if_neg slash, if_neg close]
  | named c there ends first =>
      rw [read] at there
      cases there
      rw [endsName, space, decide_eq_false slash, decide_eq_false close] at ends
      cases ends
  | after c there solid bare' =>
      apply Scanner.reaches_again tagNext page _ _ read
      rw [tagNext, if_neg notSpace, if_neg slash, if_neg bare, if_neg close]
  | valueless there =>
      rw [read] at there
      cases there
      exact absurd rfl close
  | unquoted c there stops =>
      rw [read] at there
      cases there
      rw [inValue, space, decide_eq_true close] at stops
      cases stops

theorem tag_top_skip :
    ∃ after, Reaches tagNext page state i after (skipSpace page i) ∧ TagTop page attrs after (skipSpace page i) := by
  have skip : skipSpace page i = stretchEnd page isTagSpace i := rfl
  rw [skip]
  cases read : page[i]? with
  | none =>
      have same : stretchEnd page isTagSpace i = i := stretch_empty page isTagSpace i (by rw [read]; rfl)
      rw [same]
      exact ⟨state, .here state i, .past read⟩
  | some b =>
      by_cases space : isTagSpace b = true
      · rw [stretch_more page isTagSpace i b read space]
        refine ⟨.beforeName attrs, ?_, .before⟩
        exact Scanner.reaches_trans tagNext page (tag_top_space page attrs state i top b read space)
          (tag_stretch page isTagSpace (i + 1) _ fun pos c passes => if_pos passes)
      · have same : stretchEnd page isTagSpace i = i := by
          apply stretch_empty page isTagSpace i
          rw [read, Option.all_some, Bool.eq_false_iff.mpr space]
          rfl
        rw [same]
        exact ⟨state, .here state i, top⟩

end Top

section Turn

variable (page : List UInt8) (attrs : List Attribute) (i : Nat)

def spanned (page : List UInt8) (i : Nat) : List UInt8 := (span page i (attributeEnd page i)).map toAsciiLower

theorem tag_name_reaches (inside : i ≤ page.length) :
    (page[skipSpace page (attributeEnd page i)]? = some 61 →
      Reaches tagNext page (.name (⟨[], none⟩ :: attrs)) i (.beforeValue (⟨spanned page i, some []⟩ :: attrs))
        (skipSpace page (attributeEnd page i) + 1)) ∧
    (page[skipSpace page (attributeEnd page i)]? ≠ some 61 → ∃ after,
      Reaches tagNext page (.name (⟨[], none⟩ :: attrs)) i after (skipSpace page (attributeEnd page i)) ∧
        TagTop page (⟨spanned page i, none⟩ :: attrs) after (skipSpace page (attributeEnd page i))) := by
  have fold : stretchEnd page inAttribute i = attributeEnd page i := rfl
  have run : Reaches tagNext page (.name (⟨[], none⟩ :: attrs)) i
      (.name (⟨spanned page i, none⟩ :: attrs)) (attributeEnd page i) := by
    refine tag_run inAttribute (fun held => .name (⟨held.map toAsciiLower, none⟩ :: attrs)) inside ?_
    intro pos held b passes
    simp only [inAttribute, Bool.and_eq_true, Bool.not_eq_true', decide_eq_true_eq] at passes
    obtain ⟨⟨⟨space, bare⟩, close⟩, slash⟩ := passes
    have notEnd : ¬ endsName b = true := by
      rw [endsName, space, decide_eq_false slash, decide_eq_false close]
      exact Bool.false_ne_true
    rw [tagNext, if_neg notEnd, if_neg bare, growName, List.modifyHead_cons, List.map_append]
    rfl
  have stops := stretch_stops page inAttribute i
  rw [fold] at stops
  cases read : page[attributeEnd page i]? with
  | none =>
      have same : skipSpace page (attributeEnd page i) = attributeEnd page i :=
        stretch_empty page isTagSpace _ (by rw [read]; rfl)
      rw [same]
      exact ⟨fun equals => (by rw [read] at equals; cases equals), fun _ => ⟨_, run, .past read⟩⟩
  | some c =>
      rw [read, Option.all_some, Bool.not_eq_true'] at stops
      by_cases equals : c = 61
      · subst equals
        have same : skipSpace page (attributeEnd page i) = attributeEnd page i :=
          stretch_empty page isTagSpace _ (by rw [read]; rfl)
        rw [same]
        refine ⟨fun _ => ?_, fun other => absurd read other⟩
        exact Scanner.reaches_trans tagNext page run (Scanner.reaches_next tagNext page _ _ _ 61 read rfl)
      · have ends : endsName c = true := by
          simp only [inAttribute, Bool.and_eq_false_iff, Bool.not_eq_false', decide_eq_false_iff_not, not_not, ne_eq] at stops
          rcases stops with ((space | same) | close) | slash
          · rw [endsName, space]
            rfl
          · exact absurd same equals
          · rw [endsName, decide_eq_true close, Bool.or_true]
          · rw [endsName, decide_eq_true slash, Bool.or_true, Bool.true_or]
        have skipped : Reaches tagNext page (.name (⟨[], none⟩ :: attrs)) i (.afterName (⟨spanned page i, none⟩ :: attrs))
            (skipSpace page (attributeEnd page i)) := by
          refine Scanner.reaches_trans tagNext page run (.reconsume c _ read (if_pos ends) ?_)
          exact tag_stretch page isTagSpace _ _ fun pos d passes => if_pos passes
        have solid := stretch_stops page isTagSpace (attributeEnd page i)
        have foldSpace : stretchEnd page isTagSpace (attributeEnd page i) = skipSpace page (attributeEnd page i) := rfl
        rw [foldSpace] at solid
        refine ⟨fun value => ?_, fun other => ⟨_, skipped, ?_⟩⟩
        · exact Scanner.reaches_trans tagNext page skipped (Scanner.reaches_next tagNext page _ _ _ 61 value rfl)
        · cases there : page[skipSpace page (attributeEnd page i)]? with
          | none => exact .past there
          | some d =>
              rw [there, Option.all_some, Bool.not_eq_true'] at solid
              exact .after d there solid fun same => other (by rw [there, same])

theorem tag_value_skip : Reaches tagNext page (.beforeValue attrs) i (.beforeValue attrs) (skipSpace page i) :=
  tag_stretch page isTagSpace i _ fun _ _ passes => if_pos passes

variable (name : List UInt8)

variable (quote : UInt8)

theorem tag_quoted_run (inside : i ≤ page.length) : Reaches tagNext page (.quoted quote (⟨name, some []⟩ :: attrs)) i
      (.quoted quote (⟨name, some (span page i (stretchEnd page (differs quote) i))⟩ :: attrs))
      (stretchEnd page (differs quote) i) :=
  tag_run (differs quote) (fun held => .quoted quote (⟨name, some held⟩ :: attrs)) inside fun pos held b passes =>
    if_neg (of_decide_eq_true passes)

theorem tag_quoted_reaches (found : Nat) (inside : i ≤ page.length) (here : memchr quote (tail page i) = some found) :
    Reaches tagNext page (.quoted quote (⟨name, some []⟩ :: attrs)) i
      (.afterQuoted (⟨name, some (span page i (i + found))⟩ :: attrs)) (i + found + 1) := by
  obtain ⟨stop, read⟩ := memchr_stretch here
  have run := tag_quoted_run page attrs i name quote inside
  rw [stop] at run
  exact Scanner.reaches_trans tagNext page run (Scanner.reaches_next tagNext page _ _ _ quote read (if_pos rfl))

theorem tag_quoted_stays (out : List Attribute × Nat) (inside : i ≤ page.length)
    (none_ : memchr quote (tail page i) = none) : ¬ Leaves tagNext page (.quoted quote (⟨name, some []⟩ :: attrs)) i out := by
  rw [Scanner.reaches_leaves tagNext page _ out (tag_quoted_run page attrs i name quote inside)]
  exact Scanner.leaves_past tagNext page _ _ out (memchr_absent none_)

theorem tag_unquoted_reaches (inside : i ≤ page.length) (plain : page[i]?.filter isQuote = none)
    (solid : page[i]?.all (fun b => !isTagSpace b) = true) :
    ∃ after, Reaches tagNext page (.beforeValue (⟨name, some []⟩ :: attrs)) i after (valueEnd page i) ∧
      TagTop page (⟨name, some (span page i (valueEnd page i))⟩ :: attrs) after (valueEnd page i) := by
  have fold : stretchEnd page inValue i = valueEnd page i := rfl
  cases read : page[i]? with
  | none =>
      have same : valueEnd page i = i := stretch_empty page inValue i (by rw [read]; rfl)
      rw [same]
      exact ⟨_, .here _ i, .past read⟩
  | some b =>
      rw [read] at plain solid
      have notSpace : isTagSpace b = false := by simpa using solid
      have notQuote : ¬ (b = 34 ∨ b = 39) := by simpa [isQuote] using plain
      by_cases close : b = 62
      · subst close
        have same : valueEnd page i = i := stretch_empty page inValue i (by rw [read]; rfl)
        have nothing : span page i i = [] := by
          have taken := span_stretch page inValue i inside
          rw [fold, same] at taken
          have still : i + ((page.drop i).takeWhile inValue).length = i := same
          rw [taken]
          exact List.eq_nil_of_length_eq_zero (by omega)
        rw [same, nothing]
        exact ⟨_, .here _ i, .valueless read⟩
      · have begun : Reaches tagNext page (.beforeValue (⟨name, some []⟩ :: attrs)) i
            (.unquoted (⟨name, some []⟩ :: attrs)) i := by
          apply Scanner.reaches_again tagNext page _ _ read
          rw [tagNext, if_neg (Bool.eq_false_iff.mp notSpace), if_neg notQuote, if_neg close]
        have run : Reaches tagNext page (.unquoted (⟨name, some []⟩ :: attrs)) i
            (.unquoted (⟨name, some (span page i (valueEnd page i))⟩ :: attrs)) (valueEnd page i) := by
          refine tag_run inValue (fun held => .unquoted (⟨name, some held⟩ :: attrs)) inside ?_
          intro pos held c passes
          simp only [inValue, Bool.and_eq_true, Bool.not_eq_true', decide_eq_true_eq] at passes
          rw [tagNext, if_neg (Bool.eq_false_iff.mp passes.1), if_neg passes.2]
          rfl
        refine ⟨_, Scanner.reaches_trans tagNext page begun run, ?_⟩
        have stops := stretch_stops page inValue i
        rw [fold] at stops
        cases there : page[valueEnd page i]? with
        | none => exact .past there
        | some c =>
            rw [there, Option.all_some, Bool.not_eq_true'] at stops
            exact .unquoted c there stops

end Turn

end Filefacts.Html
