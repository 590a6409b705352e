import Filefacts.Html.Tags

set_option autoImplicit false

-- What the scanner passes over without a start tag: text, declarations and end tags.
namespace Filefacts.Html

open Filefacts.Bytes (ascii isAsciiAlphabetic toAsciiLower)
open Filefacts.Scanner (Leaves Reaches)

variable (page : List UInt8)

variable (start : Nat)

theorem data_skip (found : Nat) (here : memchr 60 (tail page start) = some found) :
    Reaches markupNext page .data start .data (start + found) ∧ page[start + found]? = some 60 := by
  obtain ⟨stop, read⟩ := memchr_stretch here
  have run := stretch_reaches page (differs 60) start .data fun pos b passes => if_neg (of_decide_eq_true passes)
  rw [stop] at run
  exact ⟨run, read⟩

theorem data_stays (none_ : memchr 60 (tail page start) = none) (out : List UInt8 × Nat) :
    ¬ Leaves markupNext page .data start out := by
  have run := stretch_reaches page (differs 60) start .data fun pos b passes => if_neg (of_decide_eq_true passes)
  rw [Scanner.reaches_leaves markupNext page _ out run]
  exact Scanner.leaves_past markupNext page _ _ out (memchr_absent none_)

theorem open_tag (less : page[start]? = some 60) : Reaches markupNext page .data start .tagOpen (start + 1) :=
  Scanner.reaches_next markupNext page _ _ start 60 less rfl

theorem never_past (state : MarkupState) {pos : Nat} (none_ : page[pos]? = none) (inside : pos ≤ page.length) :
    Returns page state pos page.length ∧ pos = page.length :=
  ⟨.inr ⟨fun tag => Scanner.leaves_past markupNext page state pos tag none_, rfl⟩, by
    have outside := List.getElem?_eq_none_iff.mp none_
    omega⟩

theorem comment_passes (comment : (ascii "<!--").isPrefixOf (tail page start) = true) :
    Returns page .data start (commentEnd page (start + 4) false) := by
  obtain ⟨less, bang, dash, dashDash⟩ := (starts_comment page start).mp comment
  have inside := (List.getElem?_eq_some_iff.mp dashDash).choose
  have declaration : Reaches markupNext page .tagOpen (start + 1) .markupDeclarationOpen (start + 2) :=
    Scanner.reaches_next markupNext page _ _ (start + 1) 33 bang rfl
  have way : Reaches markupNext page .data start (.comment .start) (start + 4) := by
    refine Scanner.reaches_trans markupNext page (open_tag page start less) ?_
    refine Scanner.reaches_trans markupNext page declaration ?_
    exact .switch 45 .markupDeclarationDash dash rfl (Scanner.reaches_next markupNext page _ _ (start + 3) 45 dashDash rfl)
  exact returns_reach page way (comment_returns page (start + 4) inside)

theorem past_skip (needle b : UInt8) (pos : Nat) (read : page[pos]? = some b) (other : b ≠ needle) :
    past page pos [needle] = past page (pos + 1) [needle] := by
  refine past_next page [needle] (List.getElem?_eq_some_iff.mp read).choose fun there => other ?_
  exact Option.some.inj (read.symm.trans ((starts_one page needle pos).mp there))

theorem declaration_passes (notComment : ¬ (ascii "<!--").isPrefixOf (tail page start) = true)
    (declares : ((ascii "<!").isPrefixOf (tail page start) || (ascii "<?").isPrefixOf (tail page start)) = true) :
    Returns page .data start (past page (start + 2) (ascii ">")) := by
  have needle : ascii ">" = [62] := rfl
  rw [needle]
  rcases Bool.or_eq_true_iff.mp declares with bang | question
  · obtain ⟨less, read⟩ := (starts_two page 60 33 start).mp bang
    have inside := (List.getElem?_eq_some_iff.mp read).choose
    have way : Reaches markupNext page .data start .markupDeclarationOpen (start + 2) :=
      Scanner.reaches_trans markupNext page (open_tag page start less)
        (Scanner.reaches_next markupNext page _ _ (start + 1) 33 read rfl)
    refine returns_reach page way ?_
    cases third : page[start + 2]? with
    | none =>
        obtain ⟨never, last⟩ := never_past page .markupDeclarationOpen third inside
        rw [past_end page [62] (List.cons_ne_nil _ _) (by omega)]
        exact never
    | some c =>
        by_cases dash : c = 45
        · subst dash
          have thirdInside := (List.getElem?_eq_some_iff.mp third).choose
          rw [past_skip page 62 45 (start + 2) third (by decide)]
          refine returns_reach page (Scanner.reaches_next markupNext page _ .markupDeclarationDash (start + 2) 45 third rfl) ?_
          cases fourth : page[start + 3]? with
          | none =>
              obtain ⟨never, last⟩ := never_past page .markupDeclarationDash fourth thirdInside
              rw [past_end page [62] (List.cons_ne_nil _ _) (by omega)]
              exact never
          | some d =>
              have notDash : d ≠ 45 := by
                rintro rfl
                exact notComment ((starts_comment page start).mpr ⟨less, read, third, fourth⟩)
              exact returns_reach page
                (Scanner.reaches_again markupNext page _ (.bogusComment false) fourth (if_neg notDash))
                (bogus_returns false thirdInside)
        · exact returns_reach page
            (Scanner.reaches_again markupNext page _ (.bogusComment false) third (if_neg dash))
            (bogus_returns false inside)
  · obtain ⟨less, read⟩ := (starts_two page 60 63 start).mp question
    have inside := (List.getElem?_eq_some_iff.mp read).choose
    have way : Reaches markupNext page .tagOpen (start + 1) (.bogusComment false) (start + 2) :=
      .reconsume 63 (.bogusComment false) read rfl (Scanner.reaches_next markupNext page _ _ (start + 1) 63 read rfl)
    exact returns_reach page (Scanner.reaches_trans markupNext page (open_tag page start less) way)
      (bogus_returns false inside)

def Goes (state : MarkupState) (pos : Nat) : Prop :=
  (∃ after, after.inEndTag = true ∧ Reaches markupNext page state pos after (pos + 1)) ∨
    Reaches markupNext page state pos .data (pos + 1)

section Turn

variable (pos : Nat) (b : UInt8) (read : page[pos]? = some b)

include read

variable (state : MarkupState)

theorem goes_inside {after : MarkupState} (still : after.inEndTag = true) (move : markupNext pos state b = .switch after) :
    Goes page state pos := .inl ⟨after, still, Scanner.reaches_next markupNext page state after pos b read move⟩

theorem goes_data (move : markupNext pos state b = .switch .data) : Goes page state pos :=
  .inr (Scanner.reaches_next markupNext page state .data pos b read move)

theorem goes_again (after : MarkupState) (goes : Goes page after pos) (move : markupNext pos state b = .reconsume after) :
    Goes page state pos := by
  rcases goes with ⟨next, still, way⟩ | way
  · exact .inl ⟨next, still, .reconsume b after read move way⟩
  · exact .inr (.reconsume b after read move way)

theorem bogus_goes : Goes page (.bogusComment true) pos := by
  by_cases close : b = 62
  · exact goes_data page pos b read _ (if_pos close)
  · exact goes_inside page pos b read _ rfl (if_neg close)

theorem tag_name_goes : Goes page (.tagName none) pos := by
  by_cases space : isTagSpace b = true
  · exact goes_inside page pos b read _ rfl (if_pos space)
  · by_cases slash : b = 47
    · exact goes_inside page pos b read _ rfl (by rw [markupNext, if_neg space, if_pos slash])
    · by_cases close : b = 62
      · exact goes_data page pos b read _ (by rw [markupNext, if_neg space, if_neg slash, if_pos close, endOfTag])
      · exact goes_inside page pos b read _ rfl
          (by rw [markupNext, if_neg space, if_neg slash, if_neg close, Option.map_none])

theorem unquoted_goes : Goes page (.attributeValueUnquoted none) pos := by
  by_cases space : isTagSpace b = true
  · exact goes_inside page pos b read _ rfl (if_pos space)
  · by_cases close : b = 62
    · exact goes_data page pos b read _ (by rw [markupNext, if_neg space, if_pos close, endOfTag])
    · exact goes_inside page pos b read _ rfl (by rw [markupNext, if_neg space, if_neg close])

theorem quoted_goes (quote : UInt8) : Goes page (.attributeValueQuoted quote none) pos := by
  by_cases close : b = quote
  · exact goes_inside page pos b read _ rfl (if_pos close)
  · exact goes_inside page pos b read _ rfl (if_neg close)

theorem before_value_goes : Goes page (.beforeAttributeValue none) pos := by
  by_cases space : isTagSpace b = true
  · exact goes_inside page pos b read _ rfl (if_pos space)
  · by_cases quote : b = 34 ∨ b = 39
    · exact goes_inside page pos b read _ rfl (by rw [markupNext, if_neg space, if_pos quote])
    · by_cases close : b = 62
      · exact goes_data page pos b read _ (by rw [markupNext, if_neg space, if_neg quote, if_pos close, endOfTag])
      · exact goes_again page pos b read _ _ (unquoted_goes page pos b read)
          (by rw [markupNext, if_neg space, if_neg quote, if_neg close])

theorem inside_name_goes (solid : endsName b = false) : Goes page (.attributeName none) pos := by
  have notEnd := Bool.eq_false_iff.mp solid
  by_cases equals : b = 61
  · exact goes_inside page pos b read _ rfl (by rw [markupNext, if_neg notEnd, if_pos equals])
  · exact goes_inside page pos b read _ rfl (by rw [markupNext, if_neg notEnd, if_neg equals])

theorem after_name_goes : Goes page (.afterAttributeName none) pos := by
  by_cases space : isTagSpace b = true
  · exact goes_inside page pos b read _ rfl (if_pos space)
  · by_cases slash : b = 47
    · exact goes_inside page pos b read _ rfl (by rw [markupNext, if_neg space, if_pos slash])
    · by_cases equals : b = 61
      · exact goes_inside page pos b read _ rfl
          (by rw [markupNext, if_neg space, if_neg slash, if_pos equals])
      · by_cases close : b = 62
        · exact goes_data page pos b read _ (by rw [markupNext, if_neg space, if_neg slash, if_neg equals, if_pos close, endOfTag])
        · have solid : endsName b = false := by
            rw [endsName, Bool.eq_false_iff.mpr space, decide_eq_false slash, decide_eq_false close]
            rfl
          exact goes_again page pos b read _ _ (inside_name_goes page pos b read solid)
            (by rw [markupNext, if_neg space, if_neg slash, if_neg equals, if_neg close])

theorem name_goes : Goes page (.attributeName none) pos := by
  by_cases ends : endsName b = true
  · exact goes_again page pos b read _ _ (after_name_goes page pos b read) (if_pos ends)
  · exact inside_name_goes page pos b read (Bool.eq_false_iff.mpr ends)

theorem before_name_goes : Goes page (.beforeAttributeName none) pos := by
  by_cases space : isTagSpace b = true
  · exact goes_inside page pos b read _ rfl (if_pos space)
  · by_cases either : b = 47 ∨ b = 62
    · exact goes_again page pos b read _ _ (after_name_goes page pos b read) (by rw [markupNext, if_neg space, if_pos either])
    · by_cases equals : b = 61
      · exact goes_inside page pos b read _ rfl
          (by rw [markupNext, if_neg space, if_neg either, if_pos equals])
      · exact goes_again page pos b read _ _ (name_goes page pos b read)
          (by rw [markupNext, if_neg space, if_neg either, if_neg equals])

theorem self_closing_goes : Goes page (.selfClosingStartTag none) pos := by
  by_cases close : b = 62
  · exact goes_data page pos b read _ (by rw [markupNext, if_pos close, endOfTag])
  · exact goes_again page pos b read _ _ (before_name_goes page pos b read) (if_neg close)

theorem after_quoted_goes : Goes page (.afterAttributeValueQuoted none) pos := by
  by_cases space : isTagSpace b = true
  · exact goes_inside page pos b read _ rfl (if_pos space)
  · by_cases slash : b = 47
    · exact goes_inside page pos b read _ rfl (by rw [markupNext, if_neg space, if_pos slash])
    · by_cases close : b = 62
      · exact goes_data page pos b read _ (by rw [markupNext, if_neg space, if_neg slash, if_pos close, endOfTag])
      · exact goes_again page pos b read _ _ (before_name_goes page pos b read)
          (by rw [markupNext, if_neg space, if_neg slash, if_neg close])

theorem end_tag_open_goes : Goes page .endTagOpen pos := by
  by_cases letter : isAsciiAlphabetic b = true
  · exact goes_again page pos b read _ _ (tag_name_goes page pos b read) (if_pos letter)
  · by_cases close : b = 62
    · exact goes_data page pos b read _ (by rw [markupNext, if_neg letter, if_pos close])
    · exact goes_again page pos b read _ _ (bogus_goes page pos b read) (by rw [markupNext, if_neg letter, if_neg close])

theorem end_tag_goes (inside : state.inEndTag = true) : Goes page state pos := by
  have bare : ∀ tag : TagKind, tag.isNone = true → tag = none := fun tag none_ => Option.isNone_iff_eq_none.mp none_
  cases state with
  | data => cases inside
  | tagOpen => cases inside
  | endTagOpen => exact end_tag_open_goes page pos b read
  | tagName tag => exact bare tag inside ▸ tag_name_goes page pos b read
  | beforeAttributeName tag => exact bare tag inside ▸ before_name_goes page pos b read
  | attributeName tag => exact bare tag inside ▸ name_goes page pos b read
  | afterAttributeName tag => exact bare tag inside ▸ after_name_goes page pos b read
  | beforeAttributeValue tag => exact bare tag inside ▸ before_value_goes page pos b read
  | attributeValueQuoted quote tag => exact bare tag inside ▸ quoted_goes page pos b read quote
  | attributeValueUnquoted tag => exact bare tag inside ▸ unquoted_goes page pos b read
  | afterAttributeValueQuoted tag => exact bare tag inside ▸ after_quoted_goes page pos b read
  | selfClosingStartTag tag => exact bare tag inside ▸ self_closing_goes page pos b read
  | bogusComment ofEndTag =>
      cases ofEndTag with
      | true => exact bogus_goes page pos b read
      | false => cases inside
  | markupDeclarationOpen => cases inside
  | markupDeclarationDash => cases inside
  | comment state => cases inside

end Turn

theorem end_tag_walk (state : MarkupState) (pos : Nat) (inside : state.inEndTag = true) (within : pos ≤ page.length) :
    ∃ stop, pos ≤ stop ∧ stop ≤ page.length ∧ Returns page state pos stop ∧
      ∀ at_, pos ≤ at_ → at_ < stop → ∃ there, there.inEndTag = true ∧ Reaches markupNext page state pos there at_ := by
  cases read : page[pos]? with
  | none =>
      obtain ⟨never, last⟩ := never_past page state read within
      exact ⟨page.length, within, Nat.le_refl _, never, fun at_ above below => absurd below (by omega)⟩
  | some b =>
      have before := (List.getElem?_eq_some_iff.mp read).choose
      rcases end_tag_goes page pos b read state inside with ⟨after, still, way⟩ | way
      · obtain ⟨stop, above, below, returns, visits⟩ := end_tag_walk after (pos + 1) still before
        refine ⟨stop, by omega, below, returns_reach page way returns, fun at_ from_ under => ?_⟩
        by_cases here : at_ = pos
        · exact ⟨state, inside, by rw [here]; exact .here state pos⟩
        · obtain ⟨there, kept, onward⟩ := visits at_ (by omega) under
          exact ⟨there, kept, Scanner.reaches_trans markupNext page way onward⟩
      · refine ⟨pos + 1, Nat.le_succ _, before, .inl way, fun at_ from_ under => ?_⟩
        have here : at_ = pos := by omega
        exact ⟨state, inside, by rw [here]; exact .here state pos⟩
termination_by page.length - pos

theorem less_passes (less : page[start]? = some 60) (plain : opens page start = false) :
    ∃ stop, start < stop ∧ stop ≤ page.length ∧ Returns page .data start stop ∧
      ∀ at_, start < at_ → at_ < stop → opens page at_ = true →
        ∃ there, there.inEndTag = true ∧ Reaches markupNext page .data start there at_ := by
  have inside := (List.getElem?_eq_some_iff.mp less).choose
  have opened := open_tag page start less
  have kind : page[start + 1]?.any (fun b => isAsciiAlphabetic b || b = 33 || b = 63) = false := by
    rw [opens, less] at plain
    simpa using plain
  cases read : page[start + 1]? with
  | none =>
      obtain ⟨never, last⟩ := never_past page .tagOpen read inside
      exact ⟨page.length, by omega, Nat.le_refl _, returns_reach page opened never, fun at_ above below => absurd below (by omega)⟩
  | some b =>
      rw [read, Option.any_some, Bool.or_eq_false_iff, Bool.or_eq_false_iff] at kind
      obtain ⟨⟨letter, bang⟩, question⟩ := kind
      have notBang := of_decide_eq_false bang
      have notQuestion := of_decide_eq_false question
      have before := (List.getElem?_eq_some_iff.mp read).choose
      by_cases slash : b = 47
      · subst slash
        have way := Scanner.reaches_trans markupNext page opened
          (Scanner.reaches_next markupNext page _ .endTagOpen (start + 1) 47 read rfl)
        obtain ⟨stop, above, below, returns, visits⟩ := end_tag_walk page .endTagOpen (start + 2) rfl before
        refine ⟨stop, by omega, below, returns_reach page way returns, fun at_ from_ under begins => ?_⟩
        by_cases here : at_ = start + 1
        · rw [here, opens, read] at begins
          cases begins
        · obtain ⟨there, kept, onward⟩ := visits at_ (by omega) under
          exact ⟨there, kept, Scanner.reaches_trans markupNext page way onward⟩
      · have back : Reaches markupNext page .data start .data (start + 1) := by
          refine Scanner.reaches_trans markupNext page opened (Scanner.reaches_again markupNext page _ _ read ?_)
          rw [markupNext, if_neg notBang, if_neg slash, if_neg (Bool.eq_false_iff.mp letter), if_neg notQuestion]
        exact ⟨start + 1, Nat.lt_succ_self _, inside, .inl back, fun at_ above below => absurd below (by omega)⟩

end Filefacts.Html

namespace Filefacts.Html

open Filefacts.Bytes (ascii isAsciiAlphabetic toAsciiLower)
open Filefacts.Scanner (Leaves Reaches)

section Raw

variable (page element : List UInt8)

def RawAlike (one : RawState) (pos : Nat) (other : RawState) (later : Nat) : Prop :=
  ∀ close, Leaves (rawNext element) page one pos close ↔ Leaves (rawNext element) page other later close

theorem raw_past (one other : RawState) {pos : Nat} (past : page[pos]? = none) : RawAlike page element one pos other pos := fun close =>
  iff_of_false (Scanner.leaves_past (rawNext element) page one pos close past)
    (Scanner.leaves_past (rawNext element) page other pos close past)

variable (pos : Nat)

theorem raw_text (b : UInt8) (read : page[pos]? = some b) (plain : b ≠ 60) : RawAlike page element .text pos .text (pos + 1) :=
  fun close => Scanner.leaves_switch (rawNext element) page _ _ close read (if_neg plain)

theorem raw_less (read : page[pos]? = some 60) (other : page[pos + 1]? ≠ some 47) :
    RawAlike page element .text pos .text (pos + 1) := by
  intro close
  rw [Scanner.leaves_switch (rawNext element) page .text (.lessThanSign pos) close read rfl]
  cases second : page[pos + 1]? with
  | none => exact raw_past page element _ _ second close
  | some b =>
      have different : b ≠ 47 := fun same => other (by rw [second, same])
      exact Scanner.leaves_reconsume (rawNext element) page _ _ (pos + 1) b close second (if_neg different)

theorem raw_next (b : UInt8) (read : page[pos]? = some b) (other : ¬ (ascii "</").isPrefixOf (tail page pos) = true) :
    RawAlike page element .text pos .text (pos + 1) := by
  by_cases less : b = 60
  · subst less
    exact raw_less page element pos read fun slash => other ((starts_two page 60 47 pos).mpr ⟨read, slash⟩)
  · exact raw_text page element pos b read less

theorem raw_name (nonempty : element ≠ []) (pos : Nat) (first : page[pos]? = some 60) (second : page[pos + 1]? = some 47) (close : Nat) :
    Leaves (rawNext element) page .text pos close ↔
      Leaves (rawNext element) page (.endTagName pos ((nameAt page (pos + 2)).map toAsciiLower))
        (pos + 2 + (nameAt page (pos + 2)).length) close := by
  have opened : Leaves (rawNext element) page .text pos close ↔ Leaves (rawNext element) page (.endTagOpen pos) (pos + 2) close := by
    rw [Scanner.leaves_switch (rawNext element) page .text (.lessThanSign pos) close first rfl,
      Scanner.leaves_switch (rawNext element) page (.lessThanSign pos) (.endTagOpen pos) close second rfl]
  have named : Leaves (rawNext element) page (.endTagOpen pos) (pos + 2) close ↔
      Leaves (rawNext element) page (.endTagName pos []) (pos + 2) close := by
    cases read : page[pos + 2]? with
    | none => exact raw_past page element _ _ read close
    | some b =>
        by_cases letter : isAsciiAlphabetic b = true
        · exact Scanner.leaves_reconsume (rawNext element) page _ _ (pos + 2) b close read (if_pos letter)
        · have notElement : ¬ (endsName b = true ∧ [] = element) := fun both => nonempty both.2.symm
          rw [Scanner.leaves_reconsume (rawNext element) page (.endTagOpen pos) .text (pos + 2) b close read (if_neg letter)]
          refine (Scanner.leaves_reconsume (rawNext element) page (.endTagName pos []) .text (pos + 2) b close read ?_).symm
          rw [rawNext, if_neg notElement, if_neg letter]
  have run := Scanner.leaves_run (rawNext element) page (fun held => .endTagName pos (held.map toAsciiLower)) [] close (name_drop page (pos + 2)) (by
      intro at_ held b member
      have letter := name_letters page (pos + 2) b member
      have notEnd : ¬ (endsName b = true ∧ held.map toAsciiLower = element) := by
        rw [(letter_not_delimiter b letter).2.2.2.2.2]
        exact fun both => Bool.false_ne_true both.1
      rw [rawNext, if_neg notEnd, if_pos letter, List.map_append]
      rfl)
  rw [opened, named]
  simpa only [List.map_nil, List.nil_append] using run

theorem raw_letters : RawAlike page element .text pos .text (pos + (nameAt page pos).length) := fun close =>
  Scanner.leaves_skip (rawNext element) page .text close (name_drop page pos) fun _ b member =>
    if_neg (letter_not_delimiter b (name_letters page pos b member)).2.2.2.1

def Cut (close : Nat) : Prop :=
  page[close]? = some 60 ∧ page[close + 1]? = some 47 ∧ page[close + 2 + (nameAt page (close + 2)).length]? = none

theorem cut_opens (close : Nat) (cut : Cut page close) (pos : Nat) (above : close ≤ pos) : opens page pos = false := by
  obtain ⟨first, second, last⟩ := cut
  have less : page[pos]? = some 60 → pos = close := by
    intro read
    by_contra other
    by_cases next : pos = close + 1
    · rw [next, second] at read
      cases read
    · have inside : pos < close + 2 + (nameAt page (close + 2)).length := by
        have outside := List.getElem?_eq_none_iff.mp last
        have before := (List.getElem?_eq_some_iff.mp read).choose
        omega
      obtain ⟨b, there, letter⟩ := stretch_inside page isAsciiAlphabetic (close + 2) pos (by omega) inside
      rw [read] at there
      cases there
      cases letter
  rw [opens]
  by_cases read : page[pos]? = some 60
  · rw [less read, second]
    exact Bool.and_false _
  · rw [decide_eq_false read, Bool.false_and]

-- What an offset, or none, says of the text from a position on.
def RawWhere (pos : Nat) : Option Nat → Prop
  | some close =>
      (∀ stop, RawEnds page element pos stop ↔ stop = close) ∨ ((∀ stop, ¬ RawEnds page element pos stop) ∧ Cut page close)
  | none => ∀ stop, ¬ RawEnds page element pos stop

theorem raw_where_congr {pos later : Nat} {result : Option Nat} (alike : ∀ stop, RawEnds page element pos stop ↔ RawEnds page element later stop)
    (there : RawWhere page element later result) : RawWhere page element pos result := by
  cases result with
  | none => exact fun stop ends => there stop ((alike stop).mp ends)
  | some close =>
      rcases there with exactly | ⟨never, cut⟩
      · exact .inl fun stop => (alike stop).trans (exactly stop)
      · exact .inr ⟨fun stop ends => never stop ((alike stop).mp ends), cut⟩

variable (name : List UInt8) (letters : ∀ b ∈ name, isAsciiAlphabetic b = true) (nonempty : name ≠ [])
  (spelt : name.map toAsciiLower = element)

include letters nonempty spelt

theorem raw_end_tag (pos : Nat) (found : isEndTag page pos name = true) : RawWhere page element pos (some pos) := by
  obtain ⟨first, second, lower, ends⟩ := (named_end_tag_iff page name pos letters).mp found
  have filled : element ≠ [] := fun empty => nonempty (List.map_eq_nil_iff.mp (spelt.trans empty))
  have length : (nameAt page (pos + 2)).length = name.length := by
    have lengths := congrArg List.length lower
    rwa [List.length_map, List.length_map] at lengths
  have held := raw_name page element filled pos first second
  cases read : page[pos + 2 + (nameAt page (pos + 2)).length]? with
  | none =>
      refine .inr ⟨fun stop leaves => ?_, first, second, read⟩
      exact Scanner.leaves_past (rawNext element) page _ _ stop read ((held stop).mp leaves)
  | some b =>
      rw [length] at read
      rw [read, Option.all_some] at ends
      rw [← length] at read
      refine .inl fun stop => (held stop).trans ?_
      apply Scanner.leaves_leave (rawNext element) page _ _ stop read
      rw [rawNext, if_pos ⟨ends, lower.trans spelt⟩]

theorem raw_no_end_tag (pos : Nat) (opened : (ascii "</").isPrefixOf (tail page pos) = true) (other : ¬ isEndTag page pos name = true) :
    RawAlike page element .text pos .text (pos + 2) := by
  obtain ⟨first, second⟩ := (starts_two page 60 47 pos).mp opened
  have filled : element ≠ [] := fun empty => nonempty (List.map_eq_nil_iff.mp (spelt.trans empty))
  intro close
  rw [raw_name page element filled pos first second close, raw_letters page element (pos + 2) close]
  cases read : page[pos + 2 + (nameAt page (pos + 2)).length]? with
  | none => exact raw_past page element _ _ read close
  | some b =>
      have stops := name_ends page (pos + 2) b read
      have refused : ¬ (endsName b = true ∧ (nameAt page (pos + 2)).map toAsciiLower = element) := by
        rintro ⟨ends, lower⟩
        have same := lower.trans spelt.symm
        have length : (nameAt page (pos + 2)).length = name.length := by
          have lengths := congrArg List.length same
          rwa [List.length_map, List.length_map] at lengths
        refine other ((named_end_tag_iff page name pos letters).mpr ⟨first, second, same, ?_⟩)
        rw [← length, read]
        exact ends
      apply Scanner.leaves_reconsume (rawNext element) page _ _ _ b close read
      rw [rawNext, if_neg refused, if_neg (Bool.eq_false_iff.mp stops)]

theorem end_tag_from_where (fuel pos : Nat) (enough : page.length < fuel + pos) :
    RawWhere page element pos (endTagFrom page name fuel pos) := by
  by_cases inside : pos < page.length
  · obtain ⟨fuel, rfl⟩ : ∃ less, fuel = less + 1 := ⟨fuel - 1, by omega⟩
    have read : page[pos]? = some page[pos] := List.getElem?_eq_getElem inside
    have rest : tail page pos = page[pos] :: tail page (pos + 1) := List.drop_eq_getElem_cons inside
    by_cases opened : (ascii "</").isPrefixOf (tail page pos) = true
    · have found : memmem (ascii "</") (tail page pos) = some 0 := by
        rw [rest] at opened ⊢
        rw [memmem, if_pos opened]
      rw [endTagFrom, found, Option.bind_some, Nat.add_zero]
      by_cases ends : isEndTag page pos name = true
      · rw [if_pos ends]
        exact raw_end_tag page element name letters nonempty spelt pos ends
      · rw [if_neg ends]
        exact raw_where_congr page element (raw_no_end_tag page element name letters nonempty spelt pos opened ends)
          (end_tag_from_where fuel (pos + 2) (by omega))
    · have shifted : memmem (ascii "</") (tail page pos) = (memmem (ascii "</") (tail page (pos + 1))).map (· + 1) := by
        rw [rest] at opened ⊢
        rw [memmem, if_neg opened]
      have same : endTagFrom page name (fuel + 1) pos = endTagFrom page name (fuel + 1) (pos + 1) := by
        rw [endTagFrom, endTagFrom, shifted]
        cases memmem (ascii "</") (tail page (pos + 1)) with
        | none => rfl
        | some found =>
            rw [Option.map_some, Option.bind_some, Option.bind_some, Nat.add_comm found 1, ← Nat.add_assoc]
      rw [same]
      exact raw_where_congr page element (raw_next page element pos page[pos] read opened)
        (end_tag_from_where (fuel + 1) (pos + 1) (by omega))
  · have none_ : page[pos]? = none := List.getElem?_eq_none_iff.mpr (by omega)
    have nothing : endTagFrom page name fuel pos = none := by
      cases fuel with
      | zero => rfl
      | succ fuel =>
          rw [endTagFrom, tail, List.drop_eq_nil_iff.mpr (by omega)]
          rfl
    rw [nothing]
    exact fun stop => Scanner.leaves_past (rawNext element) page _ pos stop none_
termination_by page.length - pos

end Raw

end Filefacts.Html
