import Filefacts.Html.Attributes

set_option autoImplicit false

namespace Filefacts.Html

open Filefacts.Bytes (ascii isAsciiAlphabetic toAsciiLower eqIgnoreAsciiCase)
open Filefacts.Rar (Text fromUtf8Lossy)
open Filefacts.Scanner (Leaves Reaches)

def typeName : List UInt8 := ascii "type"

def languageName : List UInt8 := ascii "language"

def written (value : List UInt8) : Text := lowercase (fromUtf8Lossy value)

def given (attrs : List Attribute) (name : List UInt8) : Option (List UInt8) :=
  attrs.findSome? fun attr => if attr.name = name then attr.value else none

structure TagHolds (tag : Tag) (attrs : List Attribute) : Prop where
  kind : tag.kind = (given attrs typeName).map written
  language : tag.language = (given attrs languageName).map written

theorem given_cons (attr : Attribute) (attrs : List Attribute) (name : List UInt8) :
    given (attr :: attrs) name = ((if attr.name = name then attr.value else none).or (given attrs name)) := by
  rw [given, List.findSome?_cons]
  cases (if attr.name = name then attr.value else none) <;> rfl

theorem eq_ignore_case (attr : List UInt8) {name : List UInt8} (lower : name.map toAsciiLower = name) :
    eqIgnoreAsciiCase attr name = true ↔ attr.map toAsciiLower = name := by
  rw [eqIgnoreAsciiCase, decide_eq_true_iff, Bytes.toAsciiLowercase, Bytes.toAsciiLowercase, lower]

variable {attrs : List Attribute}

theorem holds_attribute {tag : Tag} (attr value : List UInt8) (holds : TagHolds tag attrs) :
    TagHolds (tag.attribute attr value) (⟨attr.map toAsciiLower, some value⟩ :: attrs) := by
  have isType : eqIgnoreAsciiCase attr (ascii "type") = true ↔ attr.map toAsciiLower = typeName :=
    eq_ignore_case attr (by decide)
  have isLanguage : eqIgnoreAsciiCase attr (ascii "language") = true ↔ attr.map toAsciiLower = languageName :=
    eq_ignore_case attr (by decide)
  have apart : typeName ≠ languageName := by decide
  rw [Tag.attribute]
  by_cases kind : attr.map toAsciiLower = typeName
  · rw [if_pos (isType.mpr kind)]
    refine ⟨?_, ?_⟩
    · rw [given_cons, if_pos kind]
      rfl
    · rw [given_cons, if_neg (kind ▸ apart)]
      exact holds.language
  · rw [if_neg fun same => kind (isType.mp same)]
    by_cases language : attr.map toAsciiLower = languageName
    · rw [if_pos (isLanguage.mpr language)]
      refine ⟨?_, ?_⟩
      · rw [given_cons, if_neg kind]
        exact holds.kind
      · rw [given_cons, if_pos language]
        rfl
    · rw [if_neg fun same => language (isLanguage.mp same)]
      refine ⟨?_, ?_⟩
      · rw [given_cons, if_neg kind]
        exact holds.kind
      · rw [given_cons, if_neg language]
        exact holds.language

theorem holds_valueless (tag : Tag) (attrs : List Attribute) (name : List UInt8) (holds : TagHolds tag attrs) :
    TagHolds tag (⟨name, none⟩ :: attrs) := by
  refine ⟨?_, ?_⟩
  · rw [given_cons, ite_self]
    exact holds.kind
  · rw [given_cons, ite_self]
    exact holds.language

def BareTag (page : List UInt8) (state : TagState) (i : Nat) : Prop :=
  ∀ attrs pos, Reaches tagNext page state i (.beforeName attrs) pos → page[pos]? ≠ some 61

variable (page : List UInt8) (state : TagState)

variable {after : TagState} {i j : Nat}

theorem bare_tag_reach (way : Reaches tagNext page state i after j) (bare : BareTag page state i) : BareTag page after j :=
  fun attrs pos there => bare attrs pos (Scanner.reaches_trans tagNext page way there)

-- The tag ends where the tokenizer ends it, and keeps what was given last.
def Collects (page : List UInt8) (state : TagState) (i : Nat) (out : Tag) : Prop :=
  (∀ stop, out.stop = some stop → ∃ attrs, Leaves tagNext page state i (attrs.reverse, stop) ∧ TagHolds out attrs) ∧
    (out.stop = none → ∀ left, ¬ Leaves tagNext page state i left)

theorem collects_reach {out : Tag}
    (way : Reaches tagNext page state i after j) (collects : Collects page after j out) : Collects page state i out := by
  refine ⟨fun stop found => ?_, fun none_ left leaves => ?_⟩
  · obtain ⟨attrs, leaves, holds⟩ := collects.1 stop found
    exact ⟨attrs, (Scanner.reaches_leaves tagNext page _ _ way).mpr leaves, holds⟩
  · exact collects.2 none_ left ((Scanner.reaches_leaves tagNext page _ _ way).mp leaves)

theorem collects_never (i : Nat) (out : Tag) (none_ : out.stop = none)
    (never : ∀ left, ¬ Leaves tagNext page state i left) : Collects page state i out :=
  ⟨fun stop found => (by rw [none_] at found; cases found), fun _ => never⟩

theorem attributes_collect (fuel : Nat) :
    ∀ (tag : Tag) (attrs : List Attribute) (state : TagState) (begun : Nat), page.length < fuel + begun → begun ≤ page.length → TagTop page attrs state begun → BareTag page state begun →
    tag.stop = none → TagHolds tag attrs → Collects page state begun (attributes page fuel tag begun) := by
  induction fuel with
  | zero =>
      intro tag attrs state begun enough inside _ _ _ _
      omega
  | succ fuel hypothesis =>
      intro tag attrs state begun enough inside top bare open_ holds
      obtain ⟨after, skipped, topAfter⟩ := tag_top_skip page attrs state begun top
      have above := skip_above page begun
      have solid := skip_stops page begun
      refine collects_reach page state skipped ?_
      have bareAfter := bare_tag_reach page state skipped bare
      rw [attributes]
      simp only
      cases read : page[skipSpace page begun]? with
      | none => exact collects_never page after _ tag open_ fun out => Scanner.leaves_past tagNext page after _ out read
      | some b =>
          have within := (List.getElem?_eq_some_iff.mp read).choose
          simp only
          by_cases close : b = 62
          · subst close
            rw [if_pos rfl]
            refine ⟨fun stop found => ?_, fun none_ => (by cases none_)⟩
            cases found
            exact ⟨attrs, tag_top_close page attrs after _ topAfter read, ⟨holds.kind, holds.language⟩⟩
          · rw [if_neg close]
            by_cases slash : b = 47
            · subst slash
              rw [if_pos rfl]
              have way := tag_top_slash page attrs after _ topAfter read
              exact collects_reach page after way (hypothesis tag attrs _ _ (by omega) (by omega) .selfClosing
                (bare_tag_reach page after way bareAfter) open_ holds)
            · rw [if_neg slash]
              have notEquals : b ≠ 61 := by
                rintro rfl
                exact bareAfter _ _ (tag_top_equals page attrs after _ topAfter read) read
              have begins : inAttribute b = true := by
                rw [read, Option.all_some] at solid
                rw [inAttribute, solid, decide_eq_true notEquals, decide_eq_true close, decide_eq_true slash]
                rfl
              have begin_ := tag_top_attribute page attrs after _ topAfter b read begins
              have further : skipSpace page begun < attributeEnd page (skipSpace page begun) := by
                have more := stretch_more page inAttribute _ b read begins
                have later := stretch_above page inAttribute (skipSpace page begun + 1)
                have fold : stretchEnd page inAttribute (skipSpace page begun) = attributeEnd page (skipSpace page begun) := rfl
                omega
              have nameBound : attributeEnd page (skipSpace page begun) ≤ page.length :=
                stretch_bound page inAttribute (skipSpace page begun) (Nat.le_of_lt within)
              have spaceBound : skipSpace page (attributeEnd page (skipSpace page begun)) ≤ page.length :=
                stretch_bound page isTagSpace _ nameBound
              have spaced := skip_above page (attributeEnd page (skipSpace page begun))
              obtain ⟨valued, nameOnly⟩ := tag_name_reaches page attrs (skipSpace page begun) (Nat.le_of_lt within)
              by_cases equals : page[skipSpace page (attributeEnd page (skipSpace page begun))]? = some 61
              · rw [if_pos equals]
                have equalsInside := (List.getElem?_eq_some_iff.mp equals).choose
                have toValue := Scanner.reaches_trans tagNext page begin_ (valued equals)
                have toSkipped := Scanner.reaches_trans tagNext page toValue
                  (tag_value_skip page _ (skipSpace page (attributeEnd page (skipSpace page begun)) + 1))
                have valueAbove := skip_above page (skipSpace page (attributeEnd page (skipSpace page begun)) + 1)
                have valueSolid := skip_stops page (skipSpace page (attributeEnd page (skipSpace page begun)) + 1)
                have valueBound : skipSpace page (skipSpace page (attributeEnd page (skipSpace page begun)) + 1) ≤ page.length :=
                  stretch_bound page isTagSpace _ equalsInside
                revert toSkipped valueAbove valueSolid valueBound
                generalize skipSpace page (skipSpace page (attributeEnd page (skipSpace page begun)) + 1) = v
                intro toSkipped valueAbove valueSolid valueBound
                cases quoteRead : page[v]?.filter isQuote with
                | some quote =>
                    simp only
                    have isRead : page[v]? = some quote ∧ isQuote quote = true := Option.filter_eq_some_iff.mp quoteRead
                    have quoteInside := (List.getElem?_eq_some_iff.mp isRead.1).choose
                    have opened : Reaches tagNext page (.beforeValue (⟨spanned page (skipSpace page begun), some []⟩ :: attrs)) v
                        (.quoted quote (⟨spanned page (skipSpace page begun), some []⟩ :: attrs)) (v + 1) := by
                      apply Scanner.reaches_next tagNext page _ _ v quote isRead.1
                      have either : quote = 34 ∨ quote = 39 := by simpa [isQuote] using isRead.2
                      have notSpace : ¬ isTagSpace quote = true := by
                        rcases either with rfl | rfl <;> decide
                      rw [tagNext, if_neg notSpace, if_pos either]
                    have toQuoted := Scanner.reaches_trans tagNext page toSkipped opened
                    cases found : memchr quote (tail page (v + 1)) with
                    | none =>
                        apply collects_never page after _ tag open_
                        intro out leaves
                        exact tag_quoted_stays page attrs (v + 1) _ quote out quoteInside found
                          ((Scanner.reaches_leaves tagNext page _ _ toQuoted).mp leaves)
                    | some len =>
                        have ended := (List.getElem?_eq_some_iff.mp (memchr_stretch found).2).choose
                        have way := Scanner.reaches_trans tagNext page toQuoted
                          (tag_quoted_reaches page attrs (v + 1) _ quote len quoteInside found)
                        exact collects_reach page after way (hypothesis _ _ _ _ (by omega) (by omega) .quoted
                          (bare_tag_reach page after way bareAfter) ((attribute_stop tag _ _).trans open_)
                          (holds_attribute _ _ holds))
                | none =>
                    simp only
                    obtain ⟨state', ran, topNext⟩ := tag_unquoted_reaches page attrs v _ valueBound quoteRead valueSolid
                    have way := Scanner.reaches_trans tagNext page toSkipped ran
                    have onward := stretch_above page inValue v
                    have fold : stretchEnd page inValue v = valueEnd page v := rfl
                    have endBound : valueEnd page v ≤ page.length := stretch_bound page inValue v valueBound
                    exact collects_reach page after way (hypothesis _ _ _ _ (by omega) endBound topNext
                      (bare_tag_reach page after way bareAfter) ((attribute_stop tag _ _).trans open_)
                      (holds_attribute _ _ holds))
              · rw [if_neg equals]
                obtain ⟨state', ran, topNext⟩ := nameOnly equals
                have way := Scanner.reaches_trans tagNext page begin_ ran
                exact collects_reach page after way (hypothesis tag _ _ _ (by omega) spaceBound topNext
                  (bare_tag_reach page after way bareAfter) open_ (holds_valueless tag attrs _ holds))

open Filefacts.Bytes (ascii isAsciiAlphabetic)
open Filefacts.Rar (Text fromUtf8Lossy)
open Filefacts.Scanner (Leaves Reaches)

-- The value of the first attribute of a name, the later ones being dropped.
-- The meaning of its octets is left open: character references, NUL and CR.
def firstValue (meaning : List UInt8 → Text) (attrs : List Attribute) (name : List UInt8) : Option Text :=
  (attrs.find? fun attr => decide (attr.name = name)).map fun attr => (attr.value.map meaning).getD []

-- The steps of the standard that prepare a script element, up to its type.
def prepare (kind language : Option Text) : Option ScriptScope :=
  if kind = some [] ∨ (kind = none ∧ language.getD [] = []) then some .classic
  else scopeOf (lowercase (kind.elim (text "text/" ++ language.getD []) trimMatches))

def Settled (meaning : List UInt8 → Text) (attrs : List Attribute) (name : List UInt8) : Prop :=
  (given attrs.reverse name).map written = (firstValue meaning attrs name).map lowercase

def Opens (page : List UInt8) (start : Nat) (attrs : List Attribute) (stop : Nat) : Prop :=
  Leaves tagNext page .tagName (start + 1) (attrs, stop)

structure Reads (meaning : List UInt8 → Text) (page : List UInt8) (start : Nat) (tag : Tag) : Prop where
  stop : ∀ stop, tag.stop = some stop ↔ ∃ attrs, Opens page start attrs stop
  kind : ∀ attrs stop, Opens page start attrs stop → tag.kind = (firstValue meaning attrs typeName).map lowercase
  language : ∀ attrs stop, Opens page start attrs stop → tag.language = (firstValue meaning attrs languageName).map lowercase

theorem lowercase_trimmed (c : Nat) : isTrimmed (if 65 ≤ c ∧ c ≤ 90 then c + 32 else c) = isTrimmed c := by
  by_cases upper : 65 ≤ c ∧ c ≤ 90
  · have high : ∀ d, 64 < d → isTrimmed d = false := by
      intro d above
      simp only [isTrimmed, Bool.or_eq_false_iff, decide_eq_false_iff_not]
      omega
    rw [if_pos upper, high c (by omega), high (c + 32) (by omega)]
  · rw [if_neg upper]

variable (value : Text)

theorem lowercase_drop : (lowercase value).dropWhile isTrimmed = lowercase (value.dropWhile isTrimmed) := by
  induction value with
  | nil => rfl
  | cons c value hypothesis =>
      rw [lowercase, List.map_cons, List.dropWhile_cons, List.dropWhile_cons, lowercase_trimmed]
      cases isTrimmed c with
      | true => exact hypothesis
      | false => rfl

theorem lowercase_reverse : (lowercase value).reverse = lowercase value.reverse := List.map_reverse.symm

theorem lowercase_trim : trimMatches (lowercase value) = lowercase (trimMatches value) := by
  rw [trimMatches, trimMatches, lowercase_drop, lowercase_reverse, lowercase_drop, lowercase_reverse]

theorem lowercase_empty : lowercase value = [] ↔ value = [] := List.map_eq_nil_iff

theorem scope_prepared (kind language : Option Text) :
    scriptScope (kind.map lowercase) (language.map lowercase) = prepare kind language := by
  cases kind with
  | some kind =>
      rw [Option.map_some, scriptScope, prepare]
      by_cases empty : kind = []
      · rw [if_pos ((lowercase_empty kind).mpr empty), if_pos (.inl (congrArg some empty))]
      · rw [if_neg fun lower => empty ((lowercase_empty kind).mp lower), lowercase_trim, if_neg]
        · rfl
        · rintro (same | none_)
          · exact empty (Option.some.inj same)
          · cases none_.1
  | none =>
      cases language with
      | none => rfl
      | some language =>
          rw [Option.map_none, Option.map_some, scriptScope, prepare, Option.getD_some]
          by_cases empty : language = []
          · rw [if_pos ((lowercase_empty language).mpr empty), if_pos (.inr ⟨rfl, empty⟩)]
          · rw [if_neg fun lower => empty ((lowercase_empty language).mp lower), if_neg]
            · rw [Option.elim_none, lowercase, lowercase, List.map_append]
              rfl
            · rintro (same | both)
              · cases same
              · exact empty both.2

theorem name_over (start : Nat) (inside : start + 1 ≤ page.length) (c : UInt8)
    (read : page[nameEnd page (start + 1)]? = some c) : endsName c = true := by
  have stops := stretch_stops page inName (start + 1)
  rw [← name_end_stretch page inside, read, Option.all_some, inName, Bool.not_not] at stops
  exact stops

theorem name_top (start : Nat) (inside : start + 1 ≤ page.length) : TagTop page [] .tagName (nameEnd page (start + 1)) := by
  cases there : page[nameEnd page (start + 1)]? with
  | none => exact .past there
  | some c => exact .named c there (name_over page start inside c there) rfl

theorem start_tag_collects (start : Nat) (letter : page[start + 1]?.any isAsciiAlphabetic = true)
    (bare : BareTag page .tagName (start + 1)) :
    ∃ tag, startTag page start = some tag ∧ Collects page .tagName (start + 1) tag := by
  obtain ⟨b, read, isLetter⟩ := Option.any_eq_true _ _ |>.mp letter
  have inside := (List.getElem?_eq_some_iff.mp read).choose
  have ends := name_end_stretch page (Nat.le_of_lt inside)
  have bound : nameEnd page (start + 1) ≤ page.length := by
    rw [ends]
    exact stretch_bound page inName (start + 1) (Nat.le_of_lt inside)
  have way : Reaches tagNext page .tagName (start + 1) .tagName (nameEnd page (start + 1)) := by
    rw [ends]
    refine tag_stretch page inName (start + 1) .tagName fun pos c passes => ?_
    rw [inName, Bool.not_eq_true', endsName, Bool.or_eq_false_iff, Bool.or_eq_false_iff] at passes
    obtain ⟨⟨space, slash⟩, close⟩ := passes
    rw [tagNext, if_neg (Bool.eq_false_iff.mp space), if_neg (of_decide_eq_false slash), if_neg (of_decide_eq_false close)]
  have top := name_top page start (Nat.le_of_lt inside)
  refine ⟨_, if_pos letter, collects_reach page .tagName way ?_⟩
  exact attributes_collect page (page.length + 1) _ [] .tagName (nameEnd page (start + 1)) (by omega) bound top
    (bare_tag_reach page .tagName way bare) rfl ⟨rfl, rfl⟩

theorem opens_unique {start : Nat} {others : List Attribute} {stop other : Nat}
    (opens_ : Opens page start attrs stop) (again : Opens page start others other) : attrs = others ∧ stop = other :=
  Prod.mk.inj (Scanner.leaves_unique tagNext page _ _ _ _ opens_ again)

section Collected

variable (page : List UInt8) (start : Nat) (tag : Tag) (collects : Collects page .tagName (start + 1) tag)

include collects

theorem collects_stop (stop : Nat) : tag.stop = some stop ↔ ∃ attrs, Opens page start attrs stop := by
  constructor
  · intro found
    obtain ⟨attrs, leaves, _⟩ := collects.1 stop found
    exact ⟨attrs.reverse, leaves⟩
  · rintro ⟨attrs, leaves⟩
    cases found : tag.stop with
    | none => exact absurd leaves (collects.2 found _)
    | some other =>
        obtain ⟨others, again, _⟩ := collects.1 other found
        rw [(opens_unique page leaves again).2]

theorem collects_values (attrs : List Attribute) (stop : Nat) (leaves : Opens page start attrs stop) :
    tag.kind = (given attrs.reverse typeName).map written ∧ tag.language = (given attrs.reverse languageName).map written := by
  obtain ⟨others, again, holds⟩ := collects.1 stop ((collects_stop page start tag collects stop).mpr ⟨attrs, leaves⟩)
  obtain ⟨rfl, _⟩ := opens_unique page leaves again
  rw [List.reverse_reverse]
  exact ⟨holds.kind, holds.language⟩

end Collected

theorem start_tag_reads (meaning : List UInt8 → Text) (page : List UInt8) (start : Nat)
    (letter : page[start + 1]?.any isAsciiAlphabetic = true) (bare : BareTag page .tagName (start + 1)) :
    ∃ tag, startTag page start = some tag ∧
      (Reads meaning page start tag ↔ ∀ attrs stop, Opens page start attrs stop →
        Settled meaning attrs typeName ∧ Settled meaning attrs languageName) ∧
      ∀ attrs stop, Opens page start attrs stop → Settled meaning attrs typeName → Settled meaning attrs languageName →
        scriptScope tag.kind tag.language = prepare (firstValue meaning attrs typeName) (firstValue meaning attrs languageName) := by
  obtain ⟨tag, found, collects⟩ := start_tag_collects page start letter bare
  have values := collects_values page start tag collects
  refine ⟨tag, found, ⟨?_, ?_⟩, ?_⟩
  · intro reads attrs stop leaves
    obtain ⟨kind, language⟩ := values attrs stop leaves
    exact ⟨kind.symm.trans (reads.kind attrs stop leaves), language.symm.trans (reads.language attrs stop leaves)⟩
  · intro settled
    refine ⟨collects_stop page start tag collects, ?_, ?_⟩
    · intro attrs stop leaves
      exact (values attrs stop leaves).1.trans (settled attrs stop leaves).1
    · intro attrs stop leaves
      exact (values attrs stop leaves).2.trans (settled attrs stop leaves).2
  · intro attrs stop leaves kind language
    obtain ⟨isKind, isLanguage⟩ := values attrs stop leaves
    rw [isKind.trans kind, isLanguage.trans language, scope_prepared]

def TagState.isBeforeName : TagState → Bool
  | .beforeName _ => true
  | _ => false

theorem bare_tag_trace (fuel : Nat) (state : TagState) (i : Nat) (result : Option (List Attribute × Nat))
    (ran : Scanner.scan tagNext page fuel state i = some result)
    (passed : ∀ visit ∈ Scanner.trace tagNext page fuel state i, visit.1.isBeforeName = true → page[visit.2]? ≠ some 61) :
    BareTag page state i :=
  fun attrs pos way => passed _ (Scanner.reaches_trace tagNext page fuel state _ i pos result ran way) rfl

def agreedTypes : List UInt8 := ascii "<script type=module TYPE=Module language=vbscript>"

theorem start_tag_reads_agreed : ∃ tag, startTag agreedTypes 0 = some tag ∧ Reads fromUtf8Lossy agreedTypes 0 tag ∧
    scriptScope tag.kind tag.language = some .module := by
  have ran : Scanner.scan tagNext agreedTypes 100 .tagName 1 =
      some (some ([⟨ascii "type", some (ascii "module")⟩, ⟨ascii "type", some (ascii "Module")⟩,
        ⟨ascii "language", some (ascii "vbscript")⟩], 50)) := by decide +kernel
  have bare : BareTag agreedTypes .tagName 1 := bare_tag_trace agreedTypes 100 .tagName 1 _ ran (by decide +kernel)
  have left : ∀ out, Leaves tagNext agreedTypes .tagName 1 out ↔ _ = some out := fun out =>
    Scanner.scan_leaves tagNext agreedTypes 100 .tagName 1 _ out ran
  obtain ⟨tag, found, reads, scope⟩ := start_tag_reads fromUtf8Lossy agreedTypes 0 (by decide) bare
  have settled : ∀ attrs stop, Opens agreedTypes 0 attrs stop →
      Settled fromUtf8Lossy attrs typeName ∧ Settled fromUtf8Lossy attrs languageName := by
    intro attrs stop opens_
    cases (left (attrs, stop)).mp opens_
    unfold Settled
    decide +kernel
  refine ⟨tag, found, reads.mpr settled, ?_⟩
  have opens_ := (left _).mpr rfl
  obtain ⟨kind, language⟩ := settled _ _ opens_
  rw [scope _ _ opens_ kind language]
  decide +kernel

def repeatedType : List UInt8 := ascii "<script type=module type=x>"

-- The browser runs a module where `start_tag` sees a data block.
theorem repeated_type_hides : ∃ tag attrs stop, startTag repeatedType 0 = some tag ∧ Opens repeatedType 0 attrs stop ∧
    ¬ Reads fromUtf8Lossy repeatedType 0 tag ∧ scriptScope tag.kind tag.language = none ∧
    prepare (firstValue fromUtf8Lossy attrs typeName) (firstValue fromUtf8Lossy attrs languageName) = some .module := by
  have ran : Scanner.scan tagNext repeatedType 100 .tagName 1 =
      some (some ([⟨ascii "type", some (ascii "module")⟩, ⟨ascii "type", some (ascii "x")⟩], 27)) := by decide +kernel
  have opens_ : Opens repeatedType 0 [⟨ascii "type", some (ascii "module")⟩, ⟨ascii "type", some (ascii "x")⟩] 27 :=
    (Scanner.scan_leaves tagNext repeatedType 100 .tagName 1 _ _ ran).mpr rfl
  have found : startTag repeatedType 0 = some ⟨ascii "script", some (text "x"), none, false, some 27⟩ := by decide +kernel
  refine ⟨_, _, _, found, opens_, fun reads => ?_, by decide +kernel, by decide +kernel⟩
  have kind := reads.kind _ _ opens_
  revert kind
  decide +kernel

end Filefacts.Html
