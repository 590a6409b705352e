import Filefacts.Html.CutOff
import Filefacts.Html.StartTags

set_option autoImplicit false

namespace Filefacts.Html

open Filefacts.Bytes (ascii isAsciiAlphabetic toAsciiLower eqIgnoreAsciiCase)
open Filefacts.Scanner (Leaves Reaches)

-- Nothing that would open in the data state stands past a </, no attribute name
-- of a start tag begins with =, and no open script is cut off in its end tag.
structure Calm (page : List UInt8) : Prop where
  endTags : ∀ state pos, Visits page state pos → state.inEndTag = true → opens page pos = false
  equals : ∀ name pos, Visits page (.beforeAttributeName (some name)) pos → page[pos]? ≠ some 61
  cutOff : ∀ begun stop, Resumes page begun → StartTag page begun script stop → (∀ close, ¬ ScriptEnds page stop close) →
    ∀ close, ¬ ScriptEnds (closed page) stop close

section Tokens

variable (page : List UInt8)

variable (pos : Nat)

theorem tokenizes_unique (one other : List (Nat × Nat)) (tokenizes : Tokenizes page pos one)
    (again : Tokenizes page pos other) : one = other := by
  have sameTag : ∀ {pos : Nat} {name name' : List UInt8} {stop stop' : Nat}, StartTag page pos name stop → StartTag page pos name' stop' →
      name = name' ∧ stop = stop' := by
    intro pos name name' stop stop' first second
    have same := Scanner.leaves_unique markupNext page _ _ _ _ first second
    exact ⟨congrArg Prod.fst same, congrArg Prod.snd same⟩
  have scriptNot : script ∉ rawTextElements := by decide +kernel
  have plaintextNot : plaintext ∉ rawTextElements := by decide +kernel
  have apart : script ≠ plaintext := by decide +kernel
  induction tokenizes generalizing other with
  | ended never =>
      cases again with
      | ended _ => rfl
      | plaintext tag => exact absurd tag (never _ _)
      | script tag _ _ => exact absurd tag (never _ _)
      | openScript tag _ => exact absurd tag (never _ _)
      | raw tag _ _ _ => exact absurd tag (never _ _)
      | openRaw tag _ _ => exact absurd tag (never _ _)
      | other tag _ _ _ _ => exact absurd tag (never _ _)
  | plaintext tag =>
      cases again with
      | ended never => exact absurd tag (never _ _)
      | plaintext _ => rfl
      | script tag' _ _ => exact absurd (sameTag tag' tag).1 apart
      | openScript tag' _ => exact absurd (sameTag tag' tag).1 apart
      | raw tag' text _ _ => exact absurd ((sameTag tag' tag).1 ▸ text) plaintextNot
      | openRaw _ _ _ => rfl
      | other tag' _ notPlaintext _ _ => exact absurd (sameTag tag' tag).1 notPlaintext
  | script tag ends _ hypothesis =>
      cases again with
      | ended never => exact absurd tag (never _ _)
      | plaintext tag' => exact absurd (sameTag tag tag').1 apart
      | script tag' ends' rest =>
          obtain ⟨_, rfl⟩ := sameTag tag tag'
          obtain rfl := Scanner.leaves_unique next page _ _ _ _ ends ends'
          rw [hypothesis _ rest]
      | openScript tag' never =>
          obtain ⟨_, rfl⟩ := sameTag tag tag'
          exact absurd ends (never _)
      | raw tag' text _ _ => exact absurd ((sameTag tag' tag).1 ▸ text) scriptNot
      | openRaw tag' text _ => exact absurd ((sameTag tag' tag).1 ▸ text) scriptNot
      | other tag' notScript _ _ _ => exact absurd (sameTag tag' tag).1 notScript
  | openScript tag never =>
      cases again with
      | ended absent => exact absurd tag (absent _ _)
      | plaintext tag' => exact absurd (sameTag tag tag').1 apart
      | script tag' ends' rest =>
          obtain ⟨_, rfl⟩ := sameTag tag tag'
          exact absurd ends' (never _)
      | openScript tag' _ =>
          obtain ⟨_, rfl⟩ := sameTag tag tag'
          rfl
      | raw tag' text _ _ => exact absurd ((sameTag tag' tag).1 ▸ text) scriptNot
      | openRaw tag' text _ => exact absurd ((sameTag tag' tag).1 ▸ text) scriptNot
      | other tag' notScript _ _ _ => exact absurd (sameTag tag' tag).1 notScript
  | raw tag text ends _ hypothesis =>
      cases again with
      | ended never => exact absurd tag (never _ _)
      | plaintext tag' => exact absurd ((sameTag tag tag').1 ▸ text) plaintextNot
      | script tag' _ _ => exact absurd ((sameTag tag tag').1 ▸ text) scriptNot
      | openScript tag' _ => exact absurd ((sameTag tag tag').1 ▸ text) scriptNot
      | raw tag' _ ends' rest =>
          obtain ⟨rfl, rfl⟩ := sameTag tag tag'
          obtain rfl := Scanner.leaves_unique (rawNext _) page _ _ _ _ ends ends'
          exact hypothesis _ rest
      | openRaw tag' _ never =>
          obtain ⟨rfl, rfl⟩ := sameTag tag tag'
          exact absurd ends (never _)
      | other tag' _ _ notText _ => exact absurd ((sameTag tag tag').1 ▸ text) notText
  | openRaw tag text never =>
      cases again with
      | ended _ => rfl
      | plaintext _ => rfl
      | script tag' _ _ => exact absurd ((sameTag tag tag').1 ▸ text) scriptNot
      | openScript tag' _ => exact absurd ((sameTag tag tag').1 ▸ text) scriptNot
      | raw tag' _ ends' _ =>
          obtain ⟨rfl, rfl⟩ := sameTag tag tag'
          exact absurd ends' (never _)
      | openRaw _ _ _ => rfl
      | other tag' _ _ notText _ => exact absurd ((sameTag tag tag').1 ▸ text) notText
  | other tag notScript notPlaintext notText _ hypothesis =>
      cases again with
      | ended never => exact absurd tag (never _ _)
      | plaintext tag' => exact absurd (sameTag tag tag').1 notPlaintext
      | script tag' _ _ => exact absurd (sameTag tag tag').1 notScript
      | openScript tag' _ => exact absurd (sameTag tag tag').1 notScript
      | raw tag' text _ _ => exact absurd ((sameTag tag' tag).1 ▸ text) notText
      | openRaw tag' text _ => exact absurd ((sameTag tag' tag).1 ▸ text) notText
      | other tag' _ _ _ rest =>
          obtain ⟨_, rfl⟩ := sameTag tag tag'
          exact hypothesis _ rest

theorem start_tag_reach {pos later : Nat} {name : List UInt8} {stop : Nat} (way : Reaches markupNext page .data pos .data later)
    (tag : StartTag page later name stop) : StartTag page pos name stop :=
  (Scanner.reaches_leaves markupNext page _ _ way).mpr tag

theorem tokenizes_reach {pos later : Nat} {bodies : List (Nat × Nat)} (way : Reaches markupNext page .data pos .data later)
    (tokenizes : Tokenizes page later bodies) : Tokenizes page pos bodies := by
  cases tokenizes with
  | ended never =>
      exact .ended fun name stop tag => never name stop ((Scanner.reaches_leaves markupNext page _ _ way).mp tag)
  | plaintext tag => exact .plaintext (start_tag_reach page way tag)
  | script tag ends rest => exact .script (start_tag_reach page way tag) ends rest
  | openScript tag never => exact .openScript (start_tag_reach page way tag) never
  | raw tag text ends rest => exact .raw (start_tag_reach page way tag) text ends rest
  | openRaw tag text never => exact .openRaw (start_tag_reach page way tag) text never
  | other tag notScript notPlaintext notText rest =>
      exact .other (start_tag_reach page way tag) notScript notPlaintext notText rest

theorem returns_tokenizes (stop : Nat) (bodies : List (Nat × Nat)) (returns : Returns page .data pos stop)
    (onward : Reaches markupNext page .data pos .data stop → Tokenizes page stop bodies) (atEnd : stop = page.length → bodies = []) :
    Tokenizes page pos bodies := by
  rcases returns with way | ⟨never, last⟩
  · exact tokenizes_reach page way (onward way)
  · rw [atEnd last]
    exact .ended fun name close => never (name, close)

end Tokens

section Loop

variable (page : List UInt8)

def bodiesPast (fuel : Nat) (tag : Tag) (stop : Nat) : List Script :=
  if eqIgnoreAsciiCase tag.name script then
    ⟨(stop, (htmlScriptEnd page stop).getD page.length), scriptScope tag.kind tag.language⟩ ::
      scriptBodiesFrom page false fuel ((htmlScriptEnd page stop).getD page.length)
  else if eqIgnoreAsciiCase tag.name plaintext then []
  else if rawTextElements.any fun name => eqIgnoreAsciiCase tag.name name then
    scriptBodiesFrom page false fuel ((endTag page stop tag.name).getD page.length)
  else scriptBodiesFrom page false fuel stop

def bodiesAt (fuel start : Nat) : List Script :=
  if (ascii "<!--").isPrefixOf (tail page start) then scriptBodiesFrom page false fuel (commentEnd page (start + 4) false)
  else if (ascii "<!").isPrefixOf (tail page start) || (ascii "<?").isPrefixOf (tail page start) then
    scriptBodiesFrom page false fuel (past page (start + 2) (ascii ">"))
  else
    match startTag page start with
    | none => scriptBodiesFrom page false fuel (start + 1)
    | some tag => tag.stop.elim [] (bodiesPast page fuel tag)

theorem bodies_turn (fuel i : Nat) :
    scriptBodiesFrom page false (fuel + 1) i = (memchr 60 (tail page i)).elim [] fun found => bodiesAt page fuel (i + found) := by
  rw [scriptBodiesFrom]
  cases memchr 60 (tail page i) with
  | none => rfl
  | some found =>
      rw [Option.elim_some, bodiesAt]
      simp only [Bool.false_and, Bool.not_false, Bool.true_and, Bool.false_eq_true, if_false]
      split
      · rfl
      · split
        · rfl
        · cases startTag page (i + found) with
          | none => rfl
          | some tag =>
              simp only
              cases tag.stop <;> rfl

theorem bodies_end (fuel : Nat) : scriptBodiesFrom page false fuel page.length = [] := by
  cases fuel with
  | zero => rfl
  | succ fuel =>
      rw [bodies_turn, tail, List.drop_length]
      rfl

theorem less_kind (start : Nat) (less : page[start]? = some 60) (plain : opens page start = false) :
    ¬ (ascii "<!--").isPrefixOf (tail page start) = true ∧
      ¬ ((ascii "<!").isPrefixOf (tail page start) || (ascii "<?").isPrefixOf (tail page start)) = true ∧ startTag page start = none := by
  have kind : page[start + 1]?.any (fun b => isAsciiAlphabetic b || b = 33 || b = 63) = false := by
    rw [opens, less] at plain
    simpa using plain
  have second : ∀ b, page[start + 1]? = some b → isAsciiAlphabetic b = false ∧ b ≠ 33 ∧ b ≠ 63 := by
    intro b read
    rw [read, Option.any_some, Bool.or_eq_false_iff, Bool.or_eq_false_iff] at kind
    exact ⟨kind.1.1, of_decide_eq_false kind.1.2, of_decide_eq_false kind.2⟩
  refine ⟨fun comment => ?_, fun declares => ?_, ?_⟩
  · exact (second 33 ((starts_comment page start).mp comment).2.1).2.1 rfl
  · rcases Bool.or_eq_true_iff.mp declares with bang | question
    · exact (second 33 ((starts_two page 60 33 start).mp bang).2).2.1 rfl
    · exact (second 63 ((starts_two page 60 63 start).mp question).2).2.2 rfl
  · rw [startTag, if_neg]
    intro letter
    obtain ⟨b, read, isLetter⟩ := Option.any_eq_true _ _ |>.mp letter
    rw [(second b read).1] at isLetter
    cases isLetter

variable (i : Nat)

theorem memchr_here (read : page[i]? = some 60) : memchr 60 (tail page i) = some 0 := by
  obtain ⟨inside, is⟩ := List.getElem?_eq_some_iff.mp read
  rw [memchr, tail, List.drop_eq_getElem_cons inside, is, List.findIdx?_cons]
  rfl

theorem memchr_next (b : UInt8) (read : page[i]? = some b) (plain : b ≠ 60) :
    memchr 60 (tail page i) = (memchr 60 (tail page (i + 1))).map (· + 1) := by
  obtain ⟨inside, is⟩ := List.getElem?_eq_some_iff.mp read
  rw [memchr, memchr, tail, tail, List.drop_eq_getElem_cons inside, is, List.findIdx?_cons, if_neg (by simpa using plain)]

theorem bodies_skip (fuel i stop : Nat) (enough : page.length < fuel + i) (onward : i ≤ stop) (within : stop ≤ page.length)
    (plain : ∀ pos, i ≤ pos → pos < stop → opens page pos = false) :
    ∃ less, page.length < less + stop ∧ scriptBodiesFrom page false fuel i = scriptBodiesFrom page false less stop := by
  by_cases last : i = stop
  · exact ⟨fuel, last ▸ enough, by rw [last]⟩
  · have inside : i < page.length := by omega
    have read : page[i]? = some page[i] := List.getElem?_eq_getElem inside
    obtain ⟨fuel, rfl⟩ : ∃ less, fuel = less + 1 := ⟨fuel - 1, by omega⟩
    have later : ∀ pos, i + 1 ≤ pos → pos < stop → opens page pos = false := fun pos above below => plain pos (by omega) below
    by_cases less : page[i] = 60
    · rw [less] at read
      obtain ⟨notComment, notDeclares, noTag⟩ := less_kind page i read (plain i (Nat.le_refl i) (by omega))
      have turn : scriptBodiesFrom page false (fuel + 1) i = scriptBodiesFrom page false fuel (i + 1) := by
        rw [bodies_turn, memchr_here page i read, Option.elim_some, Nat.add_zero, bodiesAt, if_neg notComment, if_neg notDeclares, noTag]
      rw [turn]
      exact bodies_skip fuel (i + 1) stop (by omega) (by omega) within later
    · have turn : scriptBodiesFrom page false (fuel + 1) i = scriptBodiesFrom page false (fuel + 1) (i + 1) := by
        rw [bodies_turn, bodies_turn, memchr_next page i page[i] read less]
        cases memchr 60 (tail page (i + 1)) with
        | none => rfl
        | some found =>
            rw [Option.map_some, Option.elim_some, Option.elim_some, Nat.add_comm found 1, ← Nat.add_assoc]
      rw [turn]
      exact bodies_skip (fuel + 1) (i + 1) stop (by omega) (by omega) within later
termination_by page.length - i

theorem comment_above (start : Nat) (inside : start ≤ page.length) : start ≤ commentEnd page start false := by
  rw [commentEnd, if_neg Bool.false_ne_true]
  split
  · exact Nat.le_succ start
  · split
    · exact Nat.le_add_right start 2
    · exact le_min (past_bound page _ inside) (past_bound page _ inside)

theorem returns_within (state : MarkupState) (pos stop : Nat) (inside : pos ≤ page.length) (returns : Returns page state pos stop) :
    stop ≤ page.length := by
  rcases returns with way | ⟨_, last⟩
  · exact (Scanner.reaches_bounds markupNext page _ _ _ _ way).2 inside
  · exact Nat.le_of_eq last

theorem look_at_stands (state : ScriptData) (i place : Nat) (looked : lookAt page state i = some place) :
    i ≤ place ∧ (state = .plain → page[place]? = some 60) := by
  rw [lookAt] at looked
  by_cases plain : state = .plain
  · rw [if_pos plain] at looked
    obtain ⟨k, found, rfl⟩ := Option.map_eq_some_iff.mp looked
    exact ⟨Nat.le_add_right i k, fun _ => (memchr_stretch found).2⟩
  · rw [if_neg plain] at looked
    obtain rfl := Option.some.inj looked
    exact ⟨Nat.le_refl i, fun same => absurd same plain⟩

theorem script_end_bounds (fuel : Nat) : ∀ (state : ScriptData) (i close : Nat), scriptEndFrom page fuel state i = some close →
    i ≤ close ∧ close < page.length := by
  induction fuel with
  | zero =>
      intro state i close ran
      cases ran
  | succ fuel hypothesis =>
      intro state i close ran
      obtain ⟨place, b, looked, read, turned⟩ := (script_end_turn page fuel state i close).mp ran
      obtain ⟨forward, less⟩ := look_at_stands page state i place looked
      have inside := (List.getElem?_eq_some_iff.mp read).choose
      have simulates := step_simulates page state place b read fun plain => Option.some.inj (read.symm.trans (less plain))
      rcases turned with ended | ⟨after, later, moved, goes_on⟩
      · rw [ended] at simulates
        rw [simulates.1]
        exact ⟨forward, inside⟩
      · rw [moved] at simulates
        have bounds := hypothesis after later close goes_on
        exact ⟨Nat.le_trans forward (Nat.le_trans (Nat.le_of_lt simulates.1) bounds.1), bounds.2⟩

theorem end_tag_bounds (name : List UInt8) (fuel : Nat) : ∀ (i close : Nat), endTagFrom page name fuel i = some close →
    i ≤ close ∧ isEndTag page close name = true := by
  induction fuel with
  | zero =>
      intro i close ran
      cases ran
  | succ fuel hypothesis =>
      intro i close ran
      rw [endTagFrom] at ran
      obtain ⟨found, _, ran⟩ := Option.bind_eq_some_iff.mp ran
      by_cases ends : isEndTag page (i + found) name = true
      · rw [if_pos ends] at ran
        cases ran
        exact ⟨Nat.le_add_right i found, ends⟩
      · rw [if_neg ends] at ran
        have bounds := hypothesis (i + found + 2) close ran
        exact ⟨by omega, bounds.2⟩

end Loop

variable (name : List UInt8)

theorem lower_same {other : List UInt8} (lower : other.map toAsciiLower = other) :
    eqIgnoreAsciiCase name other = true ↔ name.map toAsciiLower = other := by
  rw [eqIgnoreAsciiCase, decide_eq_true_iff, Bytes.toAsciiLowercase, Bytes.toAsciiLowercase, lower]

theorem raw_text_octets : rawTextElements =
    [[105, 102, 114, 97, 109, 101], [110, 111, 101, 109, 98, 101, 100], [110, 111, 102, 114, 97, 109, 101, 115],
      [110, 111, 115, 99, 114, 105, 112, 116], [115, 116, 121, 108, 101], [116, 101, 120, 116, 97, 114, 101, 97],
      [116, 105, 116, 108, 101], [120, 109, 112]] := rfl

theorem raw_lower : ∀ name ∈ rawTextElements, name.map toAsciiLower = name ∧ name ≠ [] ∧ ∀ b ∈ name, isAsciiAlphabetic b = true := by
  rw [raw_text_octets]
  decide +kernel

theorem raw_any : (rawTextElements.any fun other => eqIgnoreAsciiCase name other) = true ↔
    name.map toAsciiLower ∈ rawTextElements := by
  rw [List.any_eq_true]
  constructor
  · rintro ⟨other, member, same⟩
    rw [(lower_same name (raw_lower other member).1).mp same]
    exact member
  · exact fun member => ⟨_, member, (lower_same name (raw_lower _ member).1).mpr rfl⟩

theorem letters_of_lower {name other : List UInt8} (same : name.map toAsciiLower = other)
    (letters : ∀ b ∈ other, isAsciiAlphabetic b = true) : ∀ b ∈ name, isAsciiAlphabetic b = true := by
  intro b member
  rw [← letter_lower]
  exact letters _ (same ▸ List.mem_map_of_mem member)

section Agreement

variable (page : List UInt8)

def Agrees (fuel i : Nat) : Prop := Tokenizes page i ((scriptBodiesFrom page false fuel i).map Script.body)

theorem agrees_end (fuel : Nat) : (scriptBodiesFrom page false fuel page.length).map Script.body = [] := by
  rw [bodies_end]
  rfl

section Past

variable (calm : Calm page) (begun start fuel stop : Nat) (tag : Tag) (resumes : Resumes page begun)
  (way : Reaches markupNext page .data begun .data start) (opened : StartTag page start (tag.name.map toAsciiLower) stop)
  (below : stop ≤ page.length) (enough : page.length < fuel + stop)
  (next : ∀ later, stop ≤ later → later ≤ page.length → Resumes page later → Agrees page fuel later)

include calm resumes way opened below enough next

omit below enough in
theorem script_past (isScript : tag.name.map toAsciiLower = script) :
    Tokenizes page start ((stop, (htmlScriptEnd page stop).getD page.length) ::
      (scriptBodiesFrom page false fuel ((htmlScriptEnd page stop).getD page.length)).map Script.body) := by
  rw [isScript] at opened
  have begunTag := start_tag_reach page way opened
  have ends := html_script_end_tokenizer page stop
  cases closes : htmlScriptEnd page stop with
  | none =>
      rw [closes] at ends
      rw [Option.getD_none, agrees_end]
      exact .openScript opened ends
  | some close =>
      rw [closes] at ends
      rw [Option.getD_some]
      rcases ends with exactly | ⟨_, never⟩
      · have bounds := script_end_bounds page _ _ _ _ closes
        have closed_ : ScriptEnds page stop close := (exactly close).mpr rfl
        exact .script opened closed_ (next close bounds.1 (Nat.le_of_lt bounds.2) (.script resumes begunTag closed_))
      · exact absurd (cut_off_closes page stop close closes) (calm.cutOff begun stop resumes begunTag never close)

omit calm below in
theorem raw_past_text (text : tag.name.map toAsciiLower ∈ rawTextElements) :
    Tokenizes page start ((scriptBodiesFrom page false fuel ((endTag page stop tag.name).getD page.length)).map Script.body) := by
  have begunTag := start_tag_reach page way opened
  obtain ⟨_, filled, letters⟩ := raw_lower _ text
  have ends := end_tag_from_where page (tag.name.map toAsciiLower) tag.name (letters_of_lower rfl letters)
    (fun empty => filled (by rw [empty]; rfl)) rfl (page.length + 1) stop (by omega)
  cases closes : endTag page stop tag.name with
  | none =>
      rw [endTag] at closes
      rw [closes] at ends
      rw [Option.getD_none, agrees_end]
      exact .openRaw opened text ends
  | some close =>
      rw [endTag] at closes
      rw [closes] at ends
      have bounds := end_tag_bounds page tag.name _ _ _ closes
      have inside : close < page.length := by
        have read := ((named_end_tag_iff page tag.name close (letters_of_lower rfl letters)).mp bounds.2).1
        exact (List.getElem?_eq_some_iff.mp read).choose
      rw [Option.getD_some]
      rcases ends with exactly | ⟨never, cut⟩
      · have closed_ : RawEnds page (tag.name.map toAsciiLower) stop close := (exactly close).mpr rfl
        exact .raw opened text closed_ (next close bounds.1 (Nat.le_of_lt inside) (.raw resumes begunTag text closed_))
      · obtain ⟨less, _, same⟩ := bodies_skip page fuel close page.length (by omega) (Nat.le_of_lt inside) (Nat.le_refl _)
          fun pos above _ => cut_opens page close cut pos above
        rw [same, agrees_end]
        exact .openRaw opened text never

theorem past_tokenizes : Tokenizes page start ((bodiesPast page fuel tag stop).map Script.body) := by
  have begunTag := start_tag_reach page way opened
  rw [bodiesPast]
  by_cases isScript : eqIgnoreAsciiCase tag.name script = true
  · rw [if_pos isScript]
    exact script_past page calm begun start fuel stop tag resumes way opened next
      ((lower_same tag.name rfl).mp isScript)
  · rw [if_neg isScript]
    by_cases isPlaintext : eqIgnoreAsciiCase tag.name plaintext = true
    · rw [if_pos isPlaintext]
      rw [(lower_same tag.name rfl).mp isPlaintext] at opened
      exact .plaintext opened
    · rw [if_neg isPlaintext]
      by_cases text : (rawTextElements.any fun name => eqIgnoreAsciiCase tag.name name) = true
      · rw [if_pos text]
        exact raw_past_text page begun start fuel stop tag resumes way opened enough next ((raw_any tag.name).mp text)
      · rw [if_neg text]
        have notScript : tag.name.map toAsciiLower ≠ script := fun same =>
          isScript ((lower_same tag.name rfl).mpr same)
        have notPlaintext : tag.name.map toAsciiLower ≠ plaintext := fun same =>
          isPlaintext ((lower_same tag.name rfl).mpr same)
        have notText : tag.name.map toAsciiLower ∉ rawTextElements := fun member => text ((raw_any tag.name).mpr member)
        exact .other opened notScript notPlaintext notText
          (next stop (Nat.le_refl stop) below (.other resumes begunTag notScript notPlaintext notText))

end Past

theorem opens_false (start : Nat) (notDeclares : ¬ ((ascii "<!").isPrefixOf (tail page start) || (ascii "<?").isPrefixOf (tail page start)) = true)
    (less : page[start]? = some 60) (noTag : startTag page start = none) : opens page start = false := by
  have letter := start_tag_none page start noTag
  rw [opens, less]
  cases read : page[start + 1]? with
  | none => rfl
  | some b =>
      rw [read, Option.any_some] at letter
      have notBang : b ≠ 33 := by
        rintro rfl
        exact notDeclares (Bool.or_eq_true_iff.mpr (.inl ((starts_two page 60 33 start).mpr ⟨less, read⟩)))
      have notQuestion : b ≠ 63 := by
        rintro rfl
        exact notDeclares (Bool.or_eq_true_iff.mpr (.inr ((starts_two page 60 63 start).mpr ⟨less, read⟩)))
      rw [Option.any_some, letter, decide_eq_false notBang, decide_eq_false notQuestion]
      rfl

variable (calm : Calm page)

include calm

theorem less_tokenizes {begun start fuel : Nat} (resumes : Resumes page begun) (way : Reaches markupNext page .data begun .data start)
    (less : page[start]? = some 60) (plain : opens page start = false) (enough : page.length < fuel + (start + 1))
    (next : ∀ less stop, page.length < less + stop → start < stop → stop ≤ page.length →
      Reaches markupNext page .data begun .data stop → Agrees page less stop) :
    Tokenizes page start ((scriptBodiesFrom page false fuel (start + 1)).map Script.body) := by
  obtain ⟨stop, above, below, returns, visits⟩ := less_passes page start less plain
  have nothing : ∀ pos, start + 1 ≤ pos → pos < stop → opens page pos = false := by
    intro pos from_ under
    by_contra opened
    have begins := Bool.of_not_eq_false opened
    obtain ⟨there, inEnd, inside⟩ := visits pos from_ under begins
    have refused := calm.endTags there pos ⟨begun, resumes, Scanner.reaches_trans markupNext page way inside⟩ inEnd
    rw [begins] at refused
    cases refused
  obtain ⟨fuel', enough', same⟩ := bodies_skip page fuel (start + 1) stop enough above below nothing
  rw [same]
  refine returns_tokenizes page _ stop _ returns (fun onward => ?_) fun last => ?_
  · exact next fuel' stop enough' above below (Scanner.reaches_trans markupNext page way onward)
  · rw [last, agrees_end]

theorem bodies_tokenize (begun fuel i : Nat) (resumes : Resumes page begun) (before : Reaches markupNext page .data begun .data i)
    (enough : page.length < fuel + i) (within : i ≤ page.length) : Agrees page fuel i := by
  rw [Agrees]
  by_cases inside : i < page.length
  · obtain ⟨fuel, rfl⟩ : ∃ less, fuel = less + 1 := ⟨fuel - 1, by omega⟩
    rw [bodies_turn]
    cases found : memchr 60 (tail page i) with
    | none => exact .ended fun name stop => data_stays page i found (name, stop)
    | some skipped =>
        obtain ⟨skip, less⟩ := data_skip page i skipped found
        have startWithin := (List.getElem?_eq_some_iff.mp less).choose
        have way := Scanner.reaches_trans markupNext page before skip
        rw [Option.elim_some]
        apply tokenizes_reach page skip
        have passes : ∀ stop, i + skipped < stop → Returns page .data (i + skipped) stop →
            Tokenizes page (i + skipped) ((scriptBodiesFrom page false fuel stop).map Script.body) := by
          intro stop above returns
          have below := returns_within page .data _ _ (Nat.le_of_lt startWithin) returns
          refine returns_tokenizes page _ stop _ returns (fun onward => ?_) fun last => ?_
          · exact bodies_tokenize begun fuel stop resumes (Scanner.reaches_trans markupNext page way onward) (by omega) below
          · rw [last, agrees_end]
        rw [bodiesAt]
        by_cases comment : (ascii "<!--").isPrefixOf (tail page (i + skipped)) = true
        · rw [if_pos comment]
          have fits := (List.getElem?_eq_some_iff.mp ((starts_comment page (i + skipped)).mp comment).2.2.2).choose
          have above := comment_above page (i + skipped + 4) fits
          exact passes _ (by omega) (comment_passes page (i + skipped) comment)
        · rw [if_neg comment]
          by_cases declares : ((ascii "<!").isPrefixOf (tail page (i + skipped)) || (ascii "<?").isPrefixOf (tail page (i + skipped))) = true
          · rw [if_pos declares]
            have fits : i + skipped + 2 ≤ page.length := by
              rcases Bool.or_eq_true_iff.mp declares with bang | question
              · exact (List.getElem?_eq_some_iff.mp ((starts_two page 60 33 _).mp bang).2).choose
              · exact (List.getElem?_eq_some_iff.mp ((starts_two page 60 63 _).mp question).2).choose
            have above := past_bound page (ascii ">") fits
            exact passes _ (by omega) (declaration_passes page (i + skipped) comment declares)
          · rw [if_neg declares]
            cases tagFound : startTag page (i + skipped) with
            | none =>
                have plain := opens_false page (i + skipped) declares less tagFound
                exact less_tokenizes page calm resumes way less plain (by omega) fun fuel' stop enough' above below onward =>
                  bodies_tokenize begun fuel' stop resumes onward enough' below
            | some tag =>
                simp only
                have agrees := start_tag_agrees page (i + skipped) tag less tagFound fun name pos onward =>
                  calm.equals name pos ⟨begun, resumes, Scanner.reaches_trans markupNext page way onward⟩
                cases stops : tag.stop with
                | none => exact .ended fun name stop => agrees.2 stops (name, stop)
                | some stop =>
                    obtain ⟨opened, above, below⟩ := agrees.1 stop stops
                    exact past_tokenizes page calm begun (i + skipped) fuel stop tag resumes way opened below (by omega)
                      fun later from_ under again => bodies_tokenize later fuel later again (Reaches.here MarkupState.data later) (by omega) under
  · have last : i = page.length := by omega
    rw [last, agrees_end]
    refine .ended fun name stop => ?_
    exact Scanner.leaves_past markupNext page .data _ (name, stop) (List.getElem?_eq_none_iff.mpr (Nat.le_refl _))
termination_by page.length - i

theorem script_bodies_tokenize (bodies : List (Nat × Nat)) :
    Tokenizes page 0 bodies ↔ bodies = (scriptBodies page false).map Script.body := by
  have agrees := bodies_tokenize page calm 0 (page.length + 1) 0 .page (Reaches.here MarkupState.data 0) (by omega) (Nat.zero_le _)
  constructor
  · exact fun tokenizes => tokenizes_unique page 0 bodies _ tokenizes agrees
  · rintro rfl
    exact agrees

end Agreement

def plainPage : List UInt8 := ascii "<script>x</script>"

theorem plain_page_tags (stop : Nat) :
    (StartTag plainPage 0 name stop ↔ some (script, 8) = some (name, stop)) ∧ ¬ StartTag plainPage 9 name stop := by
  refine ⟨Scanner.scan_leaves markupNext plainPage 40 .data 0 _ (name, stop) rfl, fun tag => ?_⟩
  have none_ := (Scanner.scan_leaves markupNext plainPage 40 .data 9 none (name, stop) rfl).mp tag
  cases none_

theorem plain_page_ends (close : Nat) : ScriptEnds plainPage 8 close ↔ some 9 = some close :=
  Scanner.scan_leaves next plainPage 40 .scriptData 8 _ close rfl

theorem plain_page_resumes (begun : Nat) (resumes : Resumes plainPage begun) : begun = 0 ∨ begun = 9 := by
  have scriptNot : script ∉ rawTextElements := by decide
  induction resumes with
  | page => exact .inl rfl
  | script _ tag ends before =>
      rcases before with rfl | rfl
      · cases (plain_page_tags _ _).1.mp tag
        exact .inr (Option.some.inj ((plain_page_ends _).mp ends)).symm
      · exact absurd tag (plain_page_tags _ _).2
  | raw _ tag text _ before =>
      rcases before with rfl | rfl
      · cases (plain_page_tags _ _).1.mp tag
        exact absurd text scriptNot
      · exact absurd tag (plain_page_tags _ _).2
  | other _ tag notScript _ _ before =>
      rcases before with rfl | rfl
      · cases (plain_page_tags _ _).1.mp tag
        exact absurd rfl notScript
      · exact absurd tag (plain_page_tags _ _).2

theorem plain_page_calm : Calm plainPage where
  endTags := by
    rintro state pos ⟨begun, _, way⟩ inEnd
    have later : ∀ pos : Fin plainPage.length, pos.val ≠ 0 → opens plainPage pos = false := by decide
    by_cases first : pos = 0
    · subst first
      have none_ : begun = 0 := Nat.le_zero.mp (Scanner.reaches_bounds markupNext plainPage _ _ _ _ way).1
      subst none_
      cases way with
      | here => cases inEnd
      | switch symbol after read move rest =>
          have bounds := (Scanner.reaches_bounds markupNext plainPage _ _ _ _ rest).1
          omega
      | reconsume symbol after read move rest =>
          rw [markupNext] at move
          split at move <;> cases move
    · by_cases inside : pos < plainPage.length
      · exact later ⟨pos, inside⟩ first
      · rw [opens, List.getElem?_eq_none_iff.mpr (Nat.le_of_not_lt inside)]
        rfl
  equals := by
    intro name pos _ read
    have absent : (61 : UInt8) ∉ plainPage := by decide
    exact absent (List.mem_of_getElem? read)
  cutOff := by
    intro begun stop resumes tag never
    rcases plain_page_resumes begun resumes with rfl | rfl
    · cases (plain_page_tags _ _).1.mp tag
      exact absurd ((plain_page_ends 9).mpr rfl) (never 9)
    · exact absurd tag (plain_page_tags _ _).2

theorem script_bodies_tokenize_plain : Tokenizes plainPage 0 [(8, 9)] :=
  (script_bodies_tokenize plainPage plain_page_calm [(8, 9)]).mpr (by decide +kernel)

def endTagPage : List UInt8 := ascii "</p title=\"<script>x</script>\">"

theorem end_tag_attribute_opens_script : ¬ Tokenizes endTagPage 0 ((scriptBodies endTagPage false).map Script.body) := by
  intro tokenizes
  have none_ : Tokenizes endTagPage 0 [] := by
    refine .ended fun name stop tag => ?_
    have never := (Scanner.scan_leaves markupNext endTagPage 80 .data 0 none (name, stop) (by decide +kernel)).mp tag
    cases never
  have same := tokenizes_unique endTagPage 0 _ _ tokenizes none_
  revert same
  decide +kernel

end Filefacts.Html
