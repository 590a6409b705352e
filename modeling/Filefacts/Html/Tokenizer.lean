import Mathlib.Data.List.TakeWhile
import Filefacts.Lib.Scanner
import Filefacts.Bytes

set_option autoImplicit false

namespace Filefacts.Html

open Filefacts.Bytes (ascii isAsciiAlphabetic toAsciiLower)
open Filefacts.Scanner (Move Leaves)

-- Whitespace as the tokenizer ends a tag name on it; a CR of the page is read as LF.
def isTagSpace (b : UInt8) : Bool := b = 9 || b = 10 || b = 12 || b = 13 || b = 32

def endsName (b : UInt8) : Bool := isTagSpace b || b = 47 || b = 62

def script : List UInt8 := ascii "script"

-- The script data states of the HTML Standard. An end tag's states carry the offset of its <, the name states the name so
-- far in lower case (the temporary buffer in the double escape states).
inductive TokenizerState where
  | scriptData
  | lessThanSign (start : Nat)
  | endTagOpen (start : Nat)
  | endTagName (start : Nat) (name : List UInt8)
  | escapeStart
  | escapeStartDash
  | escaped
  | escapedDash
  | escapedDashDash
  | escapedLessThanSign (start : Nat)
  | escapedEndTagOpen (start : Nat)
  | escapedEndTagName (start : Nat) (name : List UInt8)
  | doubleEscapeStart (buffer : List UInt8)
  | doubleEscaped
  | doubleEscapedDash
  | doubleEscapedDashDash
  | doubleEscapedLessThanSign
  | doubleEscapeEnd (buffer : List UInt8)
  deriving DecidableEq, Repr

-- One character of the standard's machine; leaving means that an appropriate end tag, begun at the offset, ends the element.
def next (pos : Nat) : TokenizerState → UInt8 → Move TokenizerState Nat
  | .scriptData, b => if b = 60 then .switch (.lessThanSign pos) else .switch .scriptData
  | .lessThanSign start, b =>
      if b = 47 then .switch (.endTagOpen start) else if b = 33 then .switch .escapeStart else .reconsume .scriptData
  | .endTagOpen start, b => if isAsciiAlphabetic b then .reconsume (.endTagName start []) else .reconsume .scriptData
  | .endTagName start name, b =>
      if endsName b ∧ name = script then .leave start
      else if isAsciiAlphabetic b then .switch (.endTagName start (name ++ [toAsciiLower b]))
      else .reconsume .scriptData
  | .escapeStart, b => if b = 45 then .switch .escapeStartDash else .reconsume .scriptData
  | .escapeStartDash, b => if b = 45 then .switch .escapedDashDash else .reconsume .scriptData
  | .escaped, b =>
      if b = 45 then .switch .escapedDash else if b = 60 then .switch (.escapedLessThanSign pos) else .switch .escaped
  | .escapedDash, b =>
      if b = 45 then .switch .escapedDashDash else if b = 60 then .switch (.escapedLessThanSign pos) else .switch .escaped
  | .escapedDashDash, b =>
      if b = 45 then .switch .escapedDashDash
      else if b = 60 then .switch (.escapedLessThanSign pos)
      else if b = 62 then .switch .scriptData
      else .switch .escaped
  | .escapedLessThanSign start, b =>
      if b = 47 then .switch (.escapedEndTagOpen start)
      else if isAsciiAlphabetic b then .reconsume (.doubleEscapeStart [])
      else .reconsume .escaped
  | .escapedEndTagOpen start, b =>
      if isAsciiAlphabetic b then .reconsume (.escapedEndTagName start []) else .reconsume .escaped
  | .escapedEndTagName start name, b =>
      if endsName b ∧ name = script then .leave start
      else if isAsciiAlphabetic b then .switch (.escapedEndTagName start (name ++ [toAsciiLower b]))
      else .reconsume .escaped
  | .doubleEscapeStart buffer, b =>
      if endsName b then (if buffer = script then .switch .doubleEscaped else .switch .escaped)
      else if isAsciiAlphabetic b then .switch (.doubleEscapeStart (buffer ++ [toAsciiLower b]))
      else .reconsume .escaped
  | .doubleEscaped, b =>
      if b = 45 then .switch .doubleEscapedDash
      else if b = 60 then .switch .doubleEscapedLessThanSign
      else .switch .doubleEscaped
  | .doubleEscapedDash, b =>
      if b = 45 then .switch .doubleEscapedDashDash
      else if b = 60 then .switch .doubleEscapedLessThanSign
      else .switch .doubleEscaped
  | .doubleEscapedDashDash, b =>
      if b = 45 then .switch .doubleEscapedDashDash
      else if b = 60 then .switch .doubleEscapedLessThanSign
      else if b = 62 then .switch .scriptData
      else .switch .doubleEscaped
  | .doubleEscapedLessThanSign, b => if b = 47 then .switch (.doubleEscapeEnd []) else .reconsume .doubleEscaped
  | .doubleEscapeEnd buffer, b =>
      if endsName b then (if buffer = script then .switch .escaped else .switch .doubleEscaped)
      else if isAsciiAlphabetic b then .switch (.doubleEscapeEnd (buffer ++ [toAsciiLower b]))
      else .reconsume .doubleEscaped

def nameAt (page : List UInt8) (pos : Nat) : List UInt8 := (page.drop pos).takeWhile isAsciiAlphabetic

-- Whether the letters at an offset spell script and end at a tag delimiter.
def ScriptName (page : List UInt8) (pos : Nat) : Prop :=
  (nameAt page pos).map toAsciiLower = script ∧ ∃ b, page[pos + (nameAt page pos).length]? = some b ∧ endsName b = true

-- A name state that grows with letters, gives its input back to a base state unless it holds script at a delimiter, over a
-- base state that letters and delimiters do not change.
structure NameStates (states : List UInt8 → TokenizerState) (base : TokenizerState) : Prop where
  grow : ∀ pos held b, isAsciiAlphabetic b = true → next pos (states held) b = .switch (states (held ++ [toAsciiLower b]))
  keep : ∀ pos b, isAsciiAlphabetic b = true → next pos base b = .switch base
  give : ∀ pos held b, isAsciiAlphabetic b = false → ¬ (endsName b = true ∧ held = script) →
    next pos (states held) b = .reconsume base ∨ (next pos (states held) b = .switch base ∧ next pos base b = .switch base)

variable (page : List UInt8) (pos : Nat) (states : List UInt8 → TokenizerState) (base : TokenizerState)

theorem name_drop : page.drop pos = nameAt page pos ++ (page.drop pos).dropWhile isAsciiAlphabetic :=
  List.takeWhile_append_dropWhile.symm

theorem name_letters (b : UInt8) (member : b ∈ nameAt page pos) : isAsciiAlphabetic b = true :=
  List.mem_takeWhile_imp member

theorem name_ends (b : UInt8) (read : page[pos + (nameAt page pos).length]? = some b) : isAsciiAlphabetic b = false := by
  rw [← List.head?_drop, ← List.drop_drop, name_drop page pos, List.drop_left] at read
  have rejected := List.head?_dropWhile_not isAsciiAlphabetic (page.drop pos)
  rw [read] at rejected
  exact rejected

theorem name_states_run (pos tag : Nat) (names : NameStates states base) : Leaves next page (states []) pos tag ↔
      Leaves next page (states ((nameAt page pos).map toAsciiLower)) (pos + (nameAt page pos).length) tag := by
  have run := Scanner.leaves_run next page (fun held => states (held.map toAsciiLower)) [] tag
    (name_drop page pos) (fun at_ held b member => by
      rw [names.grow at_ _ b (name_letters page pos b member), List.map_append, List.map_singleton])
  simpa only [List.map_nil, List.nil_append] using run

theorem name_states_skip (pos tag : Nat) (names : NameStates states base) :
    Leaves next page base pos tag ↔ Leaves next page base (pos + (nameAt page pos).length) tag :=
  Scanner.leaves_skip next page base tag (name_drop page pos) fun at_ b member =>
    names.keep at_ b (name_letters page pos b member)

theorem name_states_other {pos : Nat} (tag : Nat) (names : NameStates states base) (other : ¬ ScriptName page pos) :
    Leaves next page (states []) pos tag ↔ Leaves next page base pos tag := by
  rw [name_states_run page states base pos tag names, name_states_skip page states base pos tag names]
  cases read : page[pos + (nameAt page pos).length]? with
  | none => exact iff_of_false (Scanner.leaves_past _ _ _ _ _ read) (Scanner.leaves_past _ _ _ _ _ read)
  | some b =>
      have ends := name_ends page pos b read
      have refused : ¬ (endsName b = true ∧ (nameAt page pos).map toAsciiLower = script) :=
        fun both => other ⟨both.2, b, read, both.1⟩
      rcases names.give (pos + (nameAt page pos).length) _ b ends refused with back | ⟨both, same⟩
      · exact Scanner.leaves_reconsume next page _ base _ b tag read back
      · rw [Scanner.leaves_switch next page _ base tag read both, Scanner.leaves_switch next page base base tag read same]

-- The tokenizer of the HTML Standard outside scripts, with scripting enabled and
-- no foreign content. Character references hold no delimiter, so they are read
-- as the characters they are written with.
open Filefacts.Bytes (ascii isAsciiAlphabetic toAsciiLower)
open Filefacts.Scanner (Move Leaves Reaches)

inductive CommentState where
  | start
  | startDash
  | comment
  | lessThanSign
  | lessThanSignBang
  | lessThanSignBangDash
  | lessThanSignBangDashDash
  | endDash
  | end_
  | endBang
  deriving DecidableEq, Repr

def commentNext (pos : Nat) : CommentState → UInt8 → Move CommentState Nat
  | .start, b => if b = 45 then .switch .startDash else if b = 62 then .leave (pos + 1) else .reconsume .comment
  | .startDash, b => if b = 45 then .switch .end_ else if b = 62 then .leave (pos + 1) else .reconsume .comment
  | .comment, b => if b = 60 then .switch .lessThanSign else if b = 45 then .switch .endDash else .switch .comment
  | .lessThanSign, b =>
      if b = 33 then .switch .lessThanSignBang else if b = 60 then .switch .lessThanSign else .reconsume .comment
  | .lessThanSignBang, b => if b = 45 then .switch .lessThanSignBangDash else .reconsume .comment
  | .lessThanSignBangDash, b => if b = 45 then .switch .lessThanSignBangDashDash else .reconsume .endDash
  | .lessThanSignBangDashDash, _ => .reconsume .end_
  | .endDash, b => if b = 45 then .switch .end_ else .reconsume .comment
  | .end_, b =>
      if b = 62 then .leave (pos + 1)
      else if b = 33 then .switch .endBang
      else if b = 45 then .switch .end_
      else .reconsume .comment
  | .endBang, b => if b = 45 then .switch .endDash else if b = 62 then .leave (pos + 1) else .reconsume .comment

abbrev TagKind := Option (List UInt8)

-- A bogus comment keeps whether </ began it. Every state of a DOCTYPE ends at
-- the first >, as a bogus comment does.
inductive MarkupState where
  | data
  | tagOpen
  | endTagOpen
  | tagName (tag : TagKind)
  | beforeAttributeName (tag : TagKind)
  | attributeName (tag : TagKind)
  | afterAttributeName (tag : TagKind)
  | beforeAttributeValue (tag : TagKind)
  | attributeValueQuoted (quote : UInt8) (tag : TagKind)
  | attributeValueUnquoted (tag : TagKind)
  | afterAttributeValueQuoted (tag : TagKind)
  | selfClosingStartTag (tag : TagKind)
  | bogusComment (ofEndTag : Bool)
  | markupDeclarationOpen
  | markupDeclarationDash
  | comment (state : CommentState)
  deriving DecidableEq, Repr

def endOfTag (pos : Nat) : TagKind → Move MarkupState (List UInt8 × Nat)
  | some name => .leave (name, pos + 1)
  | none => .switch .data

def markupNext (pos : Nat) : MarkupState → UInt8 → Move MarkupState (List UInt8 × Nat)
  | .data, b => if b = 60 then .switch .tagOpen else .switch .data
  | .tagOpen, b =>
      if b = 33 then .switch .markupDeclarationOpen
      else if b = 47 then .switch .endTagOpen
      else if isAsciiAlphabetic b then .reconsume (.tagName (some []))
      else if b = 63 then .reconsume (.bogusComment false)
      else .reconsume .data
  | .endTagOpen, b =>
      if isAsciiAlphabetic b then .reconsume (.tagName none)
      else if b = 62 then .switch .data
      else .reconsume (.bogusComment true)
  | .tagName tag, b =>
      if isTagSpace b then .switch (.beforeAttributeName tag)
      else if b = 47 then .switch (.selfClosingStartTag tag)
      else if b = 62 then endOfTag pos tag
      else .switch (.tagName (tag.map (· ++ [toAsciiLower b])))
  | .beforeAttributeName tag, b =>
      if isTagSpace b then .switch (.beforeAttributeName tag)
      else if b = 47 ∨ b = 62 then .reconsume (.afterAttributeName tag)
      else if b = 61 then .switch (.attributeName tag)
      else .reconsume (.attributeName tag)
  | .attributeName tag, b =>
      if endsName b then .reconsume (.afterAttributeName tag)
      else if b = 61 then .switch (.beforeAttributeValue tag)
      else .switch (.attributeName tag)
  | .afterAttributeName tag, b =>
      if isTagSpace b then .switch (.afterAttributeName tag)
      else if b = 47 then .switch (.selfClosingStartTag tag)
      else if b = 61 then .switch (.beforeAttributeValue tag)
      else if b = 62 then endOfTag pos tag
      else .reconsume (.attributeName tag)
  | .beforeAttributeValue tag, b =>
      if isTagSpace b then .switch (.beforeAttributeValue tag)
      else if b = 34 ∨ b = 39 then .switch (.attributeValueQuoted b tag)
      else if b = 62 then endOfTag pos tag
      else .reconsume (.attributeValueUnquoted tag)
  | .attributeValueQuoted quote tag, b =>
      if b = quote then .switch (.afterAttributeValueQuoted tag) else .switch (.attributeValueQuoted quote tag)
  | .attributeValueUnquoted tag, b =>
      if isTagSpace b then .switch (.beforeAttributeName tag)
      else if b = 62 then endOfTag pos tag
      else .switch (.attributeValueUnquoted tag)
  | .afterAttributeValueQuoted tag, b =>
      if isTagSpace b then .switch (.beforeAttributeName tag)
      else if b = 47 then .switch (.selfClosingStartTag tag)
      else if b = 62 then endOfTag pos tag
      else .reconsume (.beforeAttributeName tag)
  | .selfClosingStartTag tag, b => if b = 62 then endOfTag pos tag else .reconsume (.beforeAttributeName tag)
  | .bogusComment ofEndTag, b => if b = 62 then .switch .data else .switch (.bogusComment ofEndTag)
  | .markupDeclarationOpen, b => if b = 45 then .switch .markupDeclarationDash else .reconsume (.bogusComment false)
  | .markupDeclarationDash, b => if b = 45 then .switch (.comment .start) else .reconsume (.bogusComment false)
  | .comment state, b =>
      match commentNext pos state b with
      | .switch after => .switch (.comment after)
      | .reconsume after => .reconsume (.comment after)
      | .leave _ => .switch .data

-- The text states of an element: RCDATA and RAWTEXT end alike.
inductive RawState where
  | text
  | lessThanSign (start : Nat)
  | endTagOpen (start : Nat)
  | endTagName (start : Nat) (name : List UInt8)
  deriving DecidableEq, Repr

def rawNext (element : List UInt8) (pos : Nat) : RawState → UInt8 → Move RawState Nat
  | .text, b => if b = 60 then .switch (.lessThanSign pos) else .switch .text
  | .lessThanSign start, b => if b = 47 then .switch (.endTagOpen start) else .reconsume .text
  | .endTagOpen start, b => if isAsciiAlphabetic b then .reconsume (.endTagName start []) else .reconsume .text
  | .endTagName start name, b =>
      if endsName b ∧ name = element then .leave start
      else if isAsciiAlphabetic b then .switch (.endTagName start (name ++ [toAsciiLower b]))
      else .reconsume .text

def rawTextElements : List (List UInt8) :=
  ["iframe", "noembed", "noframes", "noscript", "style", "textarea", "title", "xmp"].map ascii

def plaintext : List UInt8 := ascii "plaintext"

def StartTag (page : List UInt8) (pos : Nat) (name : List UInt8) (stop : Nat) : Prop :=
  Leaves markupNext page .data pos (name, stop)

def ScriptEnds (page : List UInt8) (start close : Nat) : Prop := Leaves next page .scriptData start close

def RawEnds (page : List UInt8) (element : List UInt8) (start close : Nat) : Prop := Leaves (rawNext element) page .text start close

-- The bodies of the script elements from an offset in the data state. A text is
-- left at the < of its end tag, which the data state reads as an end tag.
inductive Tokenizes (page : List UInt8) : Nat → List (Nat × Nat) → Prop
  | ended {pos : Nat} (never : ∀ name stop, ¬ StartTag page pos name stop) : Tokenizes page pos []
  | plaintext {pos stop : Nat} (tag : StartTag page pos plaintext stop) : Tokenizes page pos []
  | script {pos stop close : Nat} {bodies : List (Nat × Nat)} (tag : StartTag page pos script stop)
      (ends : ScriptEnds page stop close) (rest : Tokenizes page close bodies) : Tokenizes page pos ((stop, close) :: bodies)
  | openScript {pos stop : Nat} (tag : StartTag page pos script stop) (never : ∀ close, ¬ ScriptEnds page stop close) :
      Tokenizes page pos [(stop, page.length)]
  | raw {pos stop close : Nat} {bodies : List (Nat × Nat)} {name : List UInt8} (tag : StartTag page pos name stop)
      (text : name ∈ rawTextElements) (ends : RawEnds page name stop close) (rest : Tokenizes page close bodies) :
      Tokenizes page pos bodies
  | openRaw {pos stop : Nat} {name : List UInt8} (tag : StartTag page pos name stop) (text : name ∈ rawTextElements)
      (never : ∀ close, ¬ RawEnds page name stop close) : Tokenizes page pos []
  | other {pos stop : Nat} {bodies : List (Nat × Nat)} {name : List UInt8} (tag : StartTag page pos name stop)
      (notScript : name ≠ script) (notPlaintext : name ≠ plaintext) (notText : name ∉ rawTextElements)
      (rest : Tokenizes page stop bodies) : Tokenizes page pos bodies

-- The offsets where the data state begins anew.
inductive Resumes (page : List UInt8) : Nat → Prop
  | page : Resumes page 0
  | script {pos stop close : Nat} (before : Resumes page pos) (tag : StartTag page pos script stop)
      (ends : ScriptEnds page stop close) : Resumes page close
  | raw {pos stop close : Nat} {name : List UInt8} (before : Resumes page pos) (tag : StartTag page pos name stop)
      (text : name ∈ rawTextElements) (ends : RawEnds page name stop close) : Resumes page close
  | other {pos stop : Nat} {name : List UInt8} (before : Resumes page pos) (tag : StartTag page pos name stop)
      (notScript : name ≠ script) (notPlaintext : name ≠ plaintext) (notText : name ∉ rawTextElements) : Resumes page stop

def Visits (page : List UInt8) (state : MarkupState) (pos : Nat) : Prop :=
  ∃ begun, Resumes page begun ∧ Reaches markupNext page .data begun state pos

def MarkupState.inEndTag : MarkupState → Bool
  | .endTagOpen | .bogusComment true => true
  | .tagName tag | .beforeAttributeName tag | .attributeName tag | .afterAttributeName tag | .beforeAttributeValue tag
  | .attributeValueQuoted _ tag | .attributeValueUnquoted tag | .afterAttributeValueQuoted tag | .selfClosingStartTag tag => tag.isNone
  | _ => false

def opens (page : List UInt8) (pos : Nat) : Bool :=
  page[pos]? = some 60 && page[pos + 1]?.any fun b => isAsciiAlphabetic b || b = 33 || b = 63

end Filefacts.Html
