import Filefacts.Html.ScriptEnd
import Filefacts.Rar.Name

set_option autoImplicit false

namespace Filefacts.Html

open Filefacts.Bytes (ascii isAsciiAlphabetic eqIgnoreAsciiCase)
open Filefacts.Rar (Text fromUtf8Lossy)

def text (plain : String) : Text := plain.toList.map Char.toNat

def javascriptTypes : List Text :=
  ["application/ecmascript", "application/javascript", "application/x-ecmascript", "application/x-javascript", "text/ecmascript",
   "text/javascript", "text/javascript1.0", "text/javascript1.1", "text/javascript1.2", "text/javascript1.3", "text/javascript1.4",
   "text/javascript1.5", "text/jscript", "text/livescript", "text/x-ecmascript", "text/x-javascript"].map text

inductive ScriptScope where
  | classic
  | module
  deriving DecidableEq, Repr

structure Script where
  body : Nat × Nat
  scope : Option ScriptScope
  deriving DecidableEq, Repr

def memmem (needle : List UInt8) : List UInt8 → Option Nat
  | [] => if needle = [] then some 0 else none
  | b :: rest => if needle.isPrefixOf (b :: rest) then some 0 else (memmem needle rest).map (· + 1)

def past (page : List UInt8) (start : Nat) (needle : List UInt8) : Nat :=
  (memmem needle (tail page start)).elim page.length fun i => start + i + needle.length

def commentEnd (page : List UInt8) (start : Nat) (xml : Bool) : Nat :=
  if xml then past page start (ascii "-->")
  else if (ascii ">").isPrefixOf (tail page start) then start + 1
  else if (ascii "->").isPrefixOf (tail page start) then start + 2
  else min (past page start (ascii "-->")) (past page start (ascii "--!>"))

structure Tag where
  name : List UInt8
  kind : Option Text
  language : Option Text
  selfClosing : Bool
  stop : Option Nat
  deriving DecidableEq, Repr

def lowercase (value : Text) : Text := value.map fun c => if 65 ≤ c ∧ c ≤ 90 then c + 32 else c

def Tag.attribute (tag : Tag) (attr value : List UInt8) : Tag :=
  if eqIgnoreAsciiCase attr (ascii "type") then { tag with kind := some (lowercase (fromUtf8Lossy value)) }
  else if eqIgnoreAsciiCase attr (ascii "language") then { tag with language := some (lowercase (fromUtf8Lossy value)) }
  else tag

def skipSpace (page : List UInt8) (i : Nat) : Nat := i + ((tail page i).takeWhile isTagSpace).length

def inAttribute (b : UInt8) : Bool := !isTagSpace b && b ≠ 61 && b ≠ 62 && b ≠ 47

def inValue (b : UInt8) : Bool := !isTagSpace b && b ≠ 62

def attributeEnd (page : List UInt8) (i : Nat) : Nat := i + ((tail page i).takeWhile inAttribute).length

def valueEnd (page : List UInt8) (i : Nat) : Nat := i + ((tail page i).takeWhile inValue).length

def isQuote (b : UInt8) : Bool := b = 34 || b = 39

-- The loop of `start_tag`; every turn moves on by at least one octet.
def attributes (page : List UInt8) : Nat → Tag → Nat → Tag
  | 0, tag, _ => tag
  | fuel + 1, tag, begun =>
      let i := skipSpace page begun
      match page[i]? with
      | none => tag
      | some b =>
          if b = 62 then { tag with selfClosing := (span page 0 i).getLast? = some 47, stop := some (i + 1) }
          else if b = 47 then attributes page fuel tag (i + 1)
          else
            let attr := span page i (attributeEnd page i)
            let j := skipSpace page (attributeEnd page i)
            if page[j]? = some 61 then
              let v := skipSpace page (j + 1)
              match page[v]?.filter isQuote with
              | some quote =>
                  match memchr quote (tail page (v + 1)) with
                  | none => tag
                  | some len => attributes page fuel (tag.attribute attr (span page (v + 1) (v + 1 + len))) (v + 1 + len + 1)
              | none => attributes page fuel (tag.attribute attr (span page v (valueEnd page v))) (valueEnd page v)
            else attributes page fuel tag j

def nameEnd (page : List UInt8) (nameStart : Nat) : Nat := ((tail page nameStart).findIdx? endsName).elim page.length (nameStart + ·)

def startTag (page : List UInt8) (start : Nat) : Option Tag :=
  if page[start + 1]?.any isAsciiAlphabetic then
    some (attributes page (page.length + 1) ⟨span page (start + 1) (nameEnd page (start + 1)), none, none, false, none⟩
      (nameEnd page (start + 1)))
  else none

def endTagFrom (page name : List UInt8) : Nat → Nat → Option Nat
  | 0, _ => none
  | fuel + 1, i =>
      (memmem (ascii "</") (tail page i)).bind fun found =>
        if isEndTag page (i + found) name then some (i + found) else endTagFrom page name fuel (i + found + 2)

def endTag (page : List UInt8) (start : Nat) (name : List UInt8) : Option Nat := endTagFrom page name (page.length + 1) start

def xmlScriptEndFrom (page : List UInt8) : Nat → Nat → Option Nat
  | 0, _ => none
  | fuel + 1, i =>
      (memchr 60 (tail page i)).bind fun found =>
        let start := i + found
        let rest := tail page start
        if (ascii "<![CDATA[").isPrefixOf rest then xmlScriptEndFrom page fuel (past page (start + 9) (ascii "]]>"))
        else if (ascii "<!--").isPrefixOf rest then xmlScriptEndFrom page fuel (past page (start + 4) (ascii "-->"))
        else if (ascii "<?").isPrefixOf rest then xmlScriptEndFrom page fuel (past page (start + 2) (ascii "?>"))
        else if isEndTag page start script then some start
        else xmlScriptEndFrom page fuel (start + 1)

def xmlScriptEnd (page : List UInt8) (start : Nat) : Option Nat := xmlScriptEndFrom page (page.length + 1) start

def isTrimmed (c : Nat) : Bool := c = 9 || c = 10 || c = 12 || c = 13 || c = 32

def trimMatches (value : Text) : Text := ((value.dropWhile isTrimmed).reverse.dropWhile isTrimmed).reverse

def scopeOf (typeString : Text) : Option ScriptScope :=
  if typeString ∈ javascriptTypes then some .classic else if typeString = text "module" then some .module else none

def scriptScope : Option Text → Option Text → Option ScriptScope
  | some kind, _ => if kind = [] then some .classic else scopeOf (trimMatches kind)
  | none, none => some .classic
  | none, some language => if language = [] then some .classic else scopeOf (text "text/" ++ language)

-- The loop of `script_bodies`; every turn moves on by at least one octet.
def scriptBodiesFrom (page : List UInt8) (xml : Bool) : Nat → Nat → List Script
  | 0, _ => []
  | fuel + 1, i =>
      match memchr 60 (tail page i) with
      | none => []
      | some found =>
          let start := i + found
          let rest := tail page start
          if (ascii "<!--").isPrefixOf rest then scriptBodiesFrom page xml fuel (commentEnd page (start + 4) xml)
          else if xml && (ascii "<![CDATA[").isPrefixOf rest then scriptBodiesFrom page xml fuel (past page (start + 9) (ascii "]]>"))
          else if (ascii "<!").isPrefixOf rest || (ascii "<?").isPrefixOf rest then
            scriptBodiesFrom page xml fuel
              (past page (start + 2) (if xml && (ascii "<?").isPrefixOf rest then ascii "?>" else ascii ">"))
          else
            match startTag page start with
            | none => scriptBodiesFrom page xml fuel (start + 1)
            | some tag =>
                match tag.stop with
                | none => []
                | some stop =>
                    if eqIgnoreAsciiCase tag.name script then
                      let close :=
                        (if xml && tag.selfClosing then some stop else if xml then xmlScriptEnd page stop else htmlScriptEnd page stop).getD
                          page.length
                      ⟨(stop, close), scriptScope tag.kind tag.language⟩ :: scriptBodiesFrom page xml fuel close
                    else if !xml && eqIgnoreAsciiCase tag.name plaintext then []
                    else if !xml && rawTextElements.any fun name => eqIgnoreAsciiCase tag.name name then
                      scriptBodiesFrom page xml fuel ((endTag page stop tag.name).getD page.length)
                    else scriptBodiesFrom page xml fuel stop

def scriptBodies (page : List UInt8) (xml : Bool) : List Script := scriptBodiesFrom page xml (page.length + 1) 0

open Filefacts.Bytes (ascii)
open Filefacts.Scanner (Leaves Reaches)

variable (page : List UInt8) (a b : UInt8) (needle : List UInt8)

theorem starts_one (start : Nat) : [a].isPrefixOf (page.drop start) = true ↔ page[start]? = some a := by
  rw [starts_cons]
  exact and_iff_left rfl

theorem starts_two (start : Nat) :
    [a, b].isPrefixOf (page.drop start) = true ↔ page[start]? = some a ∧ page[start + 1]? = some b := by
  rw [starts_cons, starts_one]

theorem starts_three (c : UInt8) (start : Nat) : [a, b, c].isPrefixOf (page.drop start) = true ↔
    page[start]? = some a ∧ page[start + 1]? = some b ∧ page[start + 2]? = some c := by
  rw [starts_cons, starts_two]

theorem starts_four (c d : UInt8) (start : Nat) : [a, b, c, d].isPrefixOf (page.drop start) = true ↔
    page[start]? = some a ∧ page[start + 1]? = some b ∧ page[start + 2]? = some c ∧ page[start + 3]? = some d := by
  rw [starts_cons, starts_three]

theorem past_here (start : Nat) (nonempty : needle ≠ [])
    (here : needle.isPrefixOf (page.drop start) = true) : past page start needle = start + needle.length := by
  rw [past, tail]
  cases there : page.drop start with
  | nil =>
      rw [there] at here
      cases needle with
      | nil => exact absurd rfl nonempty
      | cons _ _ => cases here
  | cons b rest =>
      rw [there] at here
      rw [memmem, if_pos here]
      rfl

variable {start : Nat}

theorem past_next (inside : start < page.length)
    (other : ¬ needle.isPrefixOf (page.drop start) = true) : past page start needle = past page (start + 1) needle := by
  rw [past, past, tail, tail]
  rw [List.drop_eq_getElem_cons inside] at other ⊢
  rw [memmem, if_neg other]
  cases memmem needle (page.drop (start + 1)) with
  | none => rfl
  | some i =>
      simp only [Option.map_some, Option.elim_some]
      omega

theorem past_end (nonempty : needle ≠ []) (outside : page.length ≤ start) : past page start needle = page.length := by
  rw [past, tail, List.drop_eq_nil_iff.mpr outside, memmem, if_neg nonempty]
  rfl

theorem past_bound (inside : start ≤ page.length) : start ≤ past page start needle := by
  rw [past]
  cases memmem needle (tail page start) with
  | none => exact inside
  | some i =>
      simp only [Option.elim_some]
      omega

def Alike (page : List UInt8) (one : CommentState) (pos : Nat) (other : CommentState) (later : Nat) : Prop :=
  ∀ close, Leaves commentNext page one pos close ↔ Leaves commentNext page other later close

section Comment

variable (page : List UInt8)

variable {first second : CommentState} {one two : Nat} {state after : CommentState}

theorem alike_trans {third : CommentState} {three : Nat} (front : Alike page first one second two)
    (back : Alike page second two third three) : Alike page first one third three := fun close => (front close).trans (back close)

theorem alike_symm (alike : Alike page first one second two) : Alike page second two first one := fun close => (alike close).symm

theorem alike_past (one other : CommentState) {pos : Nat} (past : page[pos]? = none) : Alike page one pos other pos := fun close =>
  iff_of_false (Scanner.leaves_past commentNext page one pos close past) (Scanner.leaves_past commentNext page other pos close past)

theorem alike_switch {pos : Nat} {b : UInt8} (read : page[pos]? = some b)
    (move : commentNext pos state b = .switch after) : Alike page state pos after (pos + 1) := fun close =>
  Scanner.leaves_switch commentNext page state after close read move

theorem alike_again {pos : Nat} {b : UInt8} (read : page[pos]? = some b)
    (move : commentNext pos state b = .reconsume after) : Alike page state pos after pos := fun close =>
  Scanner.leaves_reconsume commentNext page state after pos b close read move

theorem alike_dash {one other onward beyond base : CommentState} {pos : Nat} (dashed : Alike page onward (pos + 1) beyond (pos + 1))
    (oneDash : ∀ pos, commentNext pos one 45 = .switch onward) (otherDash : ∀ pos, commentNext pos other 45 = .switch beyond)
    (oneElse : ∀ pos b, b ≠ 45 → commentNext pos one b = .reconsume base ∨ one = base)
    (otherElse : ∀ pos b, b ≠ 45 → commentNext pos other b = .reconsume base ∨ other = base) : Alike page one pos other pos := by
  have back : ∀ state, (∀ pos b, b ≠ 45 → commentNext pos state b = .reconsume base ∨ state = base) → ∀ b, page[pos]? = some b → b ≠ 45 →
      Alike page state pos base pos := by
    intro state otherwise b read plain
    rcases otherwise pos b plain with move | same
    · exact alike_again page read move
    · subst same
      exact fun close => Iff.rfl
  cases read : page[pos]? with
  | none => exact alike_past page one other read
  | some b =>
      by_cases dash : b = 45
      · subst dash
        exact alike_trans page (alike_switch page read (oneDash pos))
          (alike_trans page dashed (alike_symm page (alike_switch page read (otherDash pos))))
      · exact alike_trans page (back one oneElse b read dash) (alike_symm page (back other otherElse b read dash))

variable (pos : Nat)

theorem bang_dash_dash_alike : Alike page .lessThanSignBangDashDash pos .end_ pos := by
  cases read : page[pos]? with
  | none => exact alike_past page _ _ read
  | some b => exact alike_again page read rfl

theorem bang_dash_alike : Alike page .lessThanSignBangDash pos .endDash pos :=
  alike_dash page (bang_dash_dash_alike page (pos + 1)) (fun _ => rfl) (fun _ => rfl)
    (fun _ _ plain => .inl (if_neg plain)) (fun _ _ _ => .inr rfl)

theorem bang_alike : Alike page .lessThanSignBang pos .comment pos :=
  alike_dash page (bang_dash_alike page (pos + 1)) (fun _ => rfl) (fun _ => rfl)
    (fun _ _ plain => .inl (if_neg plain)) (fun _ _ _ => .inr rfl)

theorem start_dash_alike (goes : page[pos]? ≠ some 62) : Alike page .startDash pos .endDash pos := by
  cases read : page[pos]? with
  | none => exact alike_past page _ _ read
  | some b =>
      have notEnd : b ≠ 62 := fun same => goes (by rw [read, same])
      by_cases dash : b = 45
      · subst dash
        exact alike_trans page (alike_switch page read rfl)
          (alike_symm page (alike_switch page read rfl))
      · refine alike_trans page (alike_again page read ?_)
          (alike_symm page (alike_again page read (if_neg dash)))
        rw [commentNext, if_neg dash, if_neg notEnd]

theorem less_than_alike : Alike page .lessThanSign pos .comment pos := by
  cases read : page[pos]? with
  | none => exact alike_past page _ _ read
  | some b =>
      by_cases bang : b = 33
      · subst bang
        exact alike_trans page (alike_switch page read rfl)
          (alike_trans page (bang_alike page (pos + 1))
            (alike_symm page (alike_switch page read rfl)))
      · by_cases less : b = 60
        · subst less
          exact alike_trans page (alike_switch page read rfl)
            (alike_symm page (alike_switch page read rfl))
        · apply alike_again page read
          rw [commentNext, if_neg bang, if_neg less]

theorem plain_alike (b : UInt8) (read : page[pos]? = some b) (plain : b ≠ 45) :
    Alike page .comment pos .comment (pos + 1) := by
  by_cases less : b = 60
  · subst less
    exact alike_trans page (alike_switch page read rfl) (less_than_alike page (pos + 1))
  · apply alike_switch page read
    rw [commentNext, if_neg less, if_neg plain]

theorem dash_alike (read : page[pos]? = some 45) : Alike page .comment pos .endDash (pos + 1) :=
  alike_switch page read rfl

theorem dash_dash_alike (first : page[pos]? = some 45) (second : page[pos + 1]? = some 45) :
    Alike page .comment pos .end_ (pos + 2) :=
  alike_trans page (dash_alike page pos first) (alike_switch page second rfl)

theorem bang_end_alike (goes : page[pos]? ≠ some 62) : Alike page .endBang pos .comment pos := by
  cases read : page[pos]? with
  | none => exact alike_past page _ _ read
  | some b =>
      have notEnd : b ≠ 62 := fun same => goes (by rw [read, same])
      by_cases dash : b = 45
      · subst dash
        exact alike_trans page (alike_switch page read rfl)
          (alike_symm page (dash_alike page pos read))
      · apply alike_again page read
        rw [commentNext, if_neg dash, if_neg notEnd]

-- No end of a comment stands here, so one octet later is as good.
theorem comment_step (b : UInt8) (read : page[pos]? = some b)
    (plain : ¬ (page[pos]? = some 45 ∧ page[pos + 1]? = some 45 ∧ page[pos + 2]? = some 62))
    (bang : ¬ (page[pos]? = some 45 ∧ page[pos + 1]? = some 45 ∧ page[pos + 2]? = some 33 ∧ page[pos + 3]? = some 62)) :
    Alike page .comment pos .comment (pos + 1) := by
  by_cases dash : b = 45
  · subst dash
    refine alike_trans page (dash_alike page pos read) ?_
    cases second : page[pos + 1]? with
    | none => exact alike_past page _ _ second
    | some c =>
        by_cases dashDash : c = 45
        · subst dashDash
          refine alike_trans page (alike_switch page second rfl) ?_
          refine alike_trans page ?_ (alike_symm page (dash_alike page (pos + 1) second))
          cases third : page[pos + 2]? with
          | none => exact alike_past page _ _ third
          | some d =>
              have notEnd : d ≠ 62 := fun same => plain ⟨read, second, by rw [third, same]⟩
              by_cases isBang : d = 33
              · subst isBang
                have goes : page[pos + 2 + 1]? ≠ some 62 := fun closed => bang ⟨read, second, third, closed⟩
                refine alike_trans page (alike_switch page third rfl) ?_
                refine alike_trans page (bang_end_alike page (pos + 3) goes) ?_
                exact alike_symm page (alike_trans page (alike_again page third rfl)
                  (plain_alike page (pos + 2) 33 third (by decide)))
              · by_cases isDash : d = 45
                · subst isDash
                  exact alike_trans page (alike_switch page third rfl)
                    (alike_symm page (alike_switch page third rfl))
                · refine alike_trans page (alike_again page third ?_)
                    (alike_symm page (alike_again page third (if_neg isDash)))
                  rw [commentNext, if_neg notEnd, if_neg isBang, if_neg isDash]
        · exact alike_again page second (if_neg dashDash)
  · exact plain_alike page pos b read dash

theorem comment_plain_end (close : Nat) (first : page[pos]? = some 45) (second : page[pos + 1]? = some 45)
    (third : page[pos + 2]? = some 62) : Leaves commentNext page .comment pos close ↔ close = pos + 3 :=
  (dash_dash_alike page pos first second close).trans
    (Scanner.leaves_leave commentNext page .end_ (pos + 2) close third rfl)

theorem comment_bang_end (close : Nat) (first : page[pos]? = some 45) (second : page[pos + 1]? = some 45)
    (third : page[pos + 2]? = some 33) (fourth : page[pos + 3]? = some 62) :
    Leaves commentNext page .comment pos close ↔ close = pos + 4 :=
  (dash_dash_alike page pos first second close).trans
    ((alike_switch page third rfl close).trans
      (Scanner.leaves_leave commentNext page .endBang (pos + 3) close fourth rfl))

def bodyEnd (start : Nat) : Nat := min (past page start (ascii "-->")) (past page start (ascii "--!>"))

theorem body_end_plain (first : page[pos]? = some 45) (second : page[pos + 1]? = some 45)
    (third : page[pos + 2]? = some 62) : bodyEnd page pos = pos + 3 := by
  have here : past page pos (ascii "-->") = pos + 3 :=
    past_here page _ pos (List.cons_ne_nil _ _) ((starts_three page 45 45 62 pos).mpr ⟨first, second, third⟩)
  have inside := (List.getElem?_eq_some_iff.mp third).choose
  have later : past page pos (ascii "--!>") = past page (pos + 1) (ascii "--!>") := by
    refine past_next page _ (by omega) fun there => ?_
    have other := ((starts_four page 45 45 33 62 pos).mp there).2.2.1
    rw [third] at other
    cases other
  have again : past page (pos + 1) (ascii "--!>") = past page (pos + 2) (ascii "--!>") := by
    refine past_next page _ (by omega) fun there => ?_
    have other := ((starts_four page 45 45 33 62 (pos + 1)).mp there).2.1
    rw [third] at other
    cases other
  have more : past page (pos + 2) (ascii "--!>") = past page (pos + 3) (ascii "--!>") := by
    refine past_next page _ (by omega) fun there => ?_
    have other := ((starts_four page 45 45 33 62 (pos + 2)).mp there).1
    rw [third] at other
    cases other
  have bound := past_bound page (ascii "--!>") inside
  rw [bodyEnd, here, later, again, more]
  exact Nat.min_eq_left bound

theorem body_end_bang (first : page[pos]? = some 45) (second : page[pos + 1]? = some 45)
    (third : page[pos + 2]? = some 33) (fourth : page[pos + 3]? = some 62) : bodyEnd page pos = pos + 4 := by
  have here : past page pos (ascii "--!>") = pos + 4 :=
    past_here page _ pos (List.cons_ne_nil _ _) ((starts_four page 45 45 33 62 pos).mpr ⟨first, second, third, fourth⟩)
  have inside := (List.getElem?_eq_some_iff.mp fourth).choose
  have skip : ∀ at_ b, page[at_]? = some b → ¬ (page[at_]? = some 45 ∧ page[at_ + 1]? = some 45 ∧ page[at_ + 2]? = some 62) →
      past page at_ (ascii "-->") = past page (at_ + 1) (ascii "-->") := by
    intro at_ b read other
    exact past_next page _ (List.getElem?_eq_some_iff.mp read).choose fun there => other ((starts_three page 45 45 62 at_).mp there)
  have later : past page pos (ascii "-->") = past page (pos + 4) (ascii "-->") := by
    rw [skip pos 45 first (by simp [third]), skip (pos + 1) 45 second (by simp [third]), skip (pos + 2) 33 third (by simp [third]),
      skip (pos + 3) 62 fourth (by simp [fourth])]
  have bound := past_bound page (ascii "-->") inside
  rw [bodyEnd, here, later]
  exact Nat.min_eq_right bound

theorem comment_ends (pos : Nat) (inside : pos ≤ page.length) :
    (∀ close, Leaves commentNext page .comment pos close ↔ close = bodyEnd page pos) ∨
      ((∀ close, ¬ Leaves commentNext page .comment pos close) ∧ bodyEnd page pos = page.length) := by
  by_cases last : pos = page.length
  · have none_ : page[pos]? = none := List.getElem?_eq_none_iff.mpr (by omega)
    refine .inr ⟨fun close => Scanner.leaves_past commentNext page .comment pos close none_, ?_⟩
    rw [bodyEnd, past_end page (ascii "-->") (List.cons_ne_nil _ _) (by omega),
      past_end page (ascii "--!>") (List.cons_ne_nil _ _) (by omega), Nat.min_self]
  · by_cases plain : page[pos]? = some 45 ∧ page[pos + 1]? = some 45 ∧ page[pos + 2]? = some 62
    · obtain ⟨first, second, third⟩ := plain
      refine .inl fun close => ?_
      rw [body_end_plain page pos first second third]
      exact comment_plain_end page pos close first second third
    · by_cases bang : page[pos]? = some 45 ∧ page[pos + 1]? = some 45 ∧ page[pos + 2]? = some 33 ∧ page[pos + 3]? = some 62
      · obtain ⟨first, second, third, fourth⟩ := bang
        refine .inl fun close => ?_
        rw [body_end_bang page pos first second third fourth]
        exact comment_bang_end page pos close first second third fourth
      · have before : pos < page.length := by omega
        have read : page[pos]? = some page[pos] := List.getElem?_eq_getElem before
        have onward := comment_step page pos page[pos] read plain bang
        have same : bodyEnd page pos = bodyEnd page (pos + 1) := by
          rw [bodyEnd, bodyEnd,
            past_next page (ascii "-->") before fun there => plain ((starts_three page 45 45 62 pos).mp there),
            past_next page (ascii "--!>") before fun there => bang ((starts_four page 45 45 33 62 pos).mp there)]
        rw [same]
        rcases comment_ends (pos + 1) before with ends | ⟨never, last⟩
        · exact .inl fun close => (onward close).trans (ends close)
        · exact .inr ⟨fun close leaves => never close ((onward close).mp leaves), last⟩
termination_by page.length - pos

theorem comment_end_ends (start : Nat) (inside : start ≤ page.length) :
    (∀ close, Leaves commentNext page .start start close ↔ close = commentEnd page start false) ∨
      ((∀ close, ¬ Leaves commentNext page .start start close) ∧ commentEnd page start false = page.length) := by
  rw [commentEnd, if_neg Bool.false_ne_true]
  by_cases abrupt : (ascii ">").isPrefixOf (tail page start) = true
  · rw [if_pos abrupt]
    have read := (starts_one page 62 start).mp abrupt
    exact .inl fun close => Scanner.leaves_leave commentNext page .start start close read rfl
  · rw [if_neg abrupt]
    have notEnd : page[start]? ≠ some 62 := fun read => abrupt ((starts_one page 62 start).mpr read)
    by_cases dashed : (ascii "->").isPrefixOf (tail page start) = true
    · rw [if_pos dashed]
      obtain ⟨first, second⟩ := (starts_two page 45 62 start).mp dashed
      exact .inl fun close => (alike_switch page first rfl close).trans
        (Scanner.leaves_leave commentNext page .startDash (start + 1) close second rfl)
    · rw [if_neg dashed]
      have alike : Alike page .start start .comment start := by
        cases read : page[start]? with
        | none => exact alike_past page _ _ read
        | some b =>
            by_cases dash : b = 45
            · subst dash
              have goes : page[start + 1]? ≠ some 62 := fun second => dashed ((starts_two page 45 62 start).mpr ⟨read, second⟩)
              exact alike_trans page (alike_switch page read rfl)
                (alike_trans page (start_dash_alike page (start + 1) goes)
                  (alike_symm page (dash_alike page start read)))
            · apply alike_again page read
              rw [commentNext, if_neg dash, if_neg fun same => notEnd (by rw [read, same])]
      rcases comment_ends page start inside with ends | ⟨never, last⟩
      · exact .inl fun close => (alike close).trans (ends close)
      · exact .inr ⟨fun close leaves => never close ((alike close).mp leaves), last⟩

end Comment

-- The machine in a state gets back to the data state at an offset, or stays
-- with no tag to the end of the page.
def Returns (page : List UInt8) (state : MarkupState) (pos stop : Nat) : Prop :=
  Reaches markupNext page state pos .data stop ∨ ((∀ tag, ¬ Leaves markupNext page state pos tag) ∧ stop = page.length)

theorem returns_reach {state after : MarkupState} {pos later stop : Nat}
    (way : Reaches markupNext page state pos after later) (returns : Returns page after later stop) : Returns page state pos stop := by
  rcases returns with back | ⟨never, last⟩
  · exact .inl (Scanner.reaches_trans markupNext page way back)
  · exact .inr ⟨fun tag leaves => never tag ((Scanner.reaches_leaves markupNext page _ tag way).mp leaves), last⟩

theorem comment_embeds (state : CommentState) (pos close : Nat) (leaves : Leaves commentNext page state pos close) :
    Reaches markupNext page (.comment state) pos .data close := by
  induction leaves with
  | @leave state pos close b read move =>
      have past : close = pos + 1 := by
        cases state <;> simp only [commentNext] at move <;> repeat' split at move
        all_goals first | exact (Scanner.Move.leave.inj move).symm | cases move
      subst past
      exact Scanner.reaches_next markupNext page _ _ pos b read (by simp only [markupNext, move])
  | @switch state pos close b after read move _ hypothesis =>
      exact .switch b (.comment after) read (by simp only [markupNext, move]) hypothesis
  | @reconsume state pos close b after read move _ hypothesis =>
      exact .reconsume b (.comment after) read (by simp only [markupNext, move]) hypothesis

theorem comment_stays (tag : List UInt8 × Nat) (state : MarkupState) (pos : Nat)
    (leaves : Leaves markupNext page state pos tag) (inner : CommentState) (same : state = .comment inner) :
    ∃ close, Leaves commentNext page inner pos close := by
  induction leaves generalizing inner with
  | leave b read move =>
      subst same
      simp only [markupNext] at move
      split at move <;> cases move
  | @switch state pos tag b after read move _ hypothesis =>
      subst same
      simp only [markupNext] at move
      cases moved : commentNext pos inner b with
      | leave close => exact ⟨close, .leave b read moved⟩
      | switch next =>
          simp only [moved] at move
          obtain ⟨close, later⟩ := hypothesis next (Scanner.Move.switch.inj move).symm
          exact ⟨close, .switch b next read moved later⟩
      | reconsume next =>
          simp only [moved] at move
          cases move
  | @reconsume state pos tag b after read move _ hypothesis =>
      subst same
      simp only [markupNext] at move
      cases moved : commentNext pos inner b with
      | leave close =>
          simp only [moved] at move
          cases move
      | switch next =>
          simp only [moved] at move
          cases move
      | reconsume next =>
          simp only [moved] at move
          obtain ⟨close, later⟩ := hypothesis next (Scanner.Move.reconsume.inj move).symm
          exact ⟨close, .reconsume b next read moved later⟩

theorem comment_returns (start : Nat) (inside : start ≤ page.length) :
    Returns page (.comment .start) start (commentEnd page start false) := by
  rcases comment_end_ends page start inside with ends | ⟨never, last⟩
  · exact .inl (comment_embeds page .start start _ ((ends _).mpr rfl))
  · refine .inr ⟨fun tag leaves => ?_, last⟩
    obtain ⟨close, inner⟩ := comment_stays page tag _ start leaves .start rfl
    exact never close inner

theorem bogus_returns {page : List UInt8} (ofEndTag : Bool) {pos : Nat} (inside : pos ≤ page.length) :
    Returns page (.bogusComment ofEndTag) pos (past page pos (ascii ">")) := by
  by_cases last : pos = page.length
  · have none_ : page[pos]? = none := List.getElem?_eq_none_iff.mpr (by omega)
    exact .inr ⟨fun tag => Scanner.leaves_past markupNext page _ pos tag none_, past_end page _ (List.cons_ne_nil _ _) (by omega)⟩
  · have before : pos < page.length := by omega
    have read : page[pos]? = some page[pos] := List.getElem?_eq_getElem before
    by_cases closes : page[pos] = 62
    · rw [past_here page (ascii ">") pos (List.cons_ne_nil _ _) ((starts_one page 62 pos).mpr (by rw [read, closes]))]
      exact .inl (Scanner.reaches_next markupNext page _ _ pos page[pos] read (by rw [markupNext, if_pos closes]))
    · rw [past_next page (ascii ">") before fun there => closes (Option.some.inj (read.symm.trans ((starts_one page 62 pos).mp there)))]
      exact returns_reach page (Scanner.reaches_next markupNext page _ _ pos page[pos] read (by rw [markupNext, if_neg closes]))
        (bogus_returns ofEndTag before)
termination_by page.length - pos

end Filefacts.Html
