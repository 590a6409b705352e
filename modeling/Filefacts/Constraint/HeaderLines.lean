import Filefacts.Constraint.Header

set_option autoImplicit false

namespace Filefacts.Constraint

-- The characters a tag can have for Rust, and the letters and decimal digits
-- of Go; Rust also takes marks and other numerals, none of them ASCII.
structure Tables where
  rust : Unicode
  golang : Unicode
  subset : ∀ c, golang.isAlphanumeric c = true → rust.isAlphanumeric c = true
  asciiSame : ∀ c, c.toNat < 128 → rust.isAlphanumeric c = true → golang.isAlphanumeric c = true

def Tables.isOdd (tables : Tables) (c : Char) : Bool := tables.rust.inTag c && !tables.golang.inTag c

inductive Decision where
  | build
  | skip
  | refuse
deriving DecidableEq, Repr

def Decision.ofBool (builds : Bool) : Decision := if builds then .build else .skip

-- `go/build` discards a byte-order mark before it reads the text.
def byteOrderMark : Char := '\uFEFF'

def withoutMark (content : List Char) : List Char := if content.head? = some byteOrderMark then content.tail else content

def sourceLines (content : List Char) : List (List Char) := (textLines content).map trim

inductive CommentState where
  | code
  | slash
  | line
  | block
  | star
deriving DecidableEq, Repr

def CommentState.next : CommentState → Char → Option CommentState
  | .code, c => if isWhitespace c then some .code else if c = '/' then some .slash else none
  | .slash, c => if c = '/' then some .line else if c = '*' then some .block else none
  | .line, _ => some .line
  | .block, c => some (if c = '*' then .star else .block)
  | .star, c => some (if c = '/' then .code else if c = '*' then .star else .block)

def CommentState.ends : CommentState → Option Bool
  | .code | .line => some false
  | .slash => none
  | .block | .star => some true

def CommentState.run (state : CommentState) (text : List Char) : Option Bool := (text.foldlM CommentState.next state).bind CommentState.ends

def commentAfter (open_ : Bool) (line : List Char) : Option Bool := CommentState.run (if open_ then .block else .code) line

-- The lines through the one with the first text outside comments, and whether
-- a block comment is open before each.
def commentLines : Bool → List (List Char) → List (List Char × Bool)
  | _, [] => []
  | open_, line :: rest =>
      (line, open_) ::
        match commentAfter open_ line with
        | none => []
        | some after => commentLines after rest

-- `isGoBuildComment`: white space or nothing stands after the word.
def isGoBuildComment (line : List Char) : Bool :=
  (line.dropPrefix? "//go:build".toList).any fun rest => rest == [] || decide ((trim rest).length < rest.length)

def goBuildLines (content : List Char) : List (List Char) :=
  ((commentLines false (sourceLines content)).filter fun entry => !entry.2 && isGoBuildComment entry.1).map Prod.fst

def goBuildExpr (line : List Char) : List Char := trim (line.drop 10)

def isLineComment (line : List Char) : Bool := "//".toList.isPrefixOf line

-- The lines before the last blank line that precedes the first line which is
-- neither blank nor a line comment.
def plusBuildRegion (content : List Char) : List (List Char) :=
  ((sourceLines content).takeWhile fun line => line == [] || isLineComment line).rdropWhile (· != [])

def splitPlusBuild (line : List Char) : Option (List Char) :=
  (line.dropPrefix? "//".toList).bind fun comment =>
    ((trim comment).dropPrefix? "+build".toList).bind fun rest =>
      if rest = [] then some []
      else if (trim rest).length = rest.length then none
      else some (trim rest)

def fields (text : List Char) : List (List Char) := (text.splitOnP isWhitespace).filter (· != [])

section Holds

variable (golang : Unicode) (tag : String → Bool)

def tagHolds (name : List Char) : Bool := tag (if isValidTag golang name then String.ofList name else "ignore")

def literalHolds (literal : List Char) : Bool :=
  match literal with
  | '!' :: name => if name = [] ∨ name.head? = some '!' then tag "ignore" else !tagHolds golang tag name
  | name => tagHolds golang tag name

def literalsOf (text : List Char) : List (List (List Char)) := (fields text).map fun clause => clause.splitOn ','

def operatorsOf (text : List Char) : Nat := (literalsOf text).flatten.length - 1

def plusBuildHolds (text : List Char) : Bool :=
  decide (operatorsOf text > maxPlusBuildOperators) ||
    (literalsOf text).any fun clause => clause.all (literalHolds golang tag)

def Reads (unicode : Unicode) (line : List Char) (tree : Derivation .or) : Prop :=
  Lexes unicode (goBuildExpr line) tree.tokens ∧ tree.nots ≤ maxExprSize

inductive Decides (text : List Char) : Decision → Prop
  | many (several : 2 ≤ (goBuildLines text).length) : Decides text .refuse
  | reads (line : List Char) (tree : Derivation .or) (one : goBuildLines text = [line]) (read : Reads golang line tree) :
      Decides text (.ofBool (tree.value tag))
  | unread (line : List Char) (one : goBuildLines text = [line]) (none_ : ∀ tree, ¬ Reads golang line tree) :
      Decides text .refuse
  | plus (none_ : goBuildLines text = []) :
      Decides text (.ofBool (((plusBuildRegion text).filterMap splitPlusBuild).all (plusBuildHolds golang tag)))

end Holds

def fileDecision (unicode : Unicode) (tag : String → Bool) (content : List Char) : Decision :=
  match fileConstraint unicode content with
  | .error _ => .refuse
  | .ok none => .build
  | .ok (some expr) => .ofBool (expr.eval tag)

def Blank (text : List Char) : Prop := ∀ c ∈ text, isWhitespace c = true

variable (text : List Char) (c : Char) (rest : List Char) (state : CommentState)

theorem trim_split : ∃ before after, text = before ++ trim text ++ after ∧ Blank before ∧ Blank after := by
  refine ⟨text.takeWhile isWhitespace, (text.dropWhile isWhitespace).rtakeWhile isWhitespace, ?_, ?_, ?_⟩
  · rw [trim, List.append_assoc, List.rdropWhile_append_rtakeWhile, List.takeWhile_append_dropWhile]
  · exact fun c member => List.mem_takeWhile_imp member
  · intro c member
    rw [List.rtakeWhile, List.mem_reverse] at member
    exact List.mem_takeWhile_imp member

theorem trim_head (trimmed : trim text = c :: rest) : isWhitespace c = false := by
  have front : text.dropWhile isWhitespace = c :: rest ++ (text.dropWhile isWhitespace).rtakeWhile isWhitespace := by
    rw [← trimmed, trim, List.rdropWhile_append_rtakeWhile]
  by_contra blank
  have head : (text.dropWhile isWhitespace).head? = some c := by
    rw [front]
    rfl
  have stops := List.head?_dropWhile_not isWhitespace text
  rw [head] at stops
  exact blank (by simpa using stops)

theorem trim_last (last : (trim text).getLast? = some c) : isWhitespace c = false := by
  rw [trim] at last
  obtain ⟨init, split⟩ := List.getLast?_eq_some_iff.mp last
  have stops := List.rdropWhile_last_not isWhitespace (text.dropWhile isWhitespace) (by rw [split]; simp)
  by_contra blank
  apply stops
  simp only [split, List.getLast_append_singleton]
  exact Bool.of_not_eq_false blank

theorem blank_head (blank : Blank (c :: rest)) : c ≠ '*' ∧ c ≠ '/' := by
  have white := blank c List.mem_cons_self
  constructor
  · rintro rfl
    revert white
    decide
  · rintro rfl
    revert white
    decide

theorem run_cons : state.run (c :: rest) = (state.next c).bind fun after => after.run rest := by
  rw [CommentState.run, List.foldlM_cons]
  exact Option.bind_assoc _ _ _

theorem run_blank (blank : List Char) (allBlank : Blank blank) : state.run blank = state.ends := by
  induction blank generalizing state with
  | nil => rfl
  | cons c rest hypothesis =>
      have other := blank_head c rest allBlank
      have after := fun state => hypothesis state fun d member => allBlank d (List.mem_cons_of_mem _ member)
      rw [run_cons]
      cases state with
      | code => rw [CommentState.next, if_pos (allBlank c List.mem_cons_self), Option.bind_some, after]
      | slash =>
          rw [CommentState.next, if_neg other.2, if_neg other.1]
          rfl
      | line => rw [CommentState.next, Option.bind_some, after]
      | block => rw [CommentState.next, if_neg other.1, Option.bind_some, after]
      | star =>
          rw [CommentState.next, if_neg other.2, if_neg other.1, Option.bind_some, after]
          rfl

theorem run_append_blank (text blank : List Char) (allBlank : Blank blank) : state.run (text ++ blank) = state.run text := by
  rw [CommentState.run, CommentState.run, List.foldlM_append]
  cases text.foldlM CommentState.next state with
  | none => rfl
  | some after => exact run_blank after blank allBlank

theorem comment_after_blank_append (open_ : Bool) (blank text : List Char) (allBlank : Blank blank) :
    commentAfter open_ (blank ++ text) = commentAfter open_ text := by
  induction blank with
  | nil => rfl
  | cons c rest hypothesis =>
      have other := blank_head c rest allBlank
      have after := hypothesis fun d member => allBlank d (List.mem_cons_of_mem _ member)
      rw [List.cons_append, commentAfter, run_cons]
      cases open_ with
      | true =>
          rw [if_pos rfl, CommentState.next, if_neg other.1, Option.bind_some]
          exact after
      | false =>
          rw [if_neg Bool.false_ne_true, CommentState.next, if_pos (allBlank c List.mem_cons_self), Option.bind_some]
          exact after

theorem comment_after_trim (open_ : Bool) (text : List Char) : commentAfter open_ (trim text) = commentAfter open_ text := by
  obtain ⟨before, after, split, blankBefore, blankAfter⟩ := trim_split text
  conv => rhs; rw [split]
  rw [List.append_assoc, comment_after_blank_append open_ before _ blankBefore]
  exact (run_append_blank _ (trim text) after blankAfter).symm

theorem run_star :
    CommentState.star.run (c :: rest) = if c = '/' then CommentState.code.run rest else CommentState.block.run (c :: rest) := by
  rw [run_cons, run_cons, CommentState.next, CommentState.next]
  by_cases slash : c = '/'
  · rw [if_pos slash, if_pos slash, Option.bind_some]
  · rw [if_neg slash, if_neg slash]

theorem comment_after_close : commentAfter true text = (afterClose text).elim (some true) (commentAfter false) := by
  induction text using afterClose.induct with
  | case1 => rfl
  | case2 rest => rfl
  | case3 c rest other hypothesis =>
      rw [afterClose.eq_3 c rest other, commentAfter, if_pos rfl, run_cons, CommentState.next, Option.bind_some]
      by_cases star : c = '*'
      · rw [if_pos star]
        cases rest with
        | nil => rfl
        | cons d more =>
            rw [run_star, if_neg fun slash => other more star (by rw [slash])]
            exact hypothesis
      · rw [if_neg star]
        exact hypothesis

theorem after_close_length (closed : afterClose text = some rest) : rest.length < text.length := by
  induction text using afterClose.induct with
  | case1 => cases closed
  | case2 tail =>
      cases closed
      simp only [List.length_cons]
      omega
  | case3 c tail other hypothesis =>
      rw [afterClose.eq_3 c tail other] at closed
      have shorter := hypothesis closed
      rw [List.length_cons]
      omega

theorem trim_length : (trim text).length ≤ text.length := by
  obtain ⟨before, after, split, _⟩ := trim_split text
  have lengths := congrArg List.length split
  simp only [List.length_append] at lengths
  omega

theorem run_line : CommentState.line.run text = some false := by
  induction text with
  | nil => rfl
  | cons c rest hypothesis => rw [run_cons, CommentState.next, Option.bind_some, hypothesis]

theorem comment_after_solid (solid : isWhitespace c = false) : commentAfter false (c :: rest) =
      if "//".toList.isPrefixOf (c :: rest) then some false
      else ((c :: rest).dropPrefix? "/*".toList).bind (commentAfter true) := by
  rw [commentAfter, if_neg Bool.false_ne_true, run_cons, CommentState.next, if_neg (Bool.eq_false_iff.mp solid)]
  by_cases slash : c = '/'
  · subst slash
    rw [if_pos rfl, Option.bind_some]
    cases rest with
    | nil => rfl
    | cons second tail =>
        rw [run_cons, CommentState.next]
        by_cases line : second = '/'
        · subst line
          exact run_line tail
        · have notLine : ¬ "//".toList.isPrefixOf ('/' :: second :: tail) = true := by
            simpa [List.isPrefixOf] using Ne.symm line
          rw [if_neg notLine, if_neg line]
          by_cases block : second = '*'
          · subst block
            have opens : ('/' :: '*' :: tail).dropPrefix? "/*".toList = some tail := by simp [List.dropPrefix?]
            rw [opens, if_pos rfl]
            rfl
          · have notBlock : ('/' :: second :: tail).dropPrefix? "/*".toList = none := by
              simpa [List.dropPrefix?] using block
            rw [notBlock, if_neg block]
            rfl
  · have notLine : ¬ "//".toList.isPrefixOf (c :: rest) = true := by
      simpa [List.isPrefixOf] using fun same => absurd same (Ne.symm slash)
    have notBlock : (c :: rest).dropPrefix? "/*".toList = none := by
      simpa [List.dropPrefix?] using fun same => absurd same slash
    rw [if_neg notLine, notBlock, if_neg slash]
    rfl

theorem drop_front_length (front rest : List Char) (dropped : text.dropPrefix? front = some rest) :
    text.length = front.length + rest.length := by
  obtain ⟨front', split, same⟩ := List.dropPrefix?_eq_some_iff.mp dropped
  rw [split, List.length_append, ← beq_iff_eq.mp same]

theorem scan_line_eq (fuel : Nat) : ∀ (open_ : Bool) (line : List Char), line.length ≤ fuel →
    (open_ = false → ∀ c rest, line = c :: rest → isWhitespace c = false) → scanLine fuel open_ line = commentAfter open_ line := by
  induction fuel with
  | zero =>
      intro open_ line enough _
      rw [List.eq_nil_of_length_eq_zero (Nat.le_zero.mp enough), scanLine]
      cases open_ <;> rfl
  | succ fuel hypothesis =>
      intro open_ line enough begins
      have again : ∀ after text, text.length ≤ fuel → scanLine fuel after (trim text) = commentAfter after text := by
        intro after text shorter
        rw [hypothesis after (trim text) (Nat.le_trans (trim_length text) shorter)
          fun _ d tail trimmed => trim_head text d tail trimmed, comment_after_trim]
      rw [scanLine]
      cases line with
      | nil =>
          rw [if_pos rfl]
          cases open_ <;> rfl
      | cons c rest =>
          rw [if_neg (List.cons_ne_nil c rest)]
          cases open_ with
          | true =>
              rw [if_pos rfl, comment_after_close]
              cases closed : afterClose (c :: rest) with
              | none => rfl
              | some tail =>
                  have shorter := after_close_length _ _ closed
                  exact again false tail (by omega)
          | false =>
              rw [if_neg Bool.false_ne_true, comment_after_solid c rest (begins rfl c rest rfl)]
              split
              · rfl
              · cases opened : (c :: rest).dropPrefix? "/*".toList with
                | none => rfl
                | some after =>
                    have lengths := drop_front_length _ _ _ opened
                    have mark : "/*".toList.length = 2 := rfl
                    exact again true after (by omega)

end Filefacts.Constraint
