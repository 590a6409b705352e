import Mathlib.Data.List.Infix
import Mathlib.Algebra.Order.Ring.Nat
import Mathlib.Data.List.TakeWhile

set_option autoImplicit false

namespace Filefacts.Crx

section Scanner

-- The scanner only looks at the byte of an octet, so it runs on octets that say
-- where they come from as well.
variable {Octet : Type} (byte : Octet → UInt8) (space : Octet)

def afterClose : List Octet → List Octet
  | [] => []
  | [_] => []
  | star :: slash :: rest => if byte star = 42 ∧ byte slash = 47 then rest else afterClose (slash :: rest)

theorem after_close_le (rest : List Octet) : (afterClose byte rest).length ≤ rest.length := by
  fun_induction afterClose byte rest with
  | case1 => exact le_rfl
  | case2 octet => exact Nat.zero_le _
  | case3 star slash rest closed =>
      rw [List.length_cons, List.length_cons]
      omega
  | case4 star slash rest other ih =>
      rw [List.length_cons]
      omega

def stripComments (inString : Bool) (rest : List Octet) : List Octet :=
  match rest with
  | [] => []
  | b :: tail =>
      if inString then
        if byte b = 92 then
          match tail with
          | [] => [b]
          | escaped :: after => b :: escaped :: stripComments true after
        else b :: stripComments (byte b ≠ 34) tail
      else if byte b = 34 then b :: stripComments true tail
      else if byte b = 47 ∧ tail.head?.map byte = some 47 then
        stripComments false (tail.dropWhile fun octet => byte octet ≠ 10)
      else if byte b = 47 ∧ tail.head?.map byte = some 42 then space :: stripComments false (afterClose byte (tail.drop 1))
      else b :: stripComments false tail
termination_by rest.length
decreasing_by
  · simp only [List.length_cons]
    omega
  · exact Nat.lt_succ_self _
  · exact Nat.lt_succ_self _
  · exact Nat.lt_succ_of_le (List.length_dropWhile_le _ _)
  · have behind := after_close_le byte (tail.drop 1)
    rw [List.length_drop] at behind
    rw [List.length_cons]
    omega
  · exact Nat.lt_succ_self _

theorem strip_comments_cons (inString : Bool) (b : Octet) (tail : List Octet) :
    stripComments byte space inString (b :: tail) =
      if inString then
        if byte b = 92 then b :: (tail.head?.toList ++ stripComments byte space true tail.tail)
        else b :: stripComments byte space (byte b ≠ 34) tail
      else if byte b = 34 then b :: stripComments byte space true tail
      else if byte b = 47 ∧ tail.head?.map byte = some 47 then
        stripComments byte space false (tail.dropWhile fun octet => byte octet ≠ 10)
      else if byte b = 47 ∧ tail.head?.map byte = some 42 then
        space :: stripComments byte space false (afterClose byte (tail.drop 1))
      else b :: stripComments byte space false tail := by
  rw [stripComments.eq_def]
  dsimp only
  cases tail with
  | nil =>
      rw [List.tail_nil, stripComments.eq_def byte space true]
      rfl
  | cons escaped after => rfl

end Scanner

def byteOrderMark : List UInt8 := [0xEF, 0xBB, 0xBF]

def withoutMark (raw : List UInt8) : List UInt8 := if byteOrderMark.isPrefixOf raw then raw.drop 3 else raw

def browserManifestJson (raw : List UInt8) : List UInt8 :=
  if 47 ∉ withoutMark raw then withoutMark raw else stripComments id 32 false (withoutMark raw)

-- The lexical grammar of JSON. A word is a run of the letters numbers and
-- literals are made of.
def isBlank (b : UInt8) : Bool := b == 32 || b == 9 || b == 10 || b == 13

def isMark (b : UInt8) : Bool := b == 123 || b == 125 || b == 91 || b == 93 || b == 58 || b == 44

def isLetter (b : UInt8) : Bool := (48 ≤ b && b ≤ 57) || (97 ≤ b && b ≤ 122) || (65 ≤ b && b ≤ 90) || b == 43 || b == 45 || b == 46

inductive Piece where
  | plain (b : UInt8)
  | escape (b : UInt8)
deriving DecidableEq, Repr

inductive Token where
  | mark (b : UInt8)
  | text (pieces : List Piece)
  | word (letters : List UInt8)
deriving DecidableEq, Repr

def Piece.bytes : Piece → List UInt8
  | .plain b => [b]
  | .escape b => [92, b]

def Piece.isValid : Piece → Bool
  | .plain b => 32 ≤ b && b != 34 && b != 92
  | .escape b => 32 ≤ b

def Token.bytes : Token → List UInt8
  | .mark b => [b]
  | .text pieces => 34 :: (pieces.flatMap Piece.bytes ++ [34])
  | .word letters => letters

def Token.isValid : Token → Bool
  | .mark b => isMark b
  | .text pieces => pieces.all Piece.isValid
  | .word letters => letters ≠ [] && letters.all isLetter

def Token.isWord : Token → Bool
  | .word _ => true
  | _ => false

def lexString : List UInt8 → Option (List Piece × List UInt8)
  | [] => none
  | 34 :: rest => some ([], rest)
  | 92 :: b :: rest => if 32 ≤ b then (lexString rest).map fun read => (.escape b :: read.1, read.2) else none
  | b :: rest => if 32 ≤ b ∧ b ≠ 92 then (lexString rest).map fun read => (.plain b :: read.1, read.2) else none

theorem lex_string_le (text rest : List UInt8) (pieces : List Piece) (read : lexString text = some (pieces, rest)) :
    rest.length ≤ text.length := by
  fun_induction lexString text generalizing pieces with
  | case1 => cases read
  | case2 text =>
      rw [← (Prod.mk.inj (Option.some.inj read)).2]
      exact Nat.le_succ _
  | case3 b text printable ih =>
      obtain ⟨⟨more, after⟩, there, same⟩ := Option.map_eq_some_iff.mp read
      obtain ⟨-, rfl⟩ := Prod.mk.inj same
      exact (ih more there).trans ((Nat.le_succ _).trans (Nat.le_succ _))
  | case4 b text control => cases read
  | case5 b text notQuote notEscape printable ih =>
      obtain ⟨⟨more, after⟩, there, same⟩ := Option.map_eq_some_iff.mp read
      obtain ⟨-, rfl⟩ := Prod.mk.inj same
      exact (ih more there).trans (Nat.le_succ _)
  | case6 b text notQuote notEscape control => cases read

def lex (text : List UInt8) : Option (List Token) :=
  match text with
  | [] => some []
  | b :: rest =>
      if isBlank b then lex rest
      else if isMark b then (lex rest).map fun tokens => .mark b :: tokens
      else if b = 34 then
        match _step : lexString rest with
        | none => none
        | some (pieces, after) => (lex after).map fun tokens => .text pieces :: tokens
      else if isLetter b then (lex (rest.dropWhile isLetter)).map fun tokens => .word (b :: rest.takeWhile isLetter) :: tokens
      else none
termination_by text.length
decreasing_by
  · exact Nat.lt_succ_self _
  · exact Nat.lt_succ_self _
  · exact Nat.lt_succ_of_le (lex_string_le rest after pieces _step)
  · exact Nat.lt_succ_of_le (List.length_dropWhile_le _ _)

-- A manifest as its tokens, white space and comments, each octet marked when it
-- is of a comment.
inductive Item where
  | token (given : Token)
  | blank (b : UInt8)
  | line (body : List UInt8)
  | block (body : List UInt8)
deriving DecidableEq, Repr

abbrev Octets := List (UInt8 × Bool)

def source (bytes : List UInt8) : Octets := bytes.map fun b => (b, false)

def comment (bytes : List UInt8) : Octets := bytes.map fun b => (b, true)

def Item.octets : Item → Octets
  | .token given => source given.bytes
  | .blank b => source [b]
  | .line body => comment (47 :: 47 :: body)
  | .block body => comment (47 :: 42 :: (body ++ [42, 47]))

def octets (items : List Item) : Octets := items.flatMap Item.octets

def render (items : List Item) : List UInt8 := (octets items).map Prod.fst

def tokens : List Item → List Token
  | [] => []
  | .token given :: rest => given :: tokens rest
  | _ :: rest => tokens rest

def startsWord : List Item → Bool
  | .token given :: _ => given.isWord
  | _ => false

def endsLine : List Item → Bool
  | [] => true
  | .blank b :: _ => b = 10 || b = 13
  | _ => false

-- No word follows a word at once, a line comment runs to a line feed, a carriage
-- return or the end, and a block comment to its first end.
def Item.fits : Item → List Item → Bool
  | .token given, rest => given.isValid && !(given.isWord && startsWord rest)
  | .blank b, _ => isBlank b
  | .line body, rest => (body.all fun b => b != 10 && b != 13) && endsLine rest
  | .block body, _ => !decide ([42, 47] <:+: body)

def isManifest : List Item → Bool
  | [] => true
  | item :: rest => item.fits rest && isManifest rest

def emptyLine : List Item → Bool
  | [] => true
  | .blank b :: rest => b = 10 || emptyLine rest
  | .token _ :: _ => false
  | .line _ :: rest => emptyLine rest
  | .block body :: rest => 10 ∉ body && emptyLine rest

def linesEmpty : List Item → Bool
  | [] => true
  | .line _ :: rest => emptyLine rest && linesEmpty rest
  | _ :: rest => linesEmpty rest

def strip (items : List Item) : Octets := stripComments Prod.fst (32, false) false (octets items)

def fromFeed : List Item → Option (List Item)
  | [] => some []
  | .blank b :: rest => if b = 10 then some (.blank b :: rest) else fromFeed rest
  | .token _ :: rest => fromFeed rest
  | .line _ :: rest => fromFeed rest
  | .block body :: rest => if 10 ∈ body then none else fromFeed rest

variable (inString : Bool) (b : UInt8) (given : Token) (body : List UInt8) (rest items : List Item)

theorem strip_open {b : UInt8 × Bool} (tail : Octets) (plain : inString = false) (notQuote : b.1 ≠ 34)
    (notSlash : b.1 ≠ 47) :
    stripComments Prod.fst (32, false) inString (b :: tail) = b :: stripComments Prod.fst (32, false) false tail := by
  rw [stripComments.eq_def, plain]
  dsimp only
  rw [if_neg Bool.false_ne_true, if_neg notQuote, if_neg (fun both => notSlash both.1), if_neg (fun both => notSlash both.1)]

theorem strip_run {run : Octets} (tail : Octets) (plain : ∀ octet ∈ run, octet.1 ≠ 34 ∧ octet.1 ≠ 47) :
    stripComments Prod.fst (32, false) false (run ++ tail) = run ++ stripComments Prod.fst (32, false) false tail := by
  induction run with
  | nil => rfl
  | cons octet run ih =>
      obtain ⟨notQuote, notSlash⟩ := plain octet List.mem_cons_self
      rw [List.cons_append, strip_open false _ rfl notQuote notSlash, ih fun other member => plain other (List.mem_cons_of_mem _ member),
        List.cons_append]

variable (piece : Piece) (tail : Octets) (pieces : List Piece) (item : Item) (later : List Item)

theorem strip_piece (valid : piece.isValid = true) :
    stripComments Prod.fst (32, false) true (source piece.bytes ++ tail) =
      source piece.bytes ++ stripComments Prod.fst (32, false) true tail := by
  cases piece with
  | plain b =>
      simp only [Piece.isValid, Bool.and_eq_true, bne_iff_ne, decide_eq_true_eq] at valid
      obtain ⟨⟨-, notQuote⟩, notEscape⟩ := valid
      change stripComments Prod.fst (32, false) true ((b, false) :: tail) = _
      rw [stripComments.eq_def]
      dsimp only
      rw [if_pos rfl, if_neg notEscape, decide_eq_true notQuote]
      rfl
  | escape b =>
      change stripComments Prod.fst (32, false) true ((92, false) :: (b, false) :: tail) = _
      rw [stripComments.eq_def]
      dsimp only
      rw [if_pos rfl, if_pos rfl]
      rfl

theorem strip_pieces (tail : Octets) (valid : pieces.all Piece.isValid = true) :
    stripComments Prod.fst (32, false) true (source (pieces.flatMap Piece.bytes) ++ tail) =
      source (pieces.flatMap Piece.bytes) ++ stripComments Prod.fst (32, false) true tail := by
  induction pieces with
  | nil => rfl
  | cons piece pieces ih =>
      rw [List.all_cons, Bool.and_eq_true] at valid
      rw [List.flatMap_cons, source, List.map_append, ← source, ← source, List.append_assoc, strip_piece piece _ valid.1, ih valid.2,
        List.append_assoc]

theorem blank_cases (blank : isBlank b = true) : b = 32 ∨ b = 9 ∨ b = 10 ∨ b = 13 := by
  simpa only [isBlank, Bool.or_eq_true, beq_iff_eq, or_assoc] using blank

theorem mark_cases (mark : isMark b = true) : b = 123 ∨ b = 125 ∨ b = 91 ∨ b = 93 ∨ b = 58 ∨ b = 44 := by
  simpa only [isMark, Bool.or_eq_true, beq_iff_eq, or_assoc] using mark

theorem letter_plain (letter : isLetter b = true) : b ≠ 34 ∧ b ≠ 47 ∧ b ≠ 10 ∧ isBlank b = false ∧ isMark b = false := by
  refine ⟨?_, ?_, ?_, ?_, ?_⟩
  · rintro rfl
    cases letter
  · rintro rfl
    cases letter
  · rintro rfl
    cases letter
  · by_contra blank
    rcases blank_cases b (Bool.of_not_eq_false blank) with rfl | rfl | rfl | rfl <;> cases letter
  · by_contra mark
    rcases mark_cases b (Bool.of_not_eq_false mark) with rfl | rfl | rfl | rfl | rfl | rfl <;> cases letter

theorem strip_token (valid : given.isValid = true) :
    stripComments Prod.fst (32, false) false (source given.bytes ++ tail) =
      source given.bytes ++ stripComments Prod.fst (32, false) false tail := by
  cases given with
  | mark b =>
      refine strip_run tail fun octet member => ?_
      obtain rfl := List.mem_singleton.mp member
      rcases mark_cases b valid with rfl | rfl | rfl | rfl | rfl | rfl <;> decide
  | text pieces =>
      change stripComments Prod.fst (32, false) false ((34, false) :: (source (pieces.flatMap Piece.bytes ++ [34]) ++ tail)) = _
      rw [stripComments.eq_def]
      dsimp only
      rw [if_neg Bool.false_ne_true, if_pos rfl, source, List.map_append, ← source, List.append_assoc, strip_pieces pieces _ valid]
      change _ :: (_ ++ stripComments Prod.fst (32, false) true ((34, false) :: tail)) = _
      rw [stripComments.eq_def]
      dsimp only
      rw [if_pos rfl, if_neg (by decide)]
      simp [Token.bytes, source]
  | word letters =>
      refine strip_run tail fun octet member => ?_
      obtain ⟨b, inside, rfl⟩ := List.mem_map.mp member
      rw [Token.isValid, Bool.and_eq_true, List.all_eq_true] at valid
      have plain := letter_plain b (valid.2 b inside)
      exact ⟨plain.1, plain.2.1⟩

theorem strip_blank (valid : isBlank b = true) :
    stripComments Prod.fst (32, false) false (source [b] ++ tail) = (b, false) :: stripComments Prod.fst (32, false) false tail := by
  refine strip_run tail fun octet member => ?_
  obtain rfl := List.mem_singleton.mp member
  rcases blank_cases b valid with rfl | rfl | rfl | rfl <;> decide

theorem drop_until_feed {run : Octets} (tail : Octets) (plain : ∀ octet ∈ run, octet.1 ≠ 10) :
    (run ++ tail).dropWhile (fun octet => octet.1 ≠ 10) = tail.dropWhile fun octet => octet.1 ≠ 10 :=
  List.dropWhile_append_of_pos fun octet member => decide_eq_true (plain octet member)

theorem comment_plain (plain : 10 ∉ body) (octet : UInt8 × Bool) (member : octet ∈ comment body) : octet.1 ≠ 10 := by
  obtain ⟨b, inside, rfl⟩ := List.mem_map.mp member
  exact fun feed => plain (feed ▸ inside)

theorem strip_line (plain : 10 ∉ body) : stripComments Prod.fst (32, false) false (comment (47 :: 47 :: body) ++ tail) =
      stripComments Prod.fst (32, false) false (tail.dropWhile fun octet => octet.1 ≠ 10) := by
  have dropped := drop_until_feed tail (comment_plain (47 :: body) (by simpa using plain))
  change stripComments Prod.fst (32, false) false ((47, true) :: (comment (47 :: body) ++ tail)) = _
  rw [stripComments.eq_def]
  dsimp only
  rw [if_neg Bool.false_ne_true, if_neg (by decide), if_pos ⟨rfl, rfl⟩, dropped]

theorem after_close_body (unclosed : ¬ [42, 47] <:+: body) :
    afterClose Prod.fst (comment (body ++ [42, 47]) ++ tail) = tail := by
  induction body with
  | nil =>
      change afterClose Prod.fst ((42, true) :: (47, true) :: tail) = tail
      rw [afterClose, if_pos ⟨rfl, rfl⟩]
  | cons b body ih =>
      have later := ih fun within => unclosed (within.trans (List.suffix_cons b body).isInfix)
      cases body with
      | nil =>
          change afterClose Prod.fst ((b, true) :: (42, true) :: (47, true) :: tail) = tail
          rw [afterClose, if_neg (fun both => absurd both.2 (by decide))]
          exact later
      | cons c body =>
          have apart : ¬ (b = 42 ∧ c = 47) := by
            rintro ⟨rfl, rfl⟩
            exact unclosed (List.prefix_append [42, 47] body).isInfix
          change afterClose Prod.fst ((b, true) :: (c, true) :: (comment (body ++ [42, 47]) ++ tail)) = tail
          rw [afterClose, if_neg apart]
          exact later

theorem strip_block (unclosed : ¬ [42, 47] <:+: body) :
    stripComments Prod.fst (32, false) false (comment (47 :: 42 :: (body ++ [42, 47])) ++ tail) =
      (32, false) :: stripComments Prod.fst (32, false) false tail := by
  have other : ¬ (42 : UInt8) = 47 := by decide
  change stripComments Prod.fst (32, false) false ((47, true) :: (42, true) :: (comment (body ++ [42, 47]) ++ tail)) = _
  rw [stripComments.eq_def]
  dsimp only
  rw [if_neg Bool.false_ne_true, if_neg (by decide), if_neg (fun both => other (Option.some.inj both.2)), if_pos ⟨rfl, rfl⟩,
    List.drop_one, List.tail_cons, after_close_body body tail unclosed]

theorem piece_printable (valid : piece.isValid = true) (b : UInt8) (member : b ∈ piece.bytes) : 32 ≤ b := by
  cases piece with
  | plain c =>
      obtain rfl := List.mem_singleton.mp member
      simp only [Piece.isValid, Bool.and_eq_true, decide_eq_true_eq] at valid
      exact valid.1.1
  | escape c =>
      rcases List.mem_cons.mp member with rfl | second
      · decide
      · obtain rfl := List.mem_singleton.mp second
        exact of_decide_eq_true valid

theorem token_no_feed (valid : given.isValid = true) : 10 ∉ given.bytes := by
  intro member
  cases given with
  | mark b =>
      obtain rfl := List.mem_singleton.mp member
      cases valid
  | text pieces =>
      rcases List.mem_cons.mp member with quote | inside
      · exact absurd quote (by decide)
      · rcases List.mem_append.mp inside with body | quote
        · obtain ⟨piece, listed, within⟩ := List.mem_flatMap.mp body
          exact absurd (piece_printable piece (List.all_eq_true.mp valid piece listed) 10 within) (by decide)
        · exact absurd (List.mem_singleton.mp quote) (by decide)
  | word letters =>
      rw [Token.isValid, Bool.and_eq_true, List.all_eq_true] at valid
      exact (letter_plain 10 (valid.2 10 member)).2.2.1 rfl

theorem source_plain (bytes : List UInt8) (plain : 10 ∉ bytes) (octet : UInt8 × Bool) (member : octet ∈ source bytes) : octet.1 ≠ 10 := by
  obtain ⟨b, inside, rfl⟩ := List.mem_map.mp member
  exact fun feed => plain (feed ▸ inside)

theorem octets_cons (rest : List Item) : octets (item :: rest) = item.octets ++ octets rest := rfl

theorem manifest_cons (rest : List Item) : isManifest (item :: rest) = true ↔ item.fits rest = true ∧ isManifest rest = true := by
  rw [isManifest, Bool.and_eq_true]

theorem line_plain (valid : (Item.line body).fits rest = true) : 10 ∉ body ∧ endsLine rest = true := by
  rw [Item.fits, Bool.and_eq_true, List.all_eq_true] at valid
  refine ⟨fun member => ?_, valid.2⟩
  have plain := valid.1 10 member
  simp at plain

theorem from_feed_octets (valid : isManifest items = true) :
    (∀ later, fromFeed items = some later → (octets items).dropWhile (fun octet => octet.1 ≠ 10) = octets later ∧ later <:+ items) ∧
      (fromFeed items = none → ∃ more, (octets items).dropWhile (fun octet => octet.1 ≠ 10) = (10, true) :: more) := by
  induction items with
  | nil =>
      refine ⟨fun later found => ?_, fun lost => by cases lost⟩
      obtain rfl := Option.some.inj found
      exact ⟨rfl, List.suffix_rfl⟩
  | cons item rest ih =>
      rw [manifest_cons] at valid
      obtain ⟨here, valid⟩ := valid
      obtain ⟨found, lost⟩ := ih valid
      have passed : ∀ run : Octets, item.octets = run → (∀ octet ∈ run, octet.1 ≠ 10) → fromFeed (item :: rest) = fromFeed rest →
          (∀ later, fromFeed (item :: rest) = some later →
            (octets (item :: rest)).dropWhile (fun octet => octet.1 ≠ 10) = octets later ∧ later <:+ item :: rest) ∧
          (fromFeed (item :: rest) = none → ∃ more, (octets (item :: rest)).dropWhile (fun octet => octet.1 ≠ 10) = (10, true) :: more) := by
        intro run shape plain same
        rw [same, octets_cons, shape, drop_until_feed _ plain]
        exact ⟨fun later there => ⟨(found later there).1, (found later there).2.trans (List.suffix_cons item rest)⟩, lost⟩
      cases item with
      | token given => exact passed _ rfl (source_plain _ (token_no_feed given (by rw [Item.fits, Bool.and_eq_true] at here; exact here.1))) rfl
      | blank b =>
          by_cases feed : b = 10
          · subst feed
            rw [fromFeed, if_pos rfl]
            refine ⟨fun later there => ?_, fun gone => by cases gone⟩
            obtain rfl := Option.some.inj there
            exact ⟨rfl, List.suffix_rfl⟩
          · exact passed _ rfl (source_plain [b] (by simpa using Ne.symm feed)) (by rw [fromFeed, if_neg feed])
      | line body => exact passed _ rfl (comment_plain _ (by simpa using (line_plain body rest here).1)) rfl
      | block body =>
          by_cases feed : 10 ∈ body
          · rw [fromFeed, if_pos feed]
            refine ⟨fun later there => (by cases there), fun gone => ?_⟩
            obtain ⟨front, back, rfl, first⟩ := List.eq_append_cons_of_mem feed
            have shape : octets (.block (front ++ 10 :: back) :: rest) =
                comment (47 :: 42 :: front) ++ (10, true) :: (comment (back ++ [42, 47]) ++ octets rest) := by
              simp [octets_cons, Item.octets, comment]
            refine ⟨comment (back ++ [42, 47]) ++ octets rest, ?_⟩
            rw [shape, drop_until_feed _ (comment_plain _ (by simpa using first))]
            exact List.dropWhile_cons_of_neg (by decide)
          · exact passed _ rfl (comment_plain _ (by simpa using feed)) (by rw [fromFeed, if_neg feed])

theorem manifest_suffix (items : List Item) (valid : isManifest items = true) (suffix : later <:+ items) :
    isManifest later = true := by
  obtain ⟨front, rfl⟩ := suffix
  induction front with
  | nil => exact valid
  | cons item front ih => exact ih ((manifest_cons item _).mp valid).2

theorem line_tokens : tokens (.line body :: rest) = tokens rest := rfl

-- What is skipped up to the line feed holds a token, or the lines in it are empty
-- and those behind it decide.
theorem from_feed_tokens (found : fromFeed items = some later) :
    (emptyLine items = true → tokens later = tokens items ∧ linesEmpty later = linesEmpty items) ∧
      (emptyLine items = false → (tokens later).length < (tokens items).length) ∧ (tokens later).length ≤ (tokens items).length := by
  induction items with
  | nil =>
      obtain rfl := Option.some.inj found
      exact ⟨fun _ => ⟨rfl, rfl⟩, fun lost => (by cases lost), le_rfl⟩
  | cons item rest ih =>
      cases item with
      | token given =>
          obtain ⟨-, -, fewer⟩ := ih found
          exact ⟨fun empty => (by cases empty), fun _ => Nat.lt_succ_of_le fewer, fewer.trans (Nat.le_succ _)⟩
      | blank b =>
          by_cases feed : b = 10
          · rw [fromFeed, if_pos feed] at found
            obtain rfl := Option.some.inj found
            refine ⟨fun _ => ⟨rfl, rfl⟩, fun lost => ?_, le_rfl⟩
            rw [emptyLine, decide_eq_true feed] at lost
            cases lost
          · rw [fromFeed, if_neg feed] at found
            rw [emptyLine, decide_eq_false feed, Bool.false_or]
            exact ih found
      | line body =>
          obtain ⟨empty, lost, fewer⟩ := ih found
          refine ⟨fun clear => ⟨(empty clear).1, ?_⟩, lost, fewer⟩
          rw [emptyLine] at clear
          rw [linesEmpty, clear, Bool.true_and]
          exact (empty clear).2
      | block body =>
          by_cases feed : 10 ∈ body
          · rw [fromFeed, if_pos feed] at found
            cases found
          · rw [fromFeed, if_neg feed] at found
            rw [emptyLine, decide_eq_true feed, Bool.true_and]
            exact ih found

theorem from_feed_none (lost : fromFeed items = none) : emptyLine items = false := by
  induction items with
  | nil => cases lost
  | cons item rest ih =>
      cases item with
      | token given => rfl
      | blank b =>
          by_cases feed : b = 10
          · rw [fromFeed, if_pos feed] at lost
            cases lost
          · rw [fromFeed, if_neg feed] at lost
            rw [emptyLine, decide_eq_false feed, Bool.false_or]
            exact ih lost
      | line body => exact ih lost
      | block body =>
          by_cases feed : 10 ∈ body
          · rw [emptyLine, decide_eq_false (not_not.mpr feed), Bool.false_and]
          · rw [fromFeed, if_neg feed] at lost
            rw [emptyLine, ih lost, Bool.and_false]

theorem lex_blank (rest : List UInt8) (blank : isBlank b = true) : lex (b :: rest) = lex rest := by
  rw [lex.eq_def]
  dsimp only
  rw [if_pos blank]

theorem lex_string_pieces (rest : List UInt8) (valid : pieces.all Piece.isValid = true) :
    lexString (pieces.flatMap Piece.bytes ++ 34 :: rest) = some (pieces, rest) := by
  induction pieces with
  | nil => rfl
  | cons piece pieces ih =>
      rw [List.all_cons, Bool.and_eq_true] at valid
      have later := ih valid.2
      cases piece with
      | plain b =>
          have plain := valid.1
          simp only [Piece.isValid, Bool.and_eq_true, bne_iff_ne, decide_eq_true_eq] at plain
          obtain ⟨⟨printable, notQuote⟩, notEscape⟩ := plain
          change lexString (b :: (pieces.flatMap Piece.bytes ++ 34 :: rest)) = _
          rw [lexString.eq_def]
          split
          · next empty => cases empty
          · next other same => exact absurd (List.cons.inj same).1 notQuote
          · next c other same => exact absurd (List.cons.inj same).1 notEscape
          · next c other _ _ same =>
              obtain ⟨rfl, rfl⟩ := List.cons.inj same
              rw [if_pos ⟨printable, notEscape⟩, later]
              rfl
      | escape b =>
          have printable : 32 ≤ b := of_decide_eq_true valid.1
          change lexString (92 :: b :: (pieces.flatMap Piece.bytes ++ 34 :: rest)) = _
          rw [lexString, if_pos printable, later]
          rfl

theorem lex_token (rest : List UInt8) (valid : given.isValid = true)
    (apart : given.isWord = true → ∀ b ∈ rest.head?, isLetter b = false) :
    lex (given.bytes ++ rest) = (lex rest).map fun tokens => given :: tokens := by
  cases given with
  | mark b =>
      have notBlank : ¬ isBlank b = true := by
        intro blank
        rcases blank_cases b blank with rfl | rfl | rfl | rfl <;> cases valid
      change lex (b :: rest) = _
      rw [lex.eq_def]
      dsimp only
      rw [if_neg notBlank, if_pos (show isMark b = true from valid)]
  | text pieces =>
      change lex (34 :: ((pieces.flatMap Piece.bytes ++ [34]) ++ rest)) = _
      rw [lex.eq_def]
      dsimp only
      rw [if_neg (by decide), if_neg (by decide), if_pos rfl]
      have read := lex_string_pieces pieces rest valid
      rw [← List.singleton_append, ← List.append_assoc] at read
      split
      · next none_left =>
          rw [read] at none_left
          cases none_left
      · next more after there =>
          rw [read] at there
          obtain ⟨rfl, rfl⟩ := Prod.mk.inj (Option.some.inj there)
          rfl
  | word letters =>
      rw [Token.isValid, Bool.and_eq_true, List.all_eq_true] at valid
      obtain ⟨filled, letter⟩ := valid
      cases letters with
      | nil => cases filled
      | cons b letters =>
          have first := letter_plain b (letter b List.mem_cons_self)
          have others : ∀ c ∈ letters, isLetter c = true := fun c member => letter c (List.mem_cons_of_mem _ member)
          have stop : rest.takeWhile isLetter = [] ∧ rest.dropWhile isLetter = rest := by
            cases rest with
            | nil => exact ⟨rfl, rfl⟩
            | cons c rest =>
                have other := apart rfl c rfl
                simp [other]
          change lex (b :: (letters ++ rest)) = _
          rw [lex.eq_def]
          dsimp only
          rw [if_neg (Bool.eq_false_iff.mp first.2.2.2.1), if_neg (Bool.eq_false_iff.mp first.2.2.2.2), if_neg first.1,
            if_pos (letter b List.mem_cons_self), List.dropWhile_append_of_pos others, List.takeWhile_append_of_pos others, stop.1,
            stop.2, List.append_nil]

theorem strip_nil : stripComments Prod.fst (32, false) false ([] : Octets) = [] := by
  rw [stripComments.eq_def]

theorem strip_items_token (valid : given.isValid = true) :
    strip (.token given :: rest) = source given.bytes ++ strip rest :=
  strip_token given (octets rest) valid

theorem strip_items_blank (valid : isBlank b = true) : strip (.blank b :: rest) = source [b] ++ strip rest :=
  strip_blank b (octets rest) valid

theorem strip_items_block (unclosed : ¬ [42, 47] <:+: body) : strip (.block body :: rest) = source [32] ++ strip rest :=
  strip_block body (octets rest) unclosed

theorem strip_apart (valid : isManifest items = true) (apart : startsWord items = false) :
    ∀ b ∈ ((strip items).map Prod.fst).head?, isLetter b = false := by
  intro b first
  cases items with
  | nil =>
      rw [strip, octets, List.flatMap_nil, strip_nil] at first
      cases first
  | cons item rest =>
      rw [manifest_cons] at valid
      obtain ⟨here, valid⟩ := valid
      cases item with
      | token given =>
          rw [Item.fits, Bool.and_eq_true] at here
          rw [strip_items_token given rest here.1] at first
          cases given with
          | mark c =>
              obtain rfl := Option.some.inj first
              rcases mark_cases c here.1 with rfl | rfl | rfl | rfl | rfl | rfl <;> rfl
          | text pieces =>
              obtain rfl := Option.some.inj first
              rfl
          | word letters => cases apart
      | blank c =>
          rw [strip_items_blank c rest here] at first
          obtain rfl := Option.some.inj first
          rcases blank_cases c here with rfl | rfl | rfl | rfl <;> rfl
      | line body =>
          have plain := (line_plain body rest here).1
          have stripped : strip (.line body :: rest) = stripComments Prod.fst (32, false) false ((octets rest).dropWhile fun octet => octet.1 ≠ 10) :=
            strip_line body (octets rest) plain
          rw [stripped] at first
          cases dropped : (octets rest).dropWhile fun octet => octet.1 ≠ 10 with
          | nil =>
              rw [dropped, strip_nil] at first
              cases first
          | cons octet more =>
              have feed : octet.1 = 10 := by
                have head := List.head?_dropWhile_not (fun octet : UInt8 × Bool => octet.1 ≠ 10) (octets rest)
                rw [dropped] at head
                simpa using head
              rw [dropped, strip_open false more rfl (by rw [feed]; decide) (by rw [feed]; decide)] at first
              obtain rfl := Option.some.inj first
              rw [feed]
              rfl
      | block body =>
          rw [Item.fits, Bool.not_eq_true', decide_eq_false_iff_not] at here
          rw [strip_items_block body rest here] at first
          obtain rfl := Option.some.inj first
          rfl

-- What the scanner makes of a manifest: all its tokens and nothing of a comment,
-- or fewer tokens or something of a comment.
def Kept (items : List Item) : Prop :=
  (∀ octet ∈ strip items, octet.2 = false) ∧ lex ((strip items).map Prod.fst) = some (tokens items)

def Lost (items : List Item) : Prop :=
  (∃ octet ∈ strip items, octet.2 = true) ∨
    ∃ found, lex ((strip items).map Prod.fst) = some found ∧ found.length < (tokens items).length

theorem kept_step (given : List Token) (run : List UInt8) (item : Item) (rest : List Item)
    (stripped : strip (item :: rest) = source run ++ strip rest) (listed : tokens (item :: rest) = given ++ tokens rest)
    (read : lex (run ++ (strip rest).map Prod.fst) = (lex ((strip rest).map Prod.fst)).map fun tokens => given ++ tokens) :
    (Kept rest → Kept (item :: rest)) ∧ (Lost rest → Lost (item :: rest)) := by
  have bytes : (strip (item :: rest)).map Prod.fst = run ++ (strip rest).map Prod.fst := by
    rw [stripped, List.map_append, source, List.map_map]
    congr 1
    exact List.map_id run
  constructor
  · rintro ⟨clean, lexed⟩
    refine ⟨fun octet member => ?_, ?_⟩
    · rw [stripped] at member
      rcases List.mem_append.mp member with front | behind
      · obtain ⟨b, -, rfl⟩ := List.mem_map.mp front
        rfl
      · exact clean octet behind
    · rw [bytes, read, lexed, listed]
      rfl
  · rintro (⟨octet, member, survived⟩ | ⟨found, lexed, fewer⟩)
    · exact Or.inl ⟨octet, stripped ▸ List.mem_append_right _ member, survived⟩
    · refine Or.inr ⟨given ++ found, ?_, ?_⟩
      · rw [bytes, read, lexed]
        rfl
      · rw [listed, List.length_append, List.length_append]
        omega

theorem lost_not_kept (lost : Lost items) : ¬ Kept items := by
  rintro ⟨clean, lexed⟩
  rcases lost with ⟨octet, member, survived⟩ | ⟨found, same, fewer⟩
  · rw [clean octet member] at survived
    cases survived
  · rw [lexed] at same
    obtain rfl := Option.some.inj same
    exact Nat.lt_irrefl _ fewer

theorem line_outcome (valid : isManifest (.line body :: rest) = true)
    (ih : ∀ later, later <:+ rest → (linesEmpty later = true → Kept later) ∧ (linesEmpty later = false → Lost later)) :
    (linesEmpty (.line body :: rest) = true → Kept (.line body :: rest)) ∧
      (linesEmpty (.line body :: rest) = false → Lost (.line body :: rest)) := by
  rw [manifest_cons] at valid
  obtain ⟨here, valid⟩ := valid
  have stripped : strip (.line body :: rest) =
      stripComments Prod.fst (32, false) false ((octets rest).dropWhile fun octet => octet.1 ≠ 10) :=
    strip_line body (octets rest) (line_plain body rest here).1
  obtain ⟨resumes, breaks⟩ := from_feed_octets rest valid
  rw [linesEmpty]
  cases found : fromFeed rest with
  | none =>
      obtain ⟨more, dropped⟩ := breaks found
      rw [from_feed_none rest found, Bool.false_and]
      refine ⟨fun empty => (by cases empty), fun _ => Or.inl ⟨(10, true), ?_, rfl⟩⟩
      rw [stripped, dropped, strip_open false more rfl (by decide) (by decide)]
      exact List.mem_cons_self
  | some later =>
      obtain ⟨dropped, suffix⟩ := resumes later found
      obtain ⟨empty, fewer, -⟩ := from_feed_tokens rest later found
      obtain ⟨kept, lost⟩ := ih later suffix
      have same : strip (.line body :: rest) = strip later := by rw [stripped, dropped, strip]
      unfold Kept at kept ⊢
      unfold Lost at lost ⊢
      rw [same, line_tokens]
      cases clear : emptyLine rest with
      | true =>
          obtain ⟨listed, lines⟩ := empty clear
          rw [Bool.true_and, ← lines, ← listed]
          exact ⟨kept, lost⟩
      | false =>
          rw [Bool.false_and]
          refine ⟨fun empty => (by cases empty), fun _ => ?_⟩
          cases lines : linesEmpty later with
          | true => exact Or.inr ⟨tokens later, (kept lines).2, fewer clear⟩
          | false =>
              rcases lost lines with survived | ⟨found, lexed, less⟩
              · exact Or.inl survived
              · exact Or.inr ⟨found, lexed, less.trans (fewer clear)⟩

theorem manifest_outcome (valid : isManifest items = true) :
    (linesEmpty items = true → Kept items) ∧ (linesEmpty items = false → Lost items) := by
  induction size : items.length using Nat.strong_induction_on generalizing items with
  | _ count ih =>
      cases items with
      | nil =>
          refine ⟨fun _ => ⟨fun octet member => ?_, ?_⟩, fun lost => by cases lost⟩
          · rw [strip, octets, List.flatMap_nil, strip_nil] at member
            cases member
          · rw [strip, octets, List.flatMap_nil, strip_nil, List.map_nil, lex.eq_def]
            rfl
      | cons item rest =>
          have shorter : rest.length < count := size ▸ Nat.lt_succ_self _
          obtain ⟨here, later⟩ := (manifest_cons item rest).mp valid
          obtain ⟨kept, lost⟩ := ih rest.length shorter rest later rfl
          cases item with
          | token given =>
              rw [Item.fits, Bool.and_eq_true, Bool.not_eq_true', Bool.and_eq_false_iff] at here
              have apart : given.isWord = true → ∀ b ∈ ((strip rest).map Prod.fst).head?, isLetter b = false := by
                intro word
                exact strip_apart rest later (here.2.resolve_left (by rw [word]; exact Bool.noConfusion))
              obtain ⟨keep, lose⟩ := kept_step [given] given.bytes (.token given) rest (strip_items_token given rest here.1) rfl
                (lex_token given _ here.1 apart)
              exact ⟨fun empty => keep (kept empty), fun bad => lose (lost bad)⟩
          | blank b =>
              obtain ⟨keep, lose⟩ := kept_step [] [b] (.blank b) rest (strip_items_blank b rest here) rfl
                ((lex_blank b _ here).trans Option.map_id'.symm)
              exact ⟨fun empty => keep (kept empty), fun bad => lose (lost bad)⟩
          | line body =>
              refine line_outcome body rest valid fun behind suffix => ?_
              exact ih behind.length (Nat.lt_of_le_of_lt suffix.length_le shorter) behind (manifest_suffix behind rest later suffix) rfl
          | block body =>
              rw [Item.fits, Bool.not_eq_true', decide_eq_false_iff_not] at here
              obtain ⟨keep, lose⟩ := kept_step [] [32] (.block body) rest (strip_items_block body rest here) rfl
                ((lex_blank 32 _ rfl).trans Option.map_id'.symm)
              exact ⟨fun empty => keep (kept empty), fun bad => lose (lost bad)⟩

theorem after_close_map (rest : Octets) : (afterClose Prod.fst rest).map Prod.fst = afterClose id (rest.map Prod.fst) := by
  fun_induction afterClose Prod.fst rest with
  | case1 => rfl
  | case2 octet => rfl
  | case3 star slash rest closed =>
      rw [List.map_cons, List.map_cons, afterClose]
      exact (if_pos closed).symm
  | case4 star slash rest other ih =>
      rw [ih, List.map_cons, List.map_cons, List.map_cons, afterClose]
      exact (if_neg other).symm

theorem strip_comments_map (rest : Octets) :
    (stripComments Prod.fst (32, false) inString rest).map Prod.fst = stripComments id 32 inString (rest.map Prod.fst) := by
  fun_induction stripComments Prod.fst (32, false) inString rest with
  | case1 inString => rw [List.map_nil, stripComments.eq_def]
  | case2 b escape =>
      rw [List.map_cons, strip_comments_cons, if_pos rfl, if_pos (show id b.1 = 92 from escape), List.map_nil, List.tail_nil,
        stripComments.eq_def]
      rfl
  | case3 b escape escaped after ih =>
      rw [List.map_cons, List.map_cons, ih, List.map_cons, strip_comments_cons, if_pos rfl,
        if_pos (show id b.1 = 92 from escape)]
      rfl
  | case4 b tail other ih =>
      rw [List.map_cons, ih, List.map_cons, strip_comments_cons, if_pos rfl, if_neg (show ¬ id b.1 = 92 from other)]
      rfl
  | case5 inString b tail text quote ih =>
      rw [List.map_cons, ih, List.map_cons, strip_comments_cons, if_neg text, if_pos (show id b.1 = 34 from quote)]
  | case6 inString b tail text quote line ih =>
      have line_map : id b.1 = 47 ∧ (tail.map Prod.fst).head?.map id = some 47 := by
        rw [List.head?_map, Option.map_id_apply]
        exact line
      rw [ih, List.map_cons, strip_comments_cons, if_neg text, if_neg (show ¬ id b.1 = 34 from quote), if_pos line_map,
        List.dropWhile_map]
      rfl
  | case7 inString b tail text quote line block ih =>
      have line_map : ¬ (id b.1 = 47 ∧ (tail.map Prod.fst).head?.map id = some 47) := by
        rw [List.head?_map, Option.map_id_apply]
        exact line
      have block_map : id b.1 = 47 ∧ (tail.map Prod.fst).head?.map id = some 42 := by
        rw [List.head?_map, Option.map_id_apply]
        exact block
      rw [List.map_cons, ih, List.map_cons, strip_comments_cons, if_neg text, if_neg (show ¬ id b.1 = 34 from quote),
        if_neg line_map, if_pos block_map, after_close_map, List.map_drop]
  | case8 inString b tail text quote line block ih =>
      have line_map : ¬ (id b.1 = 47 ∧ (tail.map Prod.fst).head?.map id = some 47) := by
        rw [List.head?_map, Option.map_id_apply]
        exact line
      have block_map : ¬ (id b.1 = 47 ∧ (tail.map Prod.fst).head?.map id = some 42) := by
        rw [List.head?_map, Option.map_id_apply]
        exact block
      rw [List.map_cons, ih, List.map_cons, strip_comments_cons, if_neg text, if_neg (show ¬ id b.1 = 34 from quote),
        if_neg line_map, if_neg block_map]

theorem strip_comments_plain (text : List UInt8) (plain : 47 ∉ text) : stripComments id 32 inString text = text := by
  fun_induction stripComments id 32 inString text with
  | case1 inString => rfl
  | case2 b escape => rfl
  | case3 b escape escaped after ih =>
      rw [ih fun slash => plain (List.mem_cons_of_mem _ (List.mem_cons_of_mem _ slash))]
  | case4 b tail other ih => rw [ih fun slash => plain (List.mem_cons_of_mem _ slash)]
  | case5 inString b tail text quote ih => rw [ih fun slash => plain (List.mem_cons_of_mem _ slash)]
  | case6 inString b tail text quote line ih => exact absurd line.1 fun slash => plain (slash ▸ List.mem_cons_self)
  | case7 inString b tail text quote line block ih => exact absurd block.1 fun slash => plain (slash ▸ List.mem_cons_self)
  | case8 inString b tail text quote line block ih => rw [ih fun slash => plain (List.mem_cons_of_mem _ slash)]

example : stripComments id 32 false [123, 47, 47, 97, 10, 125] = [123, 10, 125] := by decide +kernel

theorem unmarked (text : List UInt8) (other : b ≠ 0xEF) : byteOrderMark.isPrefixOf (b :: text) = false := by
  rw [byteOrderMark, List.isPrefixOf_cons_cons, beq_eq_false_iff_ne.mpr (Ne.symm other), Bool.false_and]

theorem render_unmarked (valid : isManifest items = true) : byteOrderMark.isPrefixOf (render items) = false := by
  cases items with
  | nil => rfl
  | cons item rest =>
      obtain ⟨here, -⟩ := (manifest_cons item rest).mp valid
      cases item with
      | token given =>
          rw [Item.fits, Bool.and_eq_true] at here
          cases given with
          | mark b =>
              refine unmarked b _ ?_
              rintro rfl
              cases here.1
          | text pieces => exact unmarked 34 _ (by decide)
          | word letters =>
              obtain ⟨valid, -⟩ := here
              rw [Token.isValid, Bool.and_eq_true, List.all_eq_true] at valid
              cases letters with
              | nil => cases valid.1
              | cons b letters =>
                  refine unmarked b _ ?_
                  rintro rfl
                  cases valid.2 _ List.mem_cons_self
      | blank b =>
          refine unmarked b _ ?_
          rintro rfl
          cases here
      | line body => exact unmarked 47 _ (by decide)
      | block body => exact unmarked 47 _ (by decide)

theorem without_mark (valid : isManifest items = true) (mark : List UInt8)
    (either : mark = [] ∨ mark = byteOrderMark) : withoutMark (mark ++ render items) = render items := by
  rcases either with rfl | rfl
  · rw [withoutMark, List.nil_append, render_unmarked items valid, if_neg Bool.false_ne_true]
  · rfl

theorem manifest_stripped (valid : isManifest items = true) (mark : List UInt8)
    (either : mark = [] ∨ mark = byteOrderMark) : browserManifestJson (mark ++ render items) = (strip items).map Prod.fst := by
  rw [browserManifestJson, without_mark items valid mark either, strip, strip_comments_map, ← render]
  split
  · next plain => rw [strip_comments_plain false _ plain]
  · rfl

theorem browser_manifest_json_iff (items : List Item) (valid : isManifest items = true) (mark : List UInt8)
    (either : mark = [] ∨ mark = byteOrderMark) :
    browserManifestJson (mark ++ render items) = (strip items).map Prod.fst ∧
      ((lex (browserManifestJson (mark ++ render items)) = some (tokens items) ∧ ∀ octet ∈ strip items, octet.2 = false) ↔
        linesEmpty items = true) := by
  have stripped := manifest_stripped items valid mark either
  obtain ⟨kept, lost⟩ := manifest_outcome items valid
  rw [stripped]
  refine ⟨rfl, fun both => ?_, fun empty => ⟨(kept empty).2, (kept empty).1⟩⟩
  by_contra full
  exact lost_not_kept items (lost (Bool.eq_false_iff.mpr full)) ⟨both.2, both.1⟩

theorem browser_manifest_json_crlf :
    lex (browserManifestJson (byteOrderMark ++ render [.token (.mark 123), .line [99], .blank 13, .blank 10, .token (.mark 125)])) =
      some [.mark 123, .mark 125] := by
  have read := browser_manifest_json_iff [.token (.mark 123), .line [99], .blank 13, .blank 10, .token (.mark 125)] (by decide +kernel)
    byteOrderMark (Or.inr rfl)
  exact (read.2.mpr rfl).1

theorem carriage_return_swallows :
    ¬ ∀ (items : List Item) (mark : List UInt8), isManifest items = true → mark = [] ∨ mark = byteOrderMark →
      lex (browserManifestJson (mark ++ render items)) = some (tokens items) := by
  intro claimed
  have read := claimed [.token (.mark 123), .line [99], .blank 13, .token (.word [49]), .token (.mark 125)] [] (by decide +kernel)
    (Or.inl rfl)
  exact absurd read (by decide +kernel)

end Filefacts.Crx
