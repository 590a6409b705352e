import Filefacts.Constraint.Parse
import Filefacts.Constraint.PlusBuild

set_option autoImplicit false

namespace Filefacts.Constraint

variable (tables : Tables) (c : Char) (unicode : Unicode) (tag : String → Bool) (content : List Char)

theorem odd_not_ascii (odd : tables.isOdd c = true) : 128 ≤ c.toNat := by
  rw [Tables.isOdd, Bool.and_eq_true, Bool.not_eq_true'] at odd
  by_contra small
  have inside : tables.golang.inTag c = true := by
    have rust := odd.1
    simp only [Unicode.inTag, Bool.or_eq_true] at rust ⊢
    rcases rust with (letter | low) | dot
    · exact .inl (.inl (tables.asciiSame c (Nat.lt_of_not_le small) letter))
    · exact .inl (.inr low)
    · exact .inr dot
  rw [odd.2] at inside
  exact Bool.false_ne_true inside

def isAsciiText (text : List Char) : Bool := text.all fun c => decide (c.toNat < 128)

theorem platforms_ascii : ∀ platform ∈ platforms,
    isAsciiText platform.goos.toList = true ∧ isAsciiText platform.goarch.toList = true ∧ platform.hasTag "ignore" = false := by
  decide +kernel

theorem release_tag_ascii (name : String) (release : isReleaseTag name = true) : isAsciiText name.toList = true := by
  rw [isReleaseTag] at release
  cases dropped : name.toList.dropPrefix? "go1.".toList with
  | none =>
      rw [dropped] at release
      exact absurd release Bool.false_ne_true
  | some minor =>
      rw [dropped, Option.any_some, Bool.and_eq_true] at release
      obtain ⟨front, split, same⟩ := List.dropPrefix?_eq_some_iff.mp dropped
      have digits : isAsciiText minor = true := by
        refine List.all_eq_true.mpr fun c member => decide_eq_true ?_
        have digit := List.all_eq_true.mp release.2 c member
        simp only [Char.isDigit, Bool.and_eq_true, decide_eq_true_eq] at digit
        have bound : c.toNat ≤ '9'.toNat := digit.2
        have nine : '9'.toNat = 57 := rfl
        omega
      have word : isAsciiText front = true := by
        rw [beq_iff_eq.mp same]
        decide
      rw [isAsciiText] at digits word ⊢
      rw [split, List.all_append, word, digits]
      rfl

theorem tag_ascii (platform : Platform) (known : platform ∈ platforms) (name : String) (set : platform.hasTag name = true) :
    isAsciiText name.toList = true := by
  obtain ⟨os, arch, _⟩ := platforms_ascii platform known
  simp only [Platform.hasTag, Bool.or_eq_true, Bool.and_eq_true, beq_iff_eq] at set
  rcases set with (((((((rfl | rfl) | rfl) | ⟨rfl, _⟩) | ⟨rfl, _⟩) | ⟨rfl, _⟩) | ⟨rfl, _⟩) | ⟨rfl, _⟩) | release
  · exact os
  · exact arch
  · decide
  · decide
  · decide
  · decide
  · decide
  · decide
  · exact release_tag_ascii name release

theorem port_tags (platform : Platform) (known : platform ∈ platforms) : PortTags tables platform.hasTag where
  ignoreUnset := (platforms_ascii platform known).2.2
  oddUnset := by
    rintro name ⟨c, member, odd⟩
    by_contra set
    have ascii := tag_ascii platform known _ (Bool.of_not_eq_false set)
    rw [String.toList_ofList] at ascii
    have small := of_decide_eq_true (List.all_eq_true.mp ascii c member)
    have large := odd_not_ascii tables c odd
    omega

theorem lexes_not_odd (text : List Char) (tokens : List Token) (lexes : Lexes tables.golang text tokens) :
    ∀ c ∈ text, tables.isOdd c = false := by
  have syntax_ : ∀ c ∈ ['(', ')', '!', '&', '|', ' ', '\t'], tables.isOdd c = false := by
    intro c member
    have outside : tables.rust.inTag c = false := by
      rw [Unicode.inTag, tables.rust.syntaxExcluded c member]
      simp only [List.mem_cons, List.not_mem_nil, or_false] at member
      rcases member with rfl | rfl | rfl | rfl | rfl | rfl | rfl <;> rfl
    rw [Tables.isOdd, outside, Bool.false_and]
  induction lexes with
  | done => exact fun c member => absurd member List.not_mem_nil
  | space c text tokens blank _ hypothesis =>
      refine List.forall_mem_cons.mpr ⟨syntax_ c ?_, hypothesis⟩
      rcases blank with rfl | rfl <;> simp
  | openParen text tokens _ hypothesis => exact List.forall_mem_cons.mpr ⟨syntax_ _ (by simp), hypothesis⟩
  | closeParen text tokens _ hypothesis => exact List.forall_mem_cons.mpr ⟨syntax_ _ (by simp), hypothesis⟩
  | not text tokens _ hypothesis => exact List.forall_mem_cons.mpr ⟨syntax_ _ (by simp), hypothesis⟩
  | and text tokens _ hypothesis =>
      exact List.forall_mem_cons.mpr ⟨syntax_ _ (by simp), List.forall_mem_cons.mpr ⟨syntax_ _ (by simp), hypothesis⟩⟩
  | or text tokens _ hypothesis =>
      exact List.forall_mem_cons.mpr ⟨syntax_ _ (by simp), List.forall_mem_cons.mpr ⟨syntax_ _ (by simp), hypothesis⟩⟩
  | tag name text whole tokens layout _ inside _ _ hypothesis =>
      subst layout
      refine List.forall_mem_append.mpr ⟨fun c member => ?_, hypothesis⟩
      rw [Tables.isOdd, inside c member, Bool.not_true, Bool.and_false]

theorem lexes_same (one other : Unicode) (text : List Char) (tokens : List Token)
    (same : ∀ c ∈ text, one.inTag c = other.inTag c) (lexes : Lexes one text tokens) : Lexes other text tokens := by
  induction lexes with
  | done => exact .done
  | space c text tokens blank _ hypothesis =>
      exact .space c text tokens blank (hypothesis fun d member => same d (List.mem_cons_of_mem _ member))
  | openParen text tokens _ hypothesis =>
      exact .openParen text tokens (hypothesis fun d member => same d (List.mem_cons_of_mem _ member))
  | closeParen text tokens _ hypothesis =>
      exact .closeParen text tokens (hypothesis fun d member => same d (List.mem_cons_of_mem _ member))
  | not text tokens _ hypothesis =>
      exact .not text tokens (hypothesis fun d member => same d (List.mem_cons_of_mem _ member))
  | and text tokens _ hypothesis =>
      exact .and text tokens (hypothesis fun d member => same d (List.mem_cons_of_mem _ (List.mem_cons_of_mem _ member)))
  | or text tokens _ hypothesis =>
      exact .or text tokens (hypothesis fun d member => same d (List.mem_cons_of_mem _ (List.mem_cons_of_mem _ member)))
  | tag name text whole tokens layout nonempty inside longest _ hypothesis =>
      subst layout
      refine .tag name text _ tokens rfl nonempty ?_ ?_ (hypothesis fun d member => same d (List.mem_append_right _ member))
      · intro c member
        rw [← same c (List.mem_append_left _ member), inside c member]
      · rintro c more rfl
        rw [← same c (List.mem_append_right _ List.mem_cons_self), longest c more rfl]

theorem not_odd_same (plain : tables.isOdd c = false) : tables.rust.inTag c = tables.golang.inTag c := by
  rw [Tables.isOdd, Bool.and_eq_false_iff, Bool.not_eq_false'] at plain
  rcases plain with outside | inside
  · rw [outside]
    exact (Bool.eq_false_iff.mpr fun inside => Bool.false_ne_true (outside.symm.trans (in_tag_subset tables c inside))).symm
  · rw [inside, in_tag_subset tables c inside]

variable (line : List Char)

theorem reads_same (plain : ∀ c ∈ goBuildExpr line, tables.isOdd c = false)
    (tree : Derivation .or) : Reads tables.rust line tree ↔ Reads tables.golang line tree := by
  have same : ∀ c ∈ goBuildExpr line, tables.rust.inTag c = tables.golang.inTag c :=
    fun c member => not_odd_same tables c (plain c member)
  constructor
  · rintro ⟨lexes, small⟩
    exact ⟨lexes_same _ _ _ _ same lexes, small⟩
  · rintro ⟨lexes, small⟩
    exact ⟨lexes_same _ _ _ _ (fun c member => (same c member).symm) lexes, small⟩

theorem reads_unique (tree other : Derivation .or)
    (read : Reads unicode line tree) (again : Reads unicode line other) : tree.value tag = other.value tag := by
  have text : (String.ofList (goBuildExpr line)).toList = goBuildExpr line := String.toList_ofList
  obtain ⟨expr, accepted, value⟩ := parse_expr_complete unicode 
    (by rw [text]; exact read.1) read.2
  obtain ⟨expr', accepted', value'⟩ := parse_expr_complete unicode 
    (by rw [text]; exact again.1) again.2
  rw [accepted] at accepted'
  cases accepted'
  rw [← value, ← value']

theorem decides_unique {golang : Unicode} {tag : String → Bool} {text : List Char} {one other : Decision}
    (decides : Decides golang tag text one) (again : Decides golang tag text other) : one = other := by
  have single : ∀ line, goBuildLines text = [line] → ¬ 2 ≤ (goBuildLines text).length := by
    intro line same
    rw [same]
    exact Nat.not_succ_le_self 1
  cases decides with
  | many several =>
      cases again with
      | many _ => rfl
      | reads line tree same read => exact absurd several (single line same)
      | unread line same none_ => rfl
      | plus none_ => simp [none_] at several
  | reads line tree same read =>
      cases again with
      | many several => exact absurd several (single line same)
      | reads line' tree' same' read' =>
          rw [same] at same'
          cases same'
          rw [reads_unique golang tag line tree tree' read read']
      | unread line' same' none_ =>
          rw [same] at same'
          cases same'
          exact absurd read (none_ tree)
      | plus none_ => simp [same] at none_
  | unread line same unread =>
      cases again with
      | many _ => rfl
      | reads line' tree same' read =>
          rw [same] at same'
          cases same'
          exact absurd read (unread tree)
      | unread _ _ _ => rfl
      | plus none_ => simp [same] at none_
  | plus none_ =>
      cases again with
      | many several => simp [none_] at several
      | reads line tree same read => simp [same] at none_
      | unread line same _ => simp [same] at none_
      | plus _ => rfl

theorem go_build_line_word (member : line ∈ goBuildLines content) :
    line.dropPrefix? "//go:build".toList = some (line.drop 10) := by
  obtain ⟨entry, found, rfl⟩ := List.mem_map.mp member
  have word := (Bool.and_eq_true_iff.mp (List.mem_filter.mp found).2).2
  rw [isGoBuildComment] at word
  cases dropped : entry.1.dropPrefix? "//go:build".toList with
  | none =>
      rw [dropped] at word
      exact absurd word Bool.false_ne_true
  | some rest =>
      obtain ⟨front, split, same⟩ := List.dropPrefix?_eq_some_iff.mp dropped
      rw [split, beq_iff_eq.mp same]
      rfl

theorem decision_many (several : 2 ≤ (goBuildLines content).length) : fileDecision unicode tag content = .refuse := by
  rw [fileDecision, fileConstraint, file_header_several content several]
  rfl

theorem decision_one (one : goBuildLines content = [line]) :
    (∀ tree, Reads unicode line tree → fileDecision unicode tag content = .ofBool (tree.value tag)) ∧
    ((∀ tree, ¬ Reads unicode line tree) → fileDecision unicode tag content = .refuse) := by
  have text : (String.ofList (goBuildExpr line)).toList = goBuildExpr line := String.toList_ofList
  obtain ⟨header, ran, _⟩ := file_header_one content (by rw [one]; exact Nat.le_refl 1)
  have word := go_build_line_word content line (by rw [one]; exact List.mem_singleton_self line)
  have parsed : fileConstraint unicode content =
      ((parseExpr unicode (String.ofList (goBuildExpr line))).map some).mapError .syntaxError := by
    rw [fileConstraint, ran, one]
    simp only [bind, Except.bind, List.head?_cons]
    rw [word]
    rfl
  rw [fileDecision, parsed]
  constructor
  · rintro tree ⟨lexes, small⟩
    obtain ⟨expr, accepted, value⟩ := parse_expr_complete unicode (by rw [text]; exact lexes) small
    rw [accepted, ← value]
    rfl
  · intro unread
    cases accepted : parseExpr unicode (String.ofList (goBuildExpr line)) with
    | error message => rfl
    | ok expr =>
        obtain ⟨tree, lexes, small, _⟩ := parse_expr_sound unicode accepted
        rw [text] at lexes
        exact absurd ⟨lexes, small⟩ (unread tree)

theorem decision_none (port : PortTags tables tag) (content : List Char)
    (none_ : goBuildLines content = []) : fileDecision tables.rust tag content =
      .ofBool (((plusBuildRegion content).filterMap splitPlusBuild).all (plusBuildHolds tables.golang tag)) := by
  obtain ⟨header, ran, region⟩ := file_header_one content (by rw [none_]; exact Nat.zero_le 1)
  rw [← plus_build_lines_hold tables tag port, ← region]
  rw [fileDecision, fileConstraint, ran, none_]
  simp only [bind, Except.bind, List.head?_nil, sourceLines]
  cases ((textLines header).map trim).filterMap (plusBuildLine tables.rust) with
  | nil => rfl
  | cons first rest =>
      cases rest with
      | nil =>
          rw [List.all_cons, List.all_nil, Bool.and_true]
      | cons second rest =>
          have all_ : ∀ lines : List Expr, (Expr.all lines).eval tag = lines.all (Expr.eval tag) := by
            intro lines
            rw [Expr.eval]
            induction lines with
            | nil => rfl
            | cons line lines hypothesis => rw [evalAll, List.all_cons, hypothesis]
          exact congrArg Decision.ofBool (all_ (first :: second :: rest))

theorem mark_line (rest : List Char) : ∃ line lines, sourceLines (byteOrderMark :: rest) = (byteOrderMark :: line) :: lines := by
  have whole : lineOf (byteOrderMark :: rest) = byteOrderMark :: lineOf rest := by
    rw [lineOf, List.takeWhile_cons, if_pos (by decide), lineOf]
  have solid : isWhitespace byteOrderMark = false := by decide
  have kept : ∃ line, trim (byteOrderMark :: lineOf rest) = byteOrderMark :: line := by
    have front : (byteOrderMark :: lineOf rest).dropWhile isWhitespace = byteOrderMark :: lineOf rest := by
      rw [List.dropWhile_cons, solid, if_neg Bool.false_ne_true]
    have start : trim (byteOrderMark :: lineOf rest) <+: byteOrderMark :: lineOf rest := by
      rw [trim, front]
      exact List.rdropWhile_prefix _ _
    cases trimmed : trim (byteOrderMark :: lineOf rest) with
    | nil =>
        rw [trim, front, List.rdropWhile_eq_nil_iff] at trimmed
        have blank := trimmed byteOrderMark List.mem_cons_self
        rw [solid] at blank
        exact absurd blank Bool.false_ne_true
    | cons c line =>
        rw [trimmed, List.cons_prefix_cons] at start
        exact ⟨line, by rw [start.1]⟩
  obtain ⟨line, kept⟩ := kept
  exact ⟨line, sourceLines (afterLine (byteOrderMark :: rest)), by rw [source_lines_cons _ (List.cons_ne_nil _ _), whole, kept]⟩

-- The mark is text outside comments, so the header is empty.
theorem decision_marked (port : PortTags tables tag) (content : List Char)
    (marked : content.head? = some byteOrderMark) : fileDecision tables.rust tag content = .build := by
  obtain ⟨rest, rfl⟩ := List.head?_eq_some_iff.mp marked
  obtain ⟨line, lines, first⟩ := mark_line rest
  have none_ : goBuildLines (byteOrderMark :: rest) = [] := by
    have other : commentAfter false (byteOrderMark :: line) = none := rfl
    have cons := go_build_from_cons false (byteOrderMark :: line) lines
    rw [other] at cons
    rw [goBuildLines, first]
    refine cons.trans ?_
    rfl
  have region : plusBuildRegion (byteOrderMark :: rest) = [] := by
    rw [plusBuildRegion, first]
    rfl
  rw [decision_none tables tag port _ none_, region]
  rfl

theorem decision_agrees (port : PortTags tables tag) (content : List Char)
    (plain : ∀ line, goBuildLines content = [line] →
      (∀ c ∈ goBuildExpr line, tables.isOdd c = false) ∨ ∀ tree, ¬ Reads tables.rust line tree) :
    Decides tables.golang tag content (fileDecision tables.rust tag content) := by
  by_cases several : 2 ≤ (goBuildLines content).length
  · rw [decision_many tables.rust tag content several]
    exact .many several
  · cases lines : goBuildLines content with
    | nil =>
        rw [decision_none tables tag port content lines]
        exact .plus lines
    | cons line rest =>
        have one : goBuildLines content = [line] := by
          rw [lines] at several ⊢
          cases rest with
          | nil => rfl
          | cons second rest =>
              simp only [List.length_cons] at several
              omega
        obtain ⟨read, unread⟩ := decision_one tables.rust tag content line one
        by_cases parses : ∃ tree, Reads tables.rust line tree
        · obtain ⟨tree, reads⟩ := parses
          have same := (plain line one).resolve_right fun none_ => none_ tree reads
          rw [read tree reads]
          exact .reads line tree one ((reads_same tables line same tree).mp reads)
        · have none_ : ∀ tree, ¬ Reads tables.rust line tree := fun tree reads => parses ⟨tree, reads⟩
          rw [unread none_]
          refine .unread line one fun tree reads => ?_
          exact none_ tree ((reads_same tables line (lexes_not_odd tables _ _ reads.1) tree).mpr reads)

-- Without a mark the two decide alike but where Rust reads an expression with
-- a character that is a tag's for it alone; with one Rust always builds.
theorem file_decision_agrees_iff (tables : Tables) (platform : Platform) (known : platform ∈ platforms) (content : List Char) :
    Decides tables.golang platform.hasTag (withoutMark content) (fileDecision tables.rust platform.hasTag content) ↔
      if content.head? = some byteOrderMark then Decides tables.golang platform.hasTag content.tail .build
      else ∀ line, goBuildLines content = [line] →
        (∀ c ∈ goBuildExpr line, tables.isOdd c = false) ∨ ∀ tree, ¬ Reads tables.rust line tree := by
  have port := port_tags tables platform known
  by_cases marked : content.head? = some byteOrderMark
  · rw [if_pos marked, withoutMark, if_pos marked, decision_marked tables platform.hasTag port content marked]
  · rw [if_neg marked, withoutMark, if_neg marked]
    constructor
    · intro decides line one
      by_contra neither
      rw [not_or, not_forall] at neither
      obtain ⟨⟨c, other⟩, parses⟩ := neither
      obtain ⟨member, odd⟩ := Classical.not_imp.mp other
      obtain ⟨tree, reads⟩ := not_forall_not.mp parses
      have refused : Decides tables.golang platform.hasTag content .refuse := by
        refine .unread line one fun tree reads => odd ?_
        exact lexes_not_odd tables _ _ reads.1 c member
      have same := decides_unique decides refused
      rw [(decision_one tables.rust platform.hasTag content line one).1 tree reads] at same
      rw [Decision.ofBool] at same
      split at same <;> cases same
    · exact decision_agrees tables platform.hasTag port content

def asciiUnicode : Unicode := ⟨Char.isAlphanum, alphanum_excludes⟩

def asciiTables : Tables := ⟨asciiUnicode, asciiUnicode, fun _ letter => letter, fun _ _ letter => letter⟩

theorem ascii_not_odd : asciiTables.isOdd c = false := Bool.and_not_self _

theorem file_decision_agrees_linux :
    Decides asciiUnicode (Platform.hasTag ⟨"linux", "amd64", true⟩) (withoutMark "//go:build linux\n\npackage p".toList)
      (fileDecision asciiUnicode (Platform.hasTag ⟨"linux", "amd64", true⟩) "//go:build linux\n\npackage p".toList) :=
  (file_decision_agrees_iff asciiTables ⟨"linux", "amd64", true⟩ (by decide) "//go:build linux\n\npackage p".toList).mpr
    fun _ _ => .inl fun c _ => ascii_not_odd c

theorem marked_file_ignores_constraint :
    ¬ Decides asciiUnicode (Platform.hasTag ⟨"windows", "amd64", true⟩) (withoutMark "\uFEFF//go:build linux\n\npackage p".toList)
      (fileDecision asciiUnicode (Platform.hasTag ⟨"windows", "amd64", true⟩) "\uFEFF//go:build linux\n\npackage p".toList) := by
  intro decides
  have port := port_tags asciiTables ⟨"windows", "amd64", true⟩ (by decide)
  have skipped := decision_agrees asciiTables (Platform.hasTag ⟨"windows", "amd64", true⟩) port
    (withoutMark "\uFEFF//go:build linux\n\npackage p".toList) fun _ _ => .inl fun c _ => ascii_not_odd c
  have same := decides_unique decides skipped
  revert same
  decide +kernel

end Filefacts.Constraint
