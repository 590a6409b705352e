import Filefacts.Constraint.Grammar

set_option autoImplicit false

namespace Filefacts.Constraint

-- The token hand-off: `or`, `and` and `not` lex their first token themselves,
-- the others are entered with it already read.
def Starts (unicode : Unicode) (symbol : Nonterminal) (parser : ExprParser) (tokens : List Token) : Prop :=
  match symbol with
  | .or | .and | .not => Lexes unicode parser.rest tokens
  | .orRest | .andRest | .atom => Ahead unicode parser tokens

def joined (symbol : Nonterminal) (before value : Bool) : Bool :=
  match symbol with
  | .orRest => before || value
  | .andRest => before && value
  | .or | .and | .not | .atom => value

structure Parsed (unicode : Unicode) {symbol : Nonterminal} (tree : Derivation symbol) (before expr : Expr)
    (parser next : ExprParser) : Prop where
  value : ∀ tag, expr.eval tag = joined symbol (before.eval tag) (tree.value tag)
  size : next.size = parser.size + tree.nots
  small : parser.size ≤ maxExprSize → next.size ≤ maxExprSize
  reads : ∀ tokens, Ahead unicode next tokens → Starts unicode symbol parser (tree.tokens ++ tokens)
  settled : (symbol = .orRest ∨ symbol = .andRest → parser.token = .end_ → parser.rest = []) →
    next.token = .end_ → next.rest = []

variable (unicode : Unicode) (parser : ExprParser) (operand : Derivation .atom)

variable (tokens : List Token) (next : ExprParser)

theorem ahead_token (ahead : Ahead unicode parser tokens) : parser.token = tokens.head?.getD .end_ := by
  cases tokens with
  | nil => exact ahead.1
  | cons token tokens => exact ahead.1

theorem ahead_end (ended : parser.token = .end_) (ahead : Ahead unicode parser tokens) : tokens = [] := by
  cases tokens with
  | nil => rfl
  | cons token tokens => exact absurd (ahead.1.symm.trans ended) ahead.2.1

theorem ahead_cons (more : parser.token ≠ .end_)
    (ahead : Ahead unicode parser tokens) : ∃ rest, tokens = parser.token :: rest ∧ Lexes unicode parser.rest rest := by
  cases tokens with
  | nil => exact absurd ahead.1 more
  | cons token tokens => exact ⟨tokens, by rw [ahead.1], ahead.2.2⟩

theorem lex_sound (lexed : parser.lex unicode = .ok next) :
    next.size = parser.size ∧ ∀ tokens, Ahead unicode next tokens → Lexes unicode parser.rest tokens := by
  have fixed : ∀ (token : Token) (rest : List Char), next = { parser with rest, token } → token ≠ .end_ →
      (∀ tokens, Lexes unicode rest tokens → Lexes unicode (parser.rest.dropWhile isBlank) (token :: tokens)) →
      next.size = parser.size ∧ ∀ tokens, Ahead unicode next tokens → Lexes unicode parser.rest tokens := by
    rintro token rest rfl more extend
    refine ⟨rfl, fun tokens ahead => lexes_blank _ _ _ ?_⟩
    obtain ⟨tokens, rfl, after⟩ := ahead_cons unicode _ tokens more ahead
    exact extend tokens after
  unfold ExprParser.lex at lexed
  simp only at lexed
  split at lexed
  · rename_i blank
    obtain rfl := Except.ok.inj lexed
    refine ⟨rfl, fun tokens ahead => lexes_blank _ _ _ ?_⟩
    rw [blank, ahead_end unicode _ tokens rfl ahead]
    exact .done
  · rename_i rest shape
    exact fixed _ _ (Except.ok.inj lexed).symm (by simp) fun tokens after => shape ▸ .openParen rest tokens after
  · rename_i rest shape
    exact fixed _ _ (Except.ok.inj lexed).symm (by simp) fun tokens after => shape ▸ .closeParen rest tokens after
  · rename_i rest shape
    exact fixed _ _ (Except.ok.inj lexed).symm (by simp) fun tokens after => shape ▸ .not rest tokens after
  · rename_i rest shape
    exact fixed _ _ (Except.ok.inj lexed).symm (by simp) fun tokens after => shape ▸ .and rest tokens after
  · rename_i rest shape
    exact fixed _ _ (Except.ok.inj lexed).symm (by simp) fun tokens after => shape ▸ .or rest tokens after
  · split at lexed
    · simp at lexed
    · rename_i nonempty
      refine fixed _ _ (Except.ok.inj lexed).symm (by simp) fun tokens after => ?_
      refine .tag _ _ _ tokens (List.takeWhile_append_dropWhile).symm nonempty ?_ ?_ after
      · exact fun c member => List.mem_takeWhile_imp member
      · intro c more shape
        have stopped := List.head?_dropWhile_not unicode.inTag (parser.rest.dropWhile isBlank)
        simpa [shape] using stopped

theorem lex_settled (lexed : parser.lex unicode = .ok next) (ended : next.token = .end_) : next.rest = [] := by
  unfold ExprParser.lex at lexed
  simp only at lexed
  split at lexed
  · rw [← Except.ok.inj lexed]
  · simp [← Except.ok.inj lexed] at ended
  · simp [← Except.ok.inj lexed] at ended
  · simp [← Except.ok.inj lexed] at ended
  · simp [← Except.ok.inj lexed] at ended
  · simp [← Except.ok.inj lexed] at ended
  · split at lexed
    · simp at lexed
    · simp [← Except.ok.inj lexed] at ended

theorem lex_blank (c : Char) (text : List Char) (token : Token) (size : Nat) (blank : isBlank c = true) :
    ExprParser.lex unicode ⟨c :: text, token, size⟩ = ExprParser.lex unicode ⟨text, token, size⟩ := by
  simp only [ExprParser.lex, List.dropWhile_cons, blank, if_true]

theorem lex_tag (name text : List Char) (token : Token) (size : Nat) (nonempty : name ≠ [])
    (inside : ∀ c ∈ name, unicode.inTag c = true) (longest : ∀ c more, text = c :: more → unicode.inTag c = false) :
    ExprParser.lex unicode ⟨name ++ text, token, size⟩ = .ok ⟨text, .tag (String.ofList name), size⟩ := by
  have stop : text.takeWhile unicode.inTag = [] ∧ text.dropWhile unicode.inTag = text := by
    cases text with
    | nil => exact ⟨rfl, rfl⟩
    | cons c more => simp [longest c more rfl]
  have taken : (name ++ text).takeWhile unicode.inTag = name := by
    rw [List.takeWhile_append_of_pos inside, stop.1, List.append_nil]
  have dropped : (name ++ text).dropWhile unicode.inTag = text := by
    rw [List.dropWhile_append_of_pos inside, stop.2]
  cases name with
  | nil => exact absurd rfl nonempty
  | cons c name =>
      obtain ⟨blank, openOut, closeOut, notOut, andOut, orOut⟩ := in_tag_excludes unicode c (inside c List.mem_cons_self)
      have trimmed : (c :: (name ++ text)).dropWhile isBlank = c :: (name ++ text) := by simp [blank]
      simp only [List.cons_append] at taken dropped ⊢
      unfold ExprParser.lex
      simp only [trimmed]
      split <;> simp_all

variable {text : List Char} {Error : Type} {symbol : Nonterminal} {following : List Token}

theorem lex_complete {tokens : List Token} (lexes : Lexes unicode text tokens) (token : Token) (size : Nat) :
    ∃ next, ExprParser.lex unicode ⟨text, token, size⟩ = .ok next ∧ next.size = size ∧ Ahead unicode next tokens := by
  induction lexes with
  | done => exact ⟨_, rfl, rfl, rfl, .done⟩
  | space c text tokens blank _ ih =>
      rw [lex_blank unicode c text token size (by simpa [isBlank] using blank)]
      exact ih
  | openParen text tokens after => exact ⟨_, rfl, rfl, rfl, by simp, after⟩
  | closeParen text tokens after => exact ⟨_, rfl, rfl, rfl, by simp, after⟩
  | not text tokens after => exact ⟨_, rfl, rfl, rfl, by simp, after⟩
  | and text tokens after => exact ⟨_, rfl, rfl, rfl, by simp, after⟩
  | or text tokens after => exact ⟨_, rfl, rfl, rfl, by simp, after⟩
  | tag name text whole tokens layout nonempty inside longest after =>
      subst layout
      exact ⟨_, lex_tag unicode name text token size nonempty inside longest, rfl, rfl, by simp, after⟩

theorem lexes_unique (text : List Char) (tokens others : List Token) (lexes : Lexes unicode text tokens)
    (other : Lexes unicode text others) : tokens = others := by
  induction tokens generalizing text others with
  | nil =>
      obtain ⟨next, ran, _, ended⟩ := lex_complete unicode lexes .end_ 0
      obtain ⟨next', ran', _, ahead⟩ := lex_complete unicode other .end_ 0
      obtain rfl := Except.ok.inj (ran.symm.trans ran')
      exact (ahead_end unicode next others ended.1 ahead).symm
  | cons token tokens ih =>
      obtain ⟨next, ran, _, same, more, after⟩ := lex_complete unicode lexes .end_ 0
      obtain ⟨next', ran', _, ahead⟩ := lex_complete unicode other .end_ 0
      obtain rfl := Except.ok.inj (ran.symm.trans ran')
      obtain ⟨rest, rfl, after'⟩ := ahead_cons unicode next others (same ▸ more) ahead
      rw [same, ih next.rest rest after after']

-- The six functions under one name: the loops go on from an expression.
def ExprParser.run (unicode : Unicode) : Nonterminal → Nat → Expr → ExprParser → ParseResult
  | .or, fuel, _, parser => parser.or unicode fuel
  | .orRest, fuel, expr, parser => ExprParser.orLoop unicode fuel expr parser
  | .and, fuel, _, parser => parser.and unicode fuel
  | .andRest, fuel, expr, parser => ExprParser.andLoop unicode fuel expr parser
  | .not, fuel, _, parser => parser.not unicode fuel
  | .atom, fuel, _, parser => parser.atom unicode fuel

theorem except_bind_ok {First Second : Type} (action : Except Error First) (next : First → Except Error Second)
    (result : Second) : (action >>= next) = .ok result ↔ ∃ first, action = .ok first ∧ next first = .ok result := by
  cases action with
  | error error =>
      constructor
      · intro impossible
        exact nomatch impossible
      · rintro ⟨_, impossible, _⟩
        exact nomatch impossible
  | ok first =>
      constructor
      · exact fun ran => ⟨first, rfl, ran⟩
      · rintro ⟨_, same, ran⟩
        obtain rfl := Except.ok.inj same
        exact ran

theorem except_map_error_ok {Result : Type} (action : Except Error Result) (change : Error → Error) (result : Result) :
    action.mapError change = .ok result ↔ action = .ok result := by
  cases action with
  | error error => exact ⟨(nomatch ·), (nomatch ·)⟩
  | ok first => exact ⟨id, id⟩

theorem run_sound (fuel : Nat) (symbol : Nonterminal) (before expr : Expr) (parser next : ExprParser)
    (ran : ExprParser.run unicode symbol fuel before parser = .ok (expr, next)) :
    ∃ tree : Derivation symbol, Parsed unicode tree before expr parser next := by
  induction fuel generalizing symbol before expr parser next with
  | zero => cases symbol <;> simp [ExprParser.run, ExprParser.or, ExprParser.orLoop, ExprParser.and, ExprParser.andLoop,
      ExprParser.not, ExprParser.atom] at ran
  | succ fuel ih =>
      cases symbol with
      | or =>
          obtain ⟨⟨left, middle⟩, first, more⟩ := (except_bind_ok _ _ _).mp ran
          obtain ⟨tree, parsed⟩ := ih .and before left parser middle first
          obtain ⟨rest, parsedRest⟩ := ih .orRest left expr middle next more
          refine ⟨.or tree rest, ?_, ?_, ?_, ?_, fun _ => parsedRest.settled fun _ => parsed.settled (by simp)⟩
          · intro tag
            simp [parsedRest.value, parsed.value, joined, Derivation.value]
          · rw [parsedRest.size, parsed.size, Derivation.nots, Nat.add_assoc]
          · exact fun small => parsedRest.small (parsed.small small)
          · intro tokens ahead
            rw [Derivation.tokens, List.append_assoc]
            exact parsed.reads _ (parsedRest.reads tokens ahead)
      | orRest =>
          simp only [ExprParser.run, ExprParser.orLoop] at ran
          split at ran
          · rename_i isOr
            obtain ⟨⟨operand, middle⟩, first, more⟩ := (except_bind_ok _ _ _).mp ran
            obtain ⟨tree, parsed⟩ := ih .and before operand parser middle first
            obtain ⟨rest, parsedRest⟩ := ih .orRest (.or before operand) expr middle next more
            refine ⟨.orMore tree rest, ?_, ?_, ?_, ?_, fun _ => parsedRest.settled fun _ => parsed.settled (by simp)⟩
            · intro tag
              simp [parsedRest.value, parsed.value, joined, Derivation.value, Expr.eval, Bool.or_assoc]
            · rw [parsedRest.size, parsed.size, Derivation.nots, Nat.add_assoc]
            · exact fun small => parsedRest.small (parsed.small small)
            · intro tokens ahead
              rw [Derivation.tokens, List.cons_append, List.append_assoc]
              exact ⟨isOr, by simp, parsed.reads _ (parsedRest.reads tokens ahead)⟩
          · obtain ⟨rfl, rfl⟩ := Prod.mk.inj (Except.ok.inj ran)
            exact ⟨.orEnd, by simp [joined, Derivation.value], rfl, id, fun tokens ahead => ahead, fun held => held (by simp)⟩
      | and =>
          obtain ⟨⟨left, middle⟩, first, more⟩ := (except_bind_ok _ _ _).mp ran
          obtain ⟨tree, parsed⟩ := ih .not before left parser middle first
          obtain ⟨rest, parsedRest⟩ := ih .andRest left expr middle next more
          refine ⟨.and tree rest, ?_, ?_, ?_, ?_, fun _ => parsedRest.settled fun _ => parsed.settled (by simp)⟩
          · intro tag
            simp [parsedRest.value, parsed.value, joined, Derivation.value]
          · rw [parsedRest.size, parsed.size, Derivation.nots, Nat.add_assoc]
          · exact fun small => parsedRest.small (parsed.small small)
          · intro tokens ahead
            rw [Derivation.tokens, List.append_assoc]
            exact parsed.reads _ (parsedRest.reads tokens ahead)
      | andRest =>
          simp only [ExprParser.run, ExprParser.andLoop] at ran
          split at ran
          · rename_i isAnd
            obtain ⟨⟨operand, middle⟩, first, more⟩ := (except_bind_ok _ _ _).mp ran
            obtain ⟨tree, parsed⟩ := ih .not before operand parser middle first
            obtain ⟨rest, parsedRest⟩ := ih .andRest (.and before operand) expr middle next more
            refine ⟨.andMore tree rest, ?_, ?_, ?_, ?_, fun _ => parsedRest.settled fun _ => parsed.settled (by simp)⟩
            · intro tag
              simp [parsedRest.value, parsed.value, joined, Derivation.value, Expr.eval, Bool.and_assoc]
            · rw [parsedRest.size, parsed.size, Derivation.nots, Nat.add_assoc]
            · exact fun small => parsedRest.small (parsed.small small)
            · intro tokens ahead
              rw [Derivation.tokens, List.cons_append, List.append_assoc]
              exact ⟨isAnd, by simp, parsed.reads _ (parsedRest.reads tokens ahead)⟩
          · obtain ⟨rfl, rfl⟩ := Prod.mk.inj (Except.ok.inj ran)
            exact ⟨.andEnd, by simp [joined, Derivation.value], rfl, id, fun tokens ahead => ahead, fun held => held (by simp)⟩
      | not =>
          simp only [ExprParser.run, ExprParser.not] at ran
          split at ran
          · simp at ran
          · rename_i room
            obtain ⟨lexed, first, ran⟩ := (except_bind_ok _ _ _).mp ran
            obtain ⟨sizeFirst, readsFirst⟩ := lex_sound unicode _ lexed first
            simp only at sizeFirst readsFirst
            split at ran
            · rename_i isNot
              obtain ⟨second, lexedAgain, ran⟩ := (except_bind_ok _ _ _).mp ran
              obtain ⟨sizeSecond, readsSecond⟩ := lex_sound unicode _ second lexedAgain
              split at ran
              · simp at ran
              · obtain ⟨⟨operand, after⟩, inner, result⟩ := (except_bind_ok _ _ _).mp ran
                obtain ⟨rfl, rfl⟩ : Expr.not operand = expr ∧ after = next := by simpa using result
                obtain ⟨tree, parsed⟩ := ih .atom before operand second after inner
                have sizes := parsed.size
                refine ⟨.negated tree, ?_, ?_, ?_, ?_, fun _ => parsed.settled (by simp)⟩
                · intro tag
                  simp [parsed.value, joined, Derivation.value, Expr.eval]
                · rw [Derivation.nots]
                  omega
                · exact fun _ => parsed.small (by omega)
                · intro tokens ahead
                  exact readsFirst _ ⟨isNot, by simp, readsSecond _ (parsed.reads tokens ahead)⟩
            · obtain ⟨tree, parsed⟩ := ih .atom before expr lexed next ran
              have sizes := parsed.size
              refine ⟨.plain tree, ?_, ?_, ?_, ?_, fun _ => parsed.settled (by simp)⟩
              · intro tag
                simp [parsed.value, joined, Derivation.value]
              · rw [Derivation.nots]
                omega
              · exact fun _ => parsed.small (by omega)
              · exact fun tokens ahead => readsFirst _ (parsed.reads tokens ahead)
      | atom =>
          simp only [ExprParser.run, ExprParser.atom] at ran
          split at ran
          · rename_i isOpen
            obtain ⟨⟨inner, middle⟩, parsedInner, ran⟩ := (except_bind_ok _ _ _).mp ran
            obtain ⟨tree, parsed⟩ := ih .or before inner parser middle ((except_map_error_ok _ _ _).mp parsedInner)
            split at ran
            · simp at ran
            · rename_i closed
              obtain ⟨after, lexed, result⟩ := (except_bind_ok _ _ _).mp ran
              obtain ⟨rfl, rfl⟩ := Prod.mk.inj (Except.ok.inj result)
              obtain ⟨sizeLexed, readsLexed⟩ := lex_sound unicode _ _ lexed
              refine ⟨.paren tree, ?_, ?_, ?_, ?_, fun _ => lex_settled unicode _ _ lexed⟩
              · intro tag
                simp [parsed.value, joined, Derivation.value]
              · rw [sizeLexed, parsed.size, Derivation.nots]
              · exact fun small => sizeLexed ▸ parsed.small small
              · intro tokens ahead
                rw [Derivation.tokens, List.cons_append, List.append_assoc]
                exact ⟨isOpen, by simp, parsed.reads _ ⟨not_not.mp closed, by simp, readsLexed tokens ahead⟩⟩
          · rename_i name isTag
            obtain ⟨after, lexed, result⟩ := (except_bind_ok _ _ _).mp ran
            obtain ⟨rfl, rfl⟩ := Prod.mk.inj (Except.ok.inj result)
            obtain ⟨sizeLexed, readsLexed⟩ := lex_sound unicode _ _ lexed
            refine ⟨.tag name, ?_, sizeLexed, fun small => sizeLexed ▸ small, ?_, fun _ => lex_settled unicode _ _ lexed⟩
            · intro tag
              simp [joined, Derivation.value, Expr.eval]
            · exact fun tokens ahead => ⟨isTag, by simp, readsLexed tokens ahead⟩
          · simp at ran
          · simp at ran

example : ((parseExpr ⟨Char.isAlphanum, by simp⟩ "x || !y && z").toOption.map (Expr.eval fun name => name == "z")) =
    some true := by decide +kernel

def Follows (symbol : Nonterminal) (following : List Token) : Prop :=
  match symbol with
  | .or | .orRest => following.head? ≠ some .or ∧ following.head? ≠ some .and
  | .and | .andRest => following.head? ≠ some .and
  | .not | .atom => True

def Enough (symbol : Nonterminal) (nots fuel : Nat) : Prop :=
  match symbol with
  | .or => 4 * nots ≤ fuel
  | .and => 4 * nots ≤ fuel + 1
  | .not => 4 * nots ≤ fuel + 2
  | .orRest | .andRest | .atom => 4 * nots + 1 ≤ fuel

variable (tree : Derivation symbol)

theorem nots_positive (counted : symbol = .or ∨ symbol = .and ∨ symbol = .not) : 0 < tree.nots := by
  induction tree with
  | or first rest ihFirst _ =>
      have positive := ihFirst (by simp)
      simp only [Derivation.nots]
      omega
  | and first rest ihFirst _ =>
      have positive := ihFirst (by simp)
      simp only [Derivation.nots]
      omega
  | plain operand => simp [Derivation.nots]
  | negated operand => simp [Derivation.nots]
  | orEnd => simp at counted
  | orMore => simp at counted
  | andEnd => simp at counted
  | andMore => simp at counted
  | tag => simp at counted
  | paren => simp at counted

theorem atom_first (tree : Derivation .atom) : ∃ token rest, tree.tokens = token :: rest ∧ token ≠ .not := by
  cases tree with
  | tag name => exact ⟨_, _, rfl, by simp⟩
  | paren inner => exact ⟨_, _, rfl, by simp⟩

theorem or_rest_head (tree : Derivation .orRest) (follows : Follows .orRest following) :
    Follows .and (tree.tokens ++ following) := by
  cases tree with
  | orEnd => exact follows.2
  | orMore operand rest => simp [Follows, Derivation.tokens]

def Completes (unicode : Unicode) {symbol : Nonterminal} (tree : Derivation symbol) : Prop :=
  ∀ (fuel : Nat) (before : Expr) (parser : ExprParser) (following : List Token), Enough symbol tree.nots fuel →
    parser.size + tree.nots ≤ maxExprSize → Follows symbol following → Starts unicode symbol parser (tree.tokens ++ following) →
    ∃ expr next, ExprParser.run unicode symbol fuel before parser = .ok (expr, next) ∧ Ahead unicode next following ∧
      next.size = parser.size + tree.nots ∧ ∀ tag, expr.eval tag = joined symbol (before.eval tag) (tree.value tag)

theorem or_complete (first : Derivation .and) (rest : Derivation .orRest)
    (completeFirst : Completes unicode first) (completeRest : Completes unicode rest) : Completes unicode (.or first rest) := by
  intro fuel before parser following enough small follows starts
  have positive := nots_positive first (by simp)
  simp only [Enough, Derivation.nots] at enough small
  cases fuel with
  | zero => omega
  | succ fuel =>
      rw [Derivation.tokens, List.append_assoc] at starts
      obtain ⟨left, middle, ranFirst, aheadFirst, sizeFirst, valueFirst⟩ := completeFirst fuel before parser _
        (by simp only [Enough]; omega) (by omega) (or_rest_head rest follows) starts
      obtain ⟨expr, next, ranRest, ahead, sizeRest, value⟩ := completeRest fuel left middle following
        (by simp only [Enough]; omega) (by omega) follows aheadFirst
      refine ⟨expr, next, (except_bind_ok _ _ _).mpr ⟨(left, middle), ranFirst, ranRest⟩, ahead, ?_, ?_⟩
      · simp only [Derivation.nots]
        omega
      · intro tag
        simp [value, valueFirst, joined, Derivation.value]

theorem and_complete (first : Derivation .not) (rest : Derivation .andRest)
    (completeFirst : Completes unicode first) (completeRest : Completes unicode rest) : Completes unicode (.and first rest) := by
  intro fuel before parser following enough small follows starts
  have positive := nots_positive first (by simp)
  simp only [Enough, Derivation.nots] at enough small
  cases fuel with
  | zero => omega
  | succ fuel =>
      rw [Derivation.tokens, List.append_assoc] at starts
      obtain ⟨left, middle, ranFirst, aheadFirst, sizeFirst, valueFirst⟩ := completeFirst fuel before parser _
        (by simp only [Enough]; omega) (by omega) trivial starts
      obtain ⟨expr, next, ranRest, ahead, sizeRest, value⟩ := completeRest fuel left middle following
        (by simp only [Enough]; omega) (by omega) follows aheadFirst
      refine ⟨expr, next, (except_bind_ok _ _ _).mpr ⟨(left, middle), ranFirst, ranRest⟩, ahead, ?_, ?_⟩
      · simp only [Derivation.nots]
        omega
      · intro tag
        simp [value, valueFirst, joined, Derivation.value]

theorem or_end_complete : Completes unicode .orEnd := by
  intro fuel before parser following enough _ follows starts
  cases fuel with
  | zero => simp [Enough] at enough
  | succ fuel =>
      have stopped : parser.token ≠ .or := by
        rw [ahead_token unicode parser following starts]
        have head := follows.1
        cases view : following.head? with
        | none => simp
        | some token =>
            rw [view] at head
            simpa using head
      exact ⟨before, parser, by simp [ExprParser.run, ExprParser.orLoop, stopped], starts, rfl,
        by simp [joined, Derivation.value]⟩

theorem and_end_complete : Completes unicode .andEnd := by
  intro fuel before parser following enough _ follows starts
  cases fuel with
  | zero => simp [Enough] at enough
  | succ fuel =>
      have stopped : parser.token ≠ .and := by
        rw [ahead_token unicode parser following starts]
        have head : following.head? ≠ some .and := follows
        cases view : following.head? with
        | none => simp
        | some token =>
            rw [view] at head
            simpa using head
      exact ⟨before, parser, by simp [ExprParser.run, ExprParser.andLoop, stopped], starts, rfl,
        by simp [joined, Derivation.value]⟩

theorem or_more_complete (operand : Derivation .and) (rest : Derivation .orRest)
    (completeOperand : Completes unicode operand) (completeRest : Completes unicode rest) :
    Completes unicode (.orMore operand rest) := by
  intro fuel before parser following enough small follows starts
  have positive := nots_positive operand (by simp)
  simp only [Enough, Derivation.nots] at enough small
  cases fuel with
  | zero => omega
  | succ fuel =>
      rw [Derivation.tokens, List.cons_append, List.append_assoc] at starts
      obtain ⟨isOr, _, lexes⟩ := starts
      obtain ⟨right, middle, ranOperand, aheadOperand, sizeOperand, valueOperand⟩ := completeOperand fuel before parser _
        (by simp only [Enough]; omega) (by omega) (or_rest_head rest follows) lexes
      obtain ⟨expr, next, ranRest, ahead, sizeRest, value⟩ := completeRest fuel (.or before right) middle following
        (by simp only [Enough]; omega) (by omega) follows aheadOperand
      refine ⟨expr, next, ?_, ahead, ?_, ?_⟩
      · simp only [ExprParser.run, ExprParser.orLoop, if_pos isOr]
        exact (except_bind_ok _ _ _).mpr ⟨(right, middle), ranOperand, ranRest⟩
      · simp only [Derivation.nots]
        omega
      · intro tag
        simp [value, valueOperand, joined, Derivation.value, Expr.eval, Bool.or_assoc]

theorem and_more_complete (operand : Derivation .not) (rest : Derivation .andRest)
    (completeOperand : Completes unicode operand) (completeRest : Completes unicode rest) :
    Completes unicode (.andMore operand rest) := by
  intro fuel before parser following enough small follows starts
  have positive := nots_positive operand (by simp)
  simp only [Enough, Derivation.nots] at enough small
  cases fuel with
  | zero => omega
  | succ fuel =>
      rw [Derivation.tokens, List.cons_append, List.append_assoc] at starts
      obtain ⟨isAnd, _, lexes⟩ := starts
      obtain ⟨right, middle, ranOperand, aheadOperand, sizeOperand, valueOperand⟩ := completeOperand fuel before parser _
        (by simp only [Enough]; omega) (by omega) trivial lexes
      obtain ⟨expr, next, ranRest, ahead, sizeRest, value⟩ := completeRest fuel (.and before right) middle following
        (by simp only [Enough]; omega) (by omega) follows aheadOperand
      refine ⟨expr, next, ?_, ahead, ?_, ?_⟩
      · simp only [ExprParser.run, ExprParser.andLoop, if_pos isAnd]
        exact (except_bind_ok _ _ _).mpr ⟨(right, middle), ranOperand, ranRest⟩
      · simp only [Derivation.nots]
        omega
      · intro tag
        simp [value, valueOperand, joined, Derivation.value, Expr.eval, Bool.and_assoc]

theorem lex_atom (token : Token) (size : Nat) (lexes : Lexes unicode text (operand.tokens ++ following)) :
    ∃ lexed, ExprParser.lex unicode ⟨text, token, size⟩ = .ok lexed ∧ lexed.size = size ∧
      Ahead unicode lexed (operand.tokens ++ following) ∧ lexed.token ≠ .not := by
  obtain ⟨lexed, ran, sized, ahead⟩ := lex_complete unicode lexes token size
  obtain ⟨first, rest, view, other⟩ := atom_first operand
  refine ⟨lexed, ran, sized, ahead, ?_⟩
  rw [ahead_token unicode lexed _ ahead, view]
  simpa using other

theorem plain_complete (complete : Completes unicode operand) : Completes unicode (.plain operand) := by
  intro fuel before parser following enough small _ starts
  simp only [Enough, Derivation.nots] at enough small
  cases fuel with
  | zero => omega
  | succ fuel =>
      obtain ⟨lexed, ran, sized, ahead, other⟩ := lex_atom unicode operand parser.token (parser.size + 1) starts
      obtain ⟨expr, next, ranAtom, aheadNext, size, value⟩ := complete fuel before lexed following
        (by simp only [Enough]; omega) (by omega) trivial ahead
      refine ⟨expr, next, ?_, aheadNext, ?_, ?_⟩
      · have room : ¬ parser.size + 1 > maxExprSize := by omega
        simp only [ExprParser.run, ExprParser.not, if_neg room]
        refine (except_bind_ok _ _ _).mpr ⟨lexed, ran, ?_⟩
        rw [if_neg other]
        exact ranAtom
      · simp only [Derivation.nots]
        omega
      · exact value

theorem negated_complete (complete : Completes unicode operand) : Completes unicode (.negated operand) := by
  intro fuel before parser following enough small _ starts
  simp only [Enough, Derivation.nots] at enough small
  cases fuel with
  | zero => omega
  | succ fuel =>
      obtain ⟨first, ranFirst, sizedFirst, isNot, _, lexes⟩ :=
        lex_complete unicode starts parser.token (parser.size + 1)
      obtain ⟨lexed, ran, sized, ahead, other⟩ := lex_atom unicode operand first.token first.size lexes
      obtain ⟨expr, next, ranAtom, aheadNext, size, value⟩ := complete fuel before lexed following
        (by simp only [Enough]; omega) (by omega) trivial ahead
      refine ⟨.not expr, next, ?_, aheadNext, ?_, ?_⟩
      · have room : ¬ parser.size + 1 > maxExprSize := by omega
        simp only [ExprParser.run, ExprParser.not, if_neg room]
        refine (except_bind_ok _ _ _).mpr ⟨first, ranFirst, ?_⟩
        rw [if_pos isNot]
        refine (except_bind_ok _ _ _).mpr ⟨lexed, ran, ?_⟩
        rw [if_neg other]
        exact (except_bind_ok _ _ _).mpr ⟨(expr, next), ranAtom, rfl⟩
      · simp only [Derivation.nots]
        omega
      · intro tag
        have inner := value tag
        simp only [joined] at inner
        simp [Expr.eval, joined, Derivation.value, inner]

theorem tag_complete (name : String) : Completes unicode (.tag name) := by
  intro fuel before parser following enough _ _ starts
  cases fuel with
  | zero => simp [Enough] at enough
  | succ fuel =>
      obtain ⟨isTag, _, lexes⟩ := starts
      obtain ⟨next, ran, sized, ahead⟩ := lex_complete unicode lexes parser.token parser.size
      refine ⟨.tag name, next, ?_, ahead, sized, fun tag => by simp [Expr.eval, joined, Derivation.value]⟩
      simp only [ExprParser.run, ExprParser.atom, isTag]
      exact (except_bind_ok _ _ _).mpr ⟨next, ran, rfl⟩

theorem paren_complete (inner : Derivation .or) (complete : Completes unicode inner) : Completes unicode (.paren inner) := by
  intro fuel before parser following enough small _ starts
  simp only [Enough, Derivation.nots] at enough small
  cases fuel with
  | zero => omega
  | succ fuel =>
      rw [Derivation.tokens, List.cons_append, List.append_assoc] at starts
      obtain ⟨isOpen, _, lexes⟩ := starts
      obtain ⟨expr, middle, ranInner, ⟨isClose, _, lexesAfter⟩, sizeInner, value⟩ := complete fuel before parser
        (.closeParen :: following) (by simp only [Enough]; omega) (by omega) (by simp [Follows]) lexes
      obtain ⟨next, ran, sized, ahead⟩ := lex_complete unicode lexesAfter middle.token middle.size
      refine ⟨expr, next, ?_, ahead, ?_, ?_⟩
      · simp only [ExprParser.run, ExprParser.atom, isOpen]
        refine (except_bind_ok _ _ _).mpr ⟨(expr, middle), (except_map_error_ok _ _ _).mpr ranInner, ?_⟩
        rw [if_neg (not_not.mpr isClose)]
        exact (except_bind_ok _ _ _).mpr ⟨next, ran, rfl⟩
      · simp only [Derivation.nots]
        omega
      · exact value

theorem run_complete : Completes unicode tree := by
  induction tree with
  | or first rest ihFirst ihRest => exact or_complete unicode first rest ihFirst ihRest
  | orEnd => exact or_end_complete unicode
  | orMore operand rest ihOperand ihRest => exact or_more_complete unicode operand rest ihOperand ihRest
  | and first rest ihFirst ihRest => exact and_complete unicode first rest ihFirst ihRest
  | andEnd => exact and_end_complete unicode
  | andMore operand rest ihOperand ihRest => exact and_more_complete unicode operand rest ihOperand ihRest
  | plain operand ih => exact plain_complete unicode operand ih
  | negated operand ih => exact negated_complete unicode operand ih
  | tag name => exact tag_complete unicode name
  | paren inner ih => exact paren_complete unicode inner ih

theorem parse_expr_sound {text : String} {expr : Expr} (accepted : parseExpr unicode text = .ok expr) :
    ∃ tree : Derivation .or, Lexes unicode text.toList tree.tokens ∧ tree.nots ≤ maxExprSize ∧
      ∀ tag, expr.eval tag = tree.value tag := by
  obtain ⟨⟨expr', next⟩, ran, finished⟩ := (except_bind_ok _ _ _).mp accepted
  simp only at finished
  split at finished
  · simp at finished
  · rename_i ended
    obtain rfl := Except.ok.inj finished
    obtain ⟨tree, parsed⟩ := run_sound unicode (4 * maxExprSize) .or (.tag "") expr' ⟨text.toList, .end_, 0⟩ next ran
    have sized := parsed.size
    have bounded := parsed.small (Nat.zero_le _)
    have rest := parsed.settled (by simp) (not_not.mp ended)
    have lexes := parsed.reads [] ⟨not_not.mp ended, rest ▸ .done⟩
    refine ⟨tree, by simpa [Starts] using lexes, ?_, parsed.value⟩
    simp only at sized
    omega

theorem parse_expr_complete {text : String} {tree : Derivation .or}
    (lexes : Lexes unicode text.toList tree.tokens) (small : tree.nots ≤ maxExprSize) :
    ∃ expr, parseExpr unicode text = .ok expr ∧ ∀ tag, expr.eval tag = tree.value tag := by
  obtain ⟨expr, next, ran, ended, _, value⟩ := run_complete unicode tree (4 * maxExprSize) (.tag "")
    ⟨text.toList, .end_, 0⟩ [] (by simp only [Enough]; omega) (by simpa using small) (by simp [Follows])
    (by simpa [Starts] using lexes)
  refine ⟨expr, (except_bind_ok _ _ _).mpr ⟨(expr, next), ran, ?_⟩, value⟩
  simp [ended.1]

theorem parse_expr_grammar (unicode : Unicode) (text : String) :
    ((∃ expr, parseExpr unicode text = .ok expr) ↔
      ∃ tokens, Lexes unicode text.toList tokens ∧ ∃ tree : Derivation .or, tree.tokens = tokens ∧ tree.nots ≤ maxExprSize) ∧
    ∀ expr, parseExpr unicode text = .ok expr → ∀ tokens, Lexes unicode text.toList tokens →
      ∀ tree : Derivation .or, tree.tokens = tokens → ∀ tag, expr.eval tag = tree.value tag := by
  constructor
  · constructor
    · rintro ⟨expr, accepted⟩
      obtain ⟨tree, lexes, small, _⟩ := parse_expr_sound unicode accepted
      exact ⟨tree.tokens, lexes, tree, rfl, small⟩
    · rintro ⟨_, lexes, tree, rfl, small⟩
      obtain ⟨expr, accepted, _⟩ := parse_expr_complete unicode lexes small
      exact ⟨expr, accepted⟩
  · rintro expr accepted _ lexes tree rfl tag
    obtain ⟨own, ownLexes, ownSmall, _⟩ := parse_expr_sound unicode accepted
    have same := lexes_unique unicode _ _ _ ownLexes lexes
    have operands := nots_operands tree
    have ownOperands := nots_operands own
    rw [same] at ownOperands
    obtain ⟨expr', accepted', value⟩ := parse_expr_complete unicode lexes (by simp only [ownOperand] at *; omega)
    obtain rfl := Except.ok.inj (accepted.symm.trans accepted')
    exact value tag

end Filefacts.Constraint
