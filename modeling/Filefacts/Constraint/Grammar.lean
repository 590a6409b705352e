import Mathlib.Data.List.TakeWhile

set_option autoImplicit false

namespace Filefacts.Constraint

inductive Expr where
  | tag (name : String)
  | not (x : Expr)
  | and (x y : Expr)
  | or (x y : Expr)
  | all (lines : List Expr)
deriving Repr

mutual

def Expr.eval (tag : String → Bool) : Expr → Bool
  | .tag name => tag name
  | .not x => !x.eval tag
  | .and x y => x.eval tag && y.eval tag
  | .or x y => x.eval tag || y.eval tag
  | .all lines => evalAll tag lines

def evalAll (tag : String → Bool) : List Expr → Bool
  | [] => true
  | line :: lines => line.eval tag && evalAll tag lines

end

structure Unicode where
  isAlphanumeric : Char → Bool
  syntaxExcluded : ∀ c ∈ ['(', ')', '!', '&', '|', ' ', '\t'], isAlphanumeric c = false

theorem alphanum_excludes : ∀ c ∈ ['(', ')', '!', '&', '|', ' ', '\t'], c.isAlphanum = false := by simp

def Unicode.inTag (unicode : Unicode) (c : Char) : Bool := unicode.isAlphanumeric c || c == '_' || c == '.'

inductive Token where
  | end_
  | openParen
  | closeParen
  | not
  | and
  | or
  | tag (name : String)
deriving DecidableEq, Repr

def maxExprSize : Nat := 1000

structure ExprParser where
  rest : List Char
  token : Token
  size : Nat
deriving DecidableEq, Repr

abbrev ParseResult := Except String (Expr × ExprParser)

def isBlank (c : Char) : Bool := c == ' ' || c == '\t'

def ExprParser.lex (unicode : Unicode) (parser : ExprParser) : Except String ExprParser :=
  let trimmed := parser.rest.dropWhile isBlank
  match trimmed with
  | [] => .ok { parser with rest := [], token := .end_ }
  | '(' :: rest => .ok { parser with rest, token := .openParen }
  | ')' :: rest => .ok { parser with rest, token := .closeParen }
  | '!' :: rest => .ok { parser with rest, token := .not }
  | '&' :: '&' :: rest => .ok { parser with rest, token := .and }
  | '|' :: '|' :: rest => .ok { parser with rest, token := .or }
  | _ =>
      let name := trimmed.takeWhile unicode.inTag
      if name = [] then .error "invalid syntax"
      else .ok { parser with rest := trimmed.dropWhile unicode.inTag, token := .tag (String.ofList name) }

-- The four functions of the parser and the loops of two of them. Only `not`
-- counts, and every path back to it is short, so a fuel of four calls for each
-- `not` that may still come never runs out.
mutual

def ExprParser.or (unicode : Unicode) : Nat → ExprParser → ParseResult
  | 0, _ => .error "out of fuel"
  | fuel + 1, parser => do
      let (expr, parser) ← ExprParser.and unicode fuel parser
      ExprParser.orLoop unicode fuel expr parser

def ExprParser.orLoop (unicode : Unicode) : Nat → Expr → ExprParser → ParseResult
  | 0, _, _ => .error "out of fuel"
  | fuel + 1, expr, parser =>
      if parser.token = .or then do
        let (operand, parser) ← ExprParser.and unicode fuel parser
        ExprParser.orLoop unicode fuel (.or expr operand) parser
      else .ok (expr, parser)

def ExprParser.and (unicode : Unicode) : Nat → ExprParser → ParseResult
  | 0, _ => .error "out of fuel"
  | fuel + 1, parser => do
      let (expr, parser) ← ExprParser.not unicode fuel parser
      ExprParser.andLoop unicode fuel expr parser

def ExprParser.andLoop (unicode : Unicode) : Nat → Expr → ExprParser → ParseResult
  | 0, _, _ => .error "out of fuel"
  | fuel + 1, expr, parser =>
      if parser.token = .and then do
        let (operand, parser) ← ExprParser.not unicode fuel parser
        ExprParser.andLoop unicode fuel (.and expr operand) parser
      else .ok (expr, parser)

def ExprParser.not (unicode : Unicode) : Nat → ExprParser → ParseResult
  | 0, _ => .error "out of fuel"
  | fuel + 1, parser =>
      if parser.size + 1 > maxExprSize then .error "build expression too large"
      else do
        let parser ← ExprParser.lex unicode { parser with size := parser.size + 1 }
        if parser.token = .not then do
          let parser ← parser.lex unicode
          if parser.token = .not then .error "double negation not allowed"
          else do
            let (expr, parser) ← ExprParser.atom unicode fuel parser
            .ok (.not expr, parser)
        else ExprParser.atom unicode fuel parser

def ExprParser.atom (unicode : Unicode) : Nat → ExprParser → ParseResult
  | 0, _ => .error "out of fuel"
  | fuel + 1, parser =>
      match parser.token with
      | .openParen => do
          let (expr, parser) ← (ExprParser.or unicode fuel parser).mapError fun error =>
            if error = "unexpected end of expression" then "missing close paren" else error
          if parser.token ≠ .closeParen then .error "missing close paren"
          else do
            let parser ← parser.lex unicode
            .ok (expr, parser)
      | .tag name => do
          let parser ← parser.lex unicode
          .ok (.tag name, parser)
      | .end_ => .error "unexpected end of expression"
      | _ => .error "unexpected token"

end

def parseExpr (unicode : Unicode) (text : String) : Except String Expr := do
  let (expr, parser) ← ExprParser.or unicode (4 * maxExprSize) ⟨text.toList, .end_, 0⟩
  if parser.token ≠ .end_ then .error "unexpected token" else .ok expr

inductive Lexes (unicode : Unicode) : List Char → List Token → Prop where
  | done : Lexes unicode [] []
  | space (c : Char) (text : List Char) (tokens : List Token) (blank : c = ' ' ∨ c = '\t')
      (after : Lexes unicode text tokens) : Lexes unicode (c :: text) tokens
  | openParen (text : List Char) (tokens : List Token) (after : Lexes unicode text tokens) :
      Lexes unicode ('(' :: text) (.openParen :: tokens)
  | closeParen (text : List Char) (tokens : List Token) (after : Lexes unicode text tokens) :
      Lexes unicode (')' :: text) (.closeParen :: tokens)
  | not (text : List Char) (tokens : List Token) (after : Lexes unicode text tokens) :
      Lexes unicode ('!' :: text) (.not :: tokens)
  | and (text : List Char) (tokens : List Token) (after : Lexes unicode text tokens) :
      Lexes unicode ('&' :: '&' :: text) (.and :: tokens)
  | or (text : List Char) (tokens : List Token) (after : Lexes unicode text tokens) :
      Lexes unicode ('|' :: '|' :: text) (.or :: tokens)
  | tag (name text whole : List Char) (tokens : List Token) (layout : whole = name ++ text) (nonempty : name ≠ [])
      (inside : ∀ c ∈ name, unicode.inTag c = true) (longest : ∀ c more, text = c :: more → unicode.inTag c = false)
      (after : Lexes unicode text tokens) : Lexes unicode whole (.tag (String.ofList name) :: tokens)

inductive Nonterminal where
  | or
  | orRest
  | and
  | andRest
  | not
  | atom

-- Derivation trees of
--   or   := and orRest      orRest  := ε | '||' and orRest
--   and  := not andRest     andRest := ε | '&&' not andRest
--   not  := atom | '!' atom
--   atom := tag | '(' or ')'
inductive Derivation : Nonterminal → Type where
  | or (first : Derivation .and) (rest : Derivation .orRest) : Derivation .or
  | orEnd : Derivation .orRest
  | orMore (operand : Derivation .and) (rest : Derivation .orRest) : Derivation .orRest
  | and (first : Derivation .not) (rest : Derivation .andRest) : Derivation .and
  | andEnd : Derivation .andRest
  | andMore (operand : Derivation .not) (rest : Derivation .andRest) : Derivation .andRest
  | plain (operand : Derivation .atom) : Derivation .not
  | negated (operand : Derivation .atom) : Derivation .not
  | tag (name : String) : Derivation .atom
  | paren (inner : Derivation .or) : Derivation .atom

namespace Derivation

def tokens : {symbol : Nonterminal} → Derivation symbol → List Token
  | _, .or first rest => first.tokens ++ rest.tokens
  | _, .orEnd => []
  | _, .orMore operand rest => .or :: (operand.tokens ++ rest.tokens)
  | _, .and first rest => first.tokens ++ rest.tokens
  | _, .andEnd => []
  | _, .andMore operand rest => .and :: (operand.tokens ++ rest.tokens)
  | _, .plain operand => operand.tokens
  | _, .negated operand => .not :: operand.tokens
  | _, .tag name => [.tag name]
  | _, .paren inner => .openParen :: (inner.tokens ++ [.closeParen])

def nots : {symbol : Nonterminal} → Derivation symbol → Nat
  | _, .or first rest => first.nots + rest.nots
  | _, .orEnd => 0
  | _, .orMore operand rest => operand.nots + rest.nots
  | _, .and first rest => first.nots + rest.nots
  | _, .andEnd => 0
  | _, .andMore operand rest => operand.nots + rest.nots
  | _, .plain operand => operand.nots + 1
  | _, .negated operand => operand.nots + 1
  | _, .tag _ => 0
  | _, .paren inner => inner.nots

def value (tag : String → Bool) : {symbol : Nonterminal} → Derivation symbol → Bool
  | _, .or first rest => first.value tag || rest.value tag
  | _, .orEnd => false
  | _, .orMore operand rest => operand.value tag || rest.value tag
  | _, .and first rest => first.value tag && rest.value tag
  | _, .andEnd => true
  | _, .andMore operand rest => operand.value tag && rest.value tag
  | _, .plain operand => operand.value tag
  | _, .negated operand => !operand.value tag
  | _, .tag name => tag name
  | _, .paren inner => inner.value tag

end Derivation

def Token.isOperand : Token → Bool
  | .tag _ | .openParen => true
  | .end_ | .closeParen | .not | .and | .or => false

def ownOperand : Nonterminal → Nat
  | .atom => 1
  | .or | .orRest | .and | .andRest | .not => 0

-- Every `not` node has one atom, which starts at a token of its own: all the
-- derivations of one token sequence are of one size.
theorem nots_operands {symbol : Nonterminal} (tree : Derivation symbol) :
    tree.tokens.countP Token.isOperand = tree.nots + ownOperand symbol := by
  induction tree with
  | or first rest ihFirst ihRest =>
      simp only [Derivation.tokens, Derivation.nots, List.countP_append, ihFirst, ihRest, ownOperand]
      omega
  | orEnd => rfl
  | orMore operand rest ihOperand ihRest =>
      simp only [Derivation.tokens, Derivation.nots, List.countP_cons, List.countP_append, ihOperand, ihRest, ownOperand,
        Token.isOperand, Bool.false_eq_true, if_false]
      omega
  | and first rest ihFirst ihRest =>
      simp only [Derivation.tokens, Derivation.nots, List.countP_append, ihFirst, ihRest, ownOperand]
      omega
  | andEnd => rfl
  | andMore operand rest ihOperand ihRest =>
      simp only [Derivation.tokens, Derivation.nots, List.countP_cons, List.countP_append, ihOperand, ihRest, ownOperand,
        Token.isOperand, Bool.false_eq_true, if_false]
      omega
  | plain operand ih => simp only [Derivation.tokens, Derivation.nots, ih, ownOperand]
  | negated operand ih =>
      simp only [Derivation.tokens, Derivation.nots, List.countP_cons, ih, ownOperand, Token.isOperand, Bool.false_eq_true,
        if_false]
  | tag name => rfl
  | paren inner ih =>
      simp only [Derivation.tokens, Derivation.nots, List.countP_cons, List.countP_append, List.countP_nil, ih, ownOperand,
        Token.isOperand, Bool.false_eq_true, if_false, if_true]

theorem in_tag_excludes (unicode : Unicode) (c : Char) (inside : unicode.inTag c = true) :
    isBlank c = false ∧ c ≠ '(' ∧ c ≠ ')' ∧ c ≠ '!' ∧ c ≠ '&' ∧ c ≠ '|' := by
  have syntaxOut : ∀ d ∈ ['(', ')', '!', '&', '|', ' ', '\t'], c ≠ d := by
    rintro d member rfl
    have plain := unicode.syntaxExcluded c member
    have rest : c ≠ '_' ∧ c ≠ '.' := by
      constructor <;> rintro rfl <;> revert member <;> decide
    simp [Unicode.inTag, plain, rest.1, rest.2] at inside
  simp only [List.mem_cons, List.not_mem_nil, or_false, forall_eq_or_imp, forall_eq] at syntaxOut
  obtain ⟨openOut, closeOut, notOut, andOut, orOut, spaceOut, tabOut⟩ := syntaxOut
  exact ⟨by simp [isBlank, spaceOut, tabOut], openOut, closeOut, notOut, andOut, orOut⟩

theorem lexes_blank (unicode : Unicode) (text : List Char) (tokens : List Token) :
    Lexes unicode (text.dropWhile isBlank) tokens → Lexes unicode text tokens := by
  induction text with
  | nil => exact id
  | cons c text ih =>
      intro lexes
      cases blank : isBlank c with
      | false => simpa [List.dropWhile_cons, blank] using lexes
      | true =>
          refine .space c text tokens (by simpa [isBlank] using blank) (ih ?_)
          simpa [List.dropWhile_cons, blank] using lexes

def Ahead (unicode : Unicode) (parser : ExprParser) : List Token → Prop
  | [] => parser.token = .end_ ∧ Lexes unicode parser.rest []
  | token :: tokens => parser.token = token ∧ token ≠ .end_ ∧ Lexes unicode parser.rest tokens

end Filefacts.Constraint
