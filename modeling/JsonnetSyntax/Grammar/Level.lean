import JsonnetSyntax.Grammar.KeywordForm
import JsonnetSyntax.Grammar.Operand

/-!
# Expressions

Expressions are read by precedence climbing: an operand, then binary operators that bind tightly
enough, each with a right operand that binds tighter than the operator.  How deep expressions may be
nested is limited, so the rules come in levels, each of which is built from the one below it.

`Level.upTo n` reads expressions with at most `n` levels of nesting off a stream: the limit is part
of the rule.  The rules of a session keep count of the levels instead, see `Level.counting`.
-/

namespace JsonnetSyntax

/-- Nesting deeper than this is an error. -/
def maxNesting : Nat := 2048

/-- The rules for expressions of a bounded depth. -/
structure Level (S : Type) [TokenSource S] where
  /-- An expression whose operators bind at least as tightly as a precedence. -/
  expr : Precedence → Rule S Expr
  /-- The operand of a unary operator. -/
  operand : Rule S Expr

namespace Level

/-- Whole expressions. -/
def full {S : Type} [TokenSource S] (g : Level S) : Rule S Expr := g.expr .loosest

end Level

namespace Rule

variable {S : Type} [TokenSource S]

/-- Fails at the next token, because it would be nested too deep. -/
def tooDeep {α : Type} : Rule S α := do fail (.tooDeep maxNesting) (← peek).span

/-- Reads a unary operator and its operand. -/
def unaryOperation (g : Level S) : Rule S Expr := do
  let t ← pop
  match UnaryOp.ofSymbol? t.data with
  | some op =>
    let operand ← g.operand
    return .node (.between t.span operand.span) (.unary op operand)
  | none => fail (.notUnary t.data) t.span

/-- Reads an operand with the unary operators in front of it. -/
def unary (g : Level S) : Rule S Expr := do
  if ← nextIs .operator then unaryOperation g
  else operand g.full

/-- The binary operator that a token is, if it binds at least as tightly as `precedence`. -/
def binaryOp? (precedence : Precedence) (t : Token) : Option BinaryOp :=
  if t.kind = .operator then
    (BinaryOp.ofSymbol? t.data).filter fun op => op.precedence ≤ precedence
  else none

/-- Whether a token is an operator that cannot follow an operand.  A colon can: it ends the
    expression. -/
def isStrayOperator (t : Token) : Bool :=
  t.kind == .operator && t.data != ":" && (BinaryOp.ofSymbol? t.data).isNone

/-- Reads binary operators that bind at least as tightly as `precedence`, with their right operands.
    The text of `left` starts at `start`. -/
def binaryChain (g : Level S) (precedence : Precedence) (start : Span) (left : Expr) :
    Rule S Expr := do
  let result ← whileNext (binaryOp? precedence) (fun _ op left => do
    let right ← g.expr (op.precedence - 1)
    return .node (.between start right.span) (.binary left op right)) left
  -- Looser operators are left to the caller, but what is no binary operator is left to no one.
  let next ← peek
  if isStrayOperator next then fail (.notBinary next.data) next.span
  else return result

/-- Reads an expression whose operators bind at least as tightly as `precedence`. -/
def expression (g : Level S) (precedence : Precedence) : Rule S Expr := do
  match ← keywordForm? g.full with
  | some e => return e
  | none =>
    let start ← peek
    binaryChain g precedence start.span (← unary g)

/-- Reads the operand of a unary operator. -/
def unaryOperand (g : Level S) : Rule S Expr := do
  match ← keywordForm? g.full with
  | some e => return e
  | none => unary g

end Rule

namespace Level

/-- No expressions: nesting is exhausted. -/
def exhausted {S : Type} [TokenSource S] : Level S where
  expr _ := Rule.tooDeep
  operand := Rule.tooDeep

/-- Expressions whose sub-expressions are those of `g`. -/
def deepen (g : Level TokenStream) : Level TokenStream where
  expr precedence := Rule.delay fun _ => Rule.expression g precedence
  operand := (Rule.delay fun _ => Rule.unaryOperand g).countUnary

/-- Expressions with at most `n` levels of nesting. -/
def upTo : Nat → Level TokenStream
  | 0 => exhausted
  | n + 1 => (upTo n).deepen

end Level

end JsonnetSyntax
