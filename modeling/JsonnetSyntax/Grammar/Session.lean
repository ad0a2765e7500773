import JsonnetSyntax.Grammar.Level
import JsonnetSyntax.Lexical.Tokens

/-!
# Parsing programs

A program is one expression.  `parse` reads it from tokens and `parseSource` from a text.

A `Session` reads one program after the other off the same tokens, also after an error: reading goes
on where it stopped.  Its `depth` counts the expressions and operands of unary operators that are
being read.  Each of them takes a level of nesting when it starts and gives it back when it ends;
only a unary operator whose operand fails keeps the level of the operand in use.
-/

namespace JsonnetSyntax

/-- Tokens that are still to be read, and the levels of nesting that are in use. -/
structure Session where
  stream : TokenStream
  depth : Nat := 0
deriving DecidableEq, Repr

/-- Taking a token leaves the levels of nesting as they are. -/
instance : TokenSource Session where
  stream := Session.stream
  skip s := { s with stream := s.stream.skip }
  stream_skip _ := rfl

/-! ## Levels of nesting -/

/-- The session with one level of nesting more in use. -/
def Session.deeper (s : Session) : Session := { s with depth := s.depth + 1 }

/-- The session with one level of nesting given back. -/
def Session.shallower (s : Session) : Session := { s with depth := s.depth - 1 }

namespace Rule

/-- Takes one more level of nesting, or fails at the next token if there is none. -/
def enter : Rule Session Unit where
  run s :=
    if maxNesting ≤ s.depth then tooDeep.run s
    else .done () s.deeper
  isRestOf_run s := by
    split
    · exact tooDeep.isRestOf_run s
    · exact .refl s.stream

/-- Gives a level of nesting back. -/
def leave : Rule Session Unit where
  run s := .done () s.shallower
  isRestOf_run s := .refl s.stream

/-- Reads with `rule` and then gives a level of nesting back, also if `rule` fails. -/
def thenLeave {α : Type} (rule : Rule Session α) : Rule Session α where
  run s :=
    match rule.run s with
    | .done value rest => .done value rest.shallower
    | .failed failure rest => .failed failure rest.shallower
  isRestOf_run s := by
    have inner := rule.isRestOf_run s
    cases h : rule.run s with
    | done value rest =>
      rw [h] at inner
      exact inner
    | failed failure rest =>
      rw [h] at inner
      exact inner

/-- Reads an expression on a level of its own. -/
def countedExpr (g : Level Session) (precedence : Precedence) : Rule Session Expr := do
  enter
  (expression g precedence).thenLeave

/-- Reads the operand of a unary operator on a level of its own, which a failure leaves in use. -/
def countedOperand (g : Level Session) : Rule Session Expr := do
  enter
  -- A failure of the operand ends the rule here, in front of `leave`.
  let operand ← unaryOperand g
  leave
  return operand

end Rule

/-- The rules of a session, unrolled `n` times.  What bounds the nesting is the count of the
    session: with more rounds than there are levels left, no reading gets to the last one. -/
def Level.counting : Nat → Level Session
  | 0 => exhausted
  | n + 1 =>
    { expr precedence := Rule.delay fun _ => Rule.countedExpr (counting n) precedence
      operand := Rule.delay fun _ => Rule.countedOperand (counting n) }

/-! ## Programs -/

/-- Reads a whole expression, behind which the tokens have to end. -/
def Rule.program {S : Type} [TokenSource S] (g : Level S) : Rule S Expr := do
  let root ← g.full
  let next ← peek
  if next.kind = .endOfFile then return root
  else fail (.leftover next.toLexeme) next.span

namespace Session

/-- The start of a session. -/
def ofTokens (tokens : List Token) : Session := { stream := .ofTokens tokens }

/-- Reads the next program: the tree or the first error, and the session after it. -/
def program (s : Session) : Except Error Expr × Session :=
  let outcome := (Rule.program (.counting (maxNesting + 1))).run s
  (outcome.result, outcome.rest)

/-- The results of reading `n` programs. -/
def programs (s : Session) : Nat → List (Except Error Expr)
  | 0 => []
  | n + 1 =>
    let (result, after) := s.program
    result :: after.programs n

end Session

/-- The tree of a program, or the first error in it. -/
def parse (tokens : List Token) : Except Error Expr := (Session.ofTokens tokens).program.1

/-- The tree of the program in a source text, or the first error in it. -/
def parseSource (file source : String) : Except Error Expr := do
  parse (← lex file source)

end JsonnetSyntax
