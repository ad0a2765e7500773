import JsonnetSyntax.Grammar.Items

/-!
# Comprehension clauses

The clauses of a comprehension start with `for`; further `for` and `if` clauses follow in any order,
up to the mark that closes the comprehension.
-/

namespace JsonnetSyntax

/-- The two kinds of clauses. -/
inductive ClauseStart where
  | loop | condition
deriving DecidableEq, Repr

namespace ClauseStart

/-- Selects a token that starts a clause. -/
def ofToken? (t : Token) : Option ClauseStart :=
  match t.kind with
  | .keyword .for => some loop
  | .keyword .if => some condition
  | _ => none

end ClauseStart

namespace Rule

variable {S : Type} [TokenSource S]

/-- Reads a `for` clause behind its keyword. -/
def loopClause (full : Rule S Expr) : Rule S (Clause Expr) := do
  let name ← expect .identifier
  let _ ← expect (.keyword .in)
  return .forIn name.data (← full)

/-- Reads the clause that starts with a keyword, behind the keyword. -/
def clause (full : Rule S Expr) : ClauseStart → Rule S (Clause Expr)
  | .loop => loopClause full
  | .condition => do return .onlyIf (← full)

/-- Reads the clauses behind the first `for`, up to and including the closing mark, whose span is
    given too. -/
def clauses (full : Rule S Expr) (closing : Punct) : Rule S (List (Clause Expr) × Span) := do
  let first ← loopClause full
  let all ← whileNext ClauseStart.ofToken?
    (fun _ start seen => return seen.push (← clause full start))
    #[first]
  let found ← pop
  if found.kind = .punct closing then return (all.toList, found.span)
  else fail (.expectedClauseEnd (.punct closing) found.toLexeme) found.span

end Rule

end JsonnetSyntax
