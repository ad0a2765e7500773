import JsonnetSyntax.Grammar.Object

/-!
# Expressions led by a keyword

`assert`, `error`, `function`, `if`, `import`, `importstr` and `local` each start an expression that
extends as far to the right as it can.  They may stand wherever an operand may start.
-/

namespace JsonnetSyntax.Rule

variable {S : Type} [TokenSource S]

/-- Reads `assert condition : message; rest`, with an optional message. -/
def assertForm (full : Rule S Expr) : Rule S Expr := do
  let start ← pop
  let (condition, message) ← condition full
  let _ ← expect (.punct .semicolon)
  let rest ← full
  return .node (.between start.span rest.span) (.assert condition message rest)

/-- Reads `error message`. -/
def errorForm (full : Rule S Expr) : Rule S Expr := do
  let start ← pop
  let message ← full
  return .node (.between start.span message.span) (.error message)

/-- Reads `if condition then expr else expr`, with an optional second branch. -/
def conditionalForm (full : Rule S Expr) : Rule S Expr := do
  let start ← pop
  let condition ← full
  let _ ← expect (.keyword .then)
  let whenTrue ← full
  if ← accept (.keyword .else) then
    let whenFalse ← full
    return .node (.between start.span whenFalse.span)
      (.conditional condition whenTrue (some whenFalse))
  else return .node (.between start.span whenTrue.span) (.conditional condition whenTrue none)

/-- Reads `function(parameters) body`. -/
def functionForm (full : Rule S Expr) : Rule S Expr := do
  let start ← pop
  let found ← pop
  if found.kind = .punct .parenL then
    let parameters ← parameters full .functionParameter
    let body ← full
    return .node (.between start.span body.span) (.function parameters body)
  else fail (.expectedParameters found.toLexeme) found.span

/-- Reads `import file` or `importstr file`: the file has to be a string literal. -/
def importForm (full : Rule S Expr) (shape : String → Shape Expr) : Rule S Expr := do
  let start ← pop
  let file ← full
  match file.stringValue? with
  | some name => return .node (.between start.span file.span) (shape name)
  | none => fail .computedImport file.span

/-- Reads `local name = expr, …; body`. -/
def localForm (full : Rule S Expr) : Rule S Expr := do
  let start ← pop
  let bindings ← bindings full
  let found ← pop
  if found.kind = .punct .semicolon then
    let body ← full
    return .node (.between start.span body.span) (.local bindings body)
  else fail (.expectedBindingEnd found.toLexeme) found.span

/-- Reads the expression that the next token leads, if it is the keyword of one; `full` reads whole
    expressions. -/
def keywordForm? (full : Rule S Expr) : Rule S (Option Expr) := do
  match (← peek).kind with
  | .keyword .assert => return some (← assertForm full)
  | .keyword .error => return some (← errorForm full)
  | .keyword .if => return some (← conditionalForm full)
  | .keyword .function => return some (← functionForm full)
  | .keyword .import => return some (← importForm full .import)
  | .keyword .importstr => return some (← importForm full .importstr)
  | .keyword .local => return some (← localForm full)
  | _ => return none

end JsonnetSyntax.Rule
