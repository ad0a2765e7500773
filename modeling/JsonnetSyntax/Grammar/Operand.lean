import JsonnetSyntax.Decimal.Basic
import JsonnetSyntax.Grammar.Object

/-!
# Operands

An operand is a literal, a name, an array, an object or an expression in parentheses, followed by
any number of suffixes: `.name`, `[index]`, `(arguments)` and an object in braces.
-/

namespace JsonnetSyntax

/-- The marks that open a suffix. -/
inductive Suffix where
  | field | index | arguments | extension
deriving DecidableEq, Repr

namespace Suffix

/-- Selects a token that opens a suffix. -/
def ofToken? (t : Token) : Option Suffix :=
  match t.kind with
  | .punct .dot => some field
  | .punct .bracketL => some index
  | .punct .parenL => some arguments
  | .punct .braceL => some extension
  | _ => none

end Suffix

namespace Rule

variable {S : Type} [TokenSource S]

/-- Reads a field name behind a dot, and gives its span too. -/
def fieldSelector : Rule S (Selector Expr × Span) := do
  let name ← expect .identifier
  return (.field name.data, name.span)

/-- Reads an index behind an opening bracket, and gives the span of the closing bracket too. -/
def indexSelector (full : Rule S Expr) : Rule S (Selector Expr × Span) := do
  let index ← full
  let closing ← expect (.punct .bracketR)
  return (.expr index, closing.span)

/-- Reads the selector behind `super`, which stands at `start`. -/
def superIndex (full : Rule S Expr) (start : Span) : Rule S Expr := do
  match (← pop).kind with
  | .punct .dot =>
    let (selector, last) ← fieldSelector
    return .node (.between start last) (.superIndex selector)
  | .punct .bracketL =>
    let (selector, last) ← indexSelector full
    return .node (.between start last) (.superIndex selector)
  | _ => fail .bareSuper start

/-- Reads an operand that starts with none of the opening marks. -/
def terminal (full : Rule S Expr) : Rule S Expr := do
  let t ← pop
  match t.kind with
  | .number =>
    match readFloat? t.data with
    | some value => return .node t.span (.number value t.data)
    | none => fail .badNumber t.span
  | .string form => return .node t.span (t.stringShape form)
  | .keyword .false => return .node t.span (.boolean false)
  | .keyword .true => return .node t.span (.boolean true)
  | .keyword .null => return .node t.span .null
  | .keyword .self => return .node t.span .self
  | .punct .dollar => return .node t.span .dollar
  | .identifier => return .node t.span (.var t.data t.data)
  | .keyword .super => superIndex full t.span
  | .endOfFile => fail .unexpectedEnd t.span
  | _ => fail (.noOperand t.toLexeme) t.span

/-- Reads an array or an array comprehension behind the bracket at `opening`. -/
def array (full : Rule S Expr) (opening : Span) : Rule S Expr := do
  if ← nextIs (.punct .bracketR) then
    let closing ← pop
    return .node (.between opening closing.span) (.array [] false)
  else
    let first ← full
    let comma ← accept (.punct .comma)
    -- A comma is allowed in front of `for`, and remembered.
    if ← accept (.keyword .for) then
      let (clauses, closing) ← clauses full .bracketR
      return .node (.between opening closing) (.arrayComp first comma clauses)
    else
      -- Without a `for`, the comma that was read is the first one of the list.
      let stops (kind : TokenKind) : Bool := kind == .punct .bracketR
      let start ← if comma then afterComma stops (pushExpr full) #[first]
        else pure (#[first], false)
      let list ← closeList .bracketR .element (← moreItems stops (pushExpr full) start)
      return .node (.between opening list.closing.span) (.array list.exprs list.trailingComma)

/-- Reads an expression in parentheses, which leave no trace in the tree. -/
def parenthesised (full : Rule S Expr) : Rule S Expr := do
  let inner ← full
  let _ ← expect (.punct .parenR)
  return inner

/-- Reads an operand without suffixes. -/
def primary (full : Rule S Expr) : Rule S Expr := do
  let start ← peek
  match start.kind with
  | .punct .braceL => do let _ ← pop; object full start.span
  | .punct .bracketL => do let _ ← pop; array full start.span
  | .punct .parenL => do let _ ← pop; parenthesised full
  | _ => terminal full

/-- Reads a suffix of `target` behind the token that opens it.  The text of `target` starts at
    `start`. -/
def suffix (full : Rule S Expr) (start : Span) (opening : Token) (kind : Suffix) (target : Expr) :
    Rule S Expr :=
  match kind with
  | .field => do
    let (selector, last) ← fieldSelector
    return .node (.between start last) (.index target selector)
  | .index => do
    let (selector, last) ← indexSelector full
    return .node (.between start last) (.index target selector)
  | .arguments => do
    let list ← commaList full .parenR .argument
    let next ← peek
    -- A call reaches to `tailstrict`, if that stands behind it.
    let tailStrict ← accept (.keyword .tailstrict)
    let last := if tailStrict then next.span else list.closing.span
    return .node (.between start last) (.apply target list.exprs list.trailingComma tailStrict)
  | .extension => do
    let right ← object full opening.span
    return .node (.between start right.span) (.applyBrace target right)

/-- Reads an operand with its suffixes. -/
def operand (full : Rule S Expr) : Rule S Expr := do
  let start ← peek
  let first ← primary full
  whileNext Suffix.ofToken? (fun opening kind target => suffix full start.span opening kind target)
    first

end Rule

end JsonnetSyntax
