import JsonnetSyntax.Expr.Basic
import JsonnetSyntax.Grammar.Rule

/-!
# Lists with commas

Arguments, parameters, array elements and object members are items with commas between them; a comma
may also follow the last.  `Rule.items` reads such a list up to a token that stops it and leaves
that token; `Rule.commaList` also takes the closing token.
-/

namespace JsonnetSyntax

/-- Selects a comma. -/
def comma? (t : Token) : Option Unit := if t.kind = .punct .comma then some () else none

namespace Rule

variable {S : Type} [TokenSource S]

/-- After a comma: either the list stops here, or another item follows.  The flag says whether the
    comma is the last token of the list. -/
def afterComma {σ : Type} (stops : TokenKind → Bool) (item : σ → Rule S σ) (state : σ) :
    Rule S (σ × Bool) := do
  if stops (← peek).kind then return (state, true)
  else return (← item state, false)

/-- Reads commas and further items up to a token that stops the list.  The flag of the start says
    whether a comma was read already. -/
def moreItems {σ : Type} (stops : TokenKind → Bool) (item : σ → Rule S σ) (start : σ × Bool) :
    Rule S (σ × Bool) :=
  whileNext comma? (fun _ _ state => afterComma stops item state.1) start

/-- Reads items with commas between them up to a token that stops the list, and says whether a comma
    follows the last item. -/
def items {σ : Type} (stops : TokenKind → Bool) (item : σ → Rule S σ) (state : σ) :
    Rule S (σ × Bool) := do
  if stops (← peek).kind then return (state, false)
  else moreItems stops item (← item state, false)

end Rule

/-- A list with commas: its expressions, whether a comma follows the last, and the token behind
    it. -/
structure CommaList where
  exprs : List Expr
  trailingComma : Bool
  closing : Token

namespace Rule

variable {S : Type} [TokenSource S]

/-- Appends an expression. -/
def pushExpr (full : Rule S Expr) (exprs : Array Expr) : Rule S (Array Expr) :=
  return exprs.push (← full)

/-- Takes the mark that closes a list of `what`; any other token stays and is the fault. -/
def closeList (closing : Punct) (what : ListItem) (list : Array Expr × Bool) :
    Rule S CommaList := do
  if ← nextIs (.punct closing) then return ⟨list.1.toList, list.2, ← pop⟩
  else fail (.missingComma what) (← peek).span

/-- Reads expressions up to and including the mark that closes the list. -/
def commaList (full : Rule S Expr) (closing : Punct) (what : ListItem) : Rule S CommaList := do
  closeList closing what (← items (· == .punct closing) (pushExpr full) #[])

/-- Reads the parameters behind an opening parenthesis, up to and including the closing one.  They
    are read as expressions, each of which has to be a name. -/
def parameters (full : Rule S Expr) (what : ListItem) : Rule S Parameters := do
  let list ← commaList full .parenR what
  -- The first of them that is no name is the fault, once all are read.
  match list.exprs.find? fun e => e.identifier?.isNone with
  | some e => fail .notAName e.span
  | none => return ⟨list.exprs.filterMap Expr.identifier?, list.trailingComma⟩

/-- Reads parameters in parentheses, if there are any. -/
def optionalParameters (full : Rule S Expr) (what : ListItem) : Rule S (Option Parameters) := do
  if ← accept (.punct .parenL) then return some (← parameters full what)
  else return none

end Rule

end JsonnetSyntax
