import JsonnetSyntax.Grammar.Binding
import JsonnetSyntax.Grammar.Comprehension

/-!
# Objects

An object is made of fields, local bindings and assertions.  Its fields with literal keys have
different names, and so do its local bindings.  Members followed by a `for` clause are an object
comprehension, which has exactly one field, and that with a computed key.
-/

namespace JsonnetSyntax

namespace FieldKey

/-- The name that a key stands for, unless it is computed. -/
def literalName? : FieldKey Expr → Option String
  | identifier name => some name
  | string literal => literal.stringValue?
  | computed _ => none

end FieldKey

namespace Member

/-- The name of a field with a literal key. -/
def fieldName? : Member Expr → Option String
  | field content => content.key.literalName?
  | _ => none

/-- The name of a local binding. -/
def localName? : Member Expr → Option String
  | binding content => some content.name
  | _ => none

/-- Whether the member is an assertion. -/
def isAssertion {ε : Type} : Member ε → Bool
  | assertion _ _ => true
  | _ => false

end Member

namespace FieldKey

/-- Whether the key is computed. -/
def isComputed {ε : Type} : FieldKey ε → Bool
  | computed _ => true
  | _ => false

end FieldKey

/-- What keeps members from being those of an object comprehension, if anything does. -/
def comprehensionFault? {ε : Type} (members : List (Member ε)) : Option ComprehensionFault :=
  if members.any Member.isAssertion then some .assertion
  else
    match members.filterMap Member.field? with
    | [field] =>
      if field.visibility ≠ .inherit then some .hiddenField
      else if !field.key.isComputed then some .fixedKey
      else none
    | _ => some .notOneField

/-- What can start a member. -/
inductive MemberStart where
  | computedKey | identifierKey | stringKey | binding | assertion
deriving DecidableEq, Repr

namespace MemberStart

/-- The start of a member that a token is. -/
def ofKind? : TokenKind → Option MemberStart
  | .punct .bracketL => some computedKey
  | .identifier => some identifierKey
  | .string _ => some stringKey
  | .keyword .local => some binding
  | .keyword .assert => some assertion
  | _ => none

end MemberStart

/-- The colons behind a field name, and whether a plus sign stands in front of them. -/
def assignment? (symbol : String) : Option (Visibility × Bool) :=
  match symbol.toList with
  | '+' :: colons => (Visibility.ofColons? (String.ofList colons)).map fun v => (v, true)
  | _ => (Visibility.ofColons? symbol).map fun v => (v, false)

/-- Whether a token ends the members of an object. -/
def endsMembers (kind : TokenKind) : Bool := kind == .punct .braceR || kind == .keyword .for

/-- The literal that a string token stands for. -/
def Token.stringShape (t : Token) (form : StringForm) : Shape Expr :=
  .string t.data form (if form = .block then t.block.map TextBlock.indent else none)

namespace Rule

variable {S : Type} [TokenSource S]

/-- Reads a condition and its message behind `assert`. -/
def condition (full : Rule S Expr) : Rule S (Expr × Option Expr) := do
  let condition ← full
  if ← nextIsOperator ":" then
    let _ ← pop
    return (condition, some (← full))
  else return (condition, none)

/-- Reads the key that starts with the token `t`, which was taken already. -/
def key (full : Rule S Expr) (t : Token) : Rule S (FieldKey Expr) :=
  match t.kind with
  | .identifier => return .identifier t.data
  | .string form => return .string (.node t.span (t.stringShape form))
  | _ => do
    -- Any other token that starts a key is the opening bracket of a computed one.
    let key ← full
    let _ ← expect (.punct .bracketR)
    return .computed key

/-- Reads the operator behind a field name. -/
def assignment : Rule S (Visibility × Bool) := do
  let found ← expect .operator
  match assignment? found.data with
  | some result => return result
  | none => fail (.expectedAssignment found.data) found.span

/-- Fails if a key repeats the name of a field in `seen`. -/
def freshField (t : Token) (key : FieldKey Expr) (seen : Array (Member Expr)) : Rule S Unit :=
  match key.literalName? with
  -- The name of a computed key is not known yet.
  | none => return
  | some name =>
    if seen.any fun member => member.fieldName? == some name then fail (.duplicateField name) t.span
    else return

/-- Reads a field behind the first token of its key. -/
def field (full : Rule S Expr) (t : Token) (seen : Array (Member Expr)) : Rule S (Field Expr) := do
  let key ← key full t
  let method ← optionalParameters full .methodParameter
  let (visibility, plus) ← assignment
  -- A method with a plus sign is reported as such even if its name is taken.
  if plus && method.isSome then fail (.methodSugar t.data) t.span
  else
    freshField t key seen
    return ⟨key, visibility, plus, method, ← full⟩

/-- Appends a member to those that were read. -/
def pushMember (full : Rule S Expr) (seen : Array (Member Expr)) :
    Rule S (Array (Member Expr)) := do
  let start ← pop
  match MemberStart.ofKind? start.kind with
  | some .binding =>
    return seen.push (.binding (← binding full fun name =>
      seen.any fun member => member.localName? == some name))
  | some .assertion =>
    let (condition, message) ← condition full
    return seen.push (.assertion condition message)
  | some _ => return seen.push (.field (← field full start seen))
  | none => fail (.noMember start.toLexeme) start.span

/-- Reads the clauses of an object comprehension behind its members and the `for` at `start`. -/
def objectComp (full : Rule S Expr) (opening start : Span) (members : List (Member Expr))
    (trailingComma : Bool) : Rule S Expr :=
  -- The members are judged before any clause is read.
  match comprehensionFault? members with
  | some fault => fail (.badComprehension fault) start
  | none => do
    let (clauses, closing) ← clauses full .braceR
    return .node (.between opening closing) (.objectComp members trailingComma clauses)

/-- Reads an object behind the brace at `opening`, up to and including the closing brace. -/
def object (full : Rule S Expr) (opening : Span) : Rule S Expr := do
  let (members, trailingComma) ← items endsMembers (pushMember full) #[]
  let found ← pop
  match found.kind with
  | .punct .braceR =>
    return .node (.between opening found.span) (.object members.toList trailingComma)
  | .keyword .for => objectComp full opening found.span members.toList trailingComma
  | _ => fail (.missingComma .field) found.span

end Rule

end JsonnetSyntax
