import JsonnetSyntax.Operator
import JsonnetSyntax.Token.Kind

/-!
# One level of a syntax tree

A `Shape ε` is a construct of the language whose sub-expressions are values of `ε`.  With
expressions in place of `ε` it is one node of a tree; with the results of a computation it is one
step of a fold over the tree.  `Shape.children` lists the sub-expressions in the order in which they
are written, and `Shape.children_map` says that mapping a shape maps its children.
-/

namespace JsonnetSyntax

/-- The parameters of a function, and whether a comma follows the last. -/
structure Parameters where
  names : List String
  trailingComma : Bool
deriving DecidableEq, Repr

/-- A name bound to a body, or to a function with parameters and that body. -/
structure Binding (ε : Type) where
  name : String
  body : ε
  parameters : Option Parameters
deriving DecidableEq, Repr

namespace Binding

/-- Applies a function to the body. -/
def map {α β : Type} (f : α → β) (b : Binding α) : Binding β := ⟨b.name, f b.body, b.parameters⟩

end Binding

/-- A clause of a comprehension: a loop over a source, or a condition. -/
inductive Clause (ε : Type) where
  | forIn (name : String) (source : ε)
  | onlyIf (condition : ε)
deriving DecidableEq, Repr

namespace Clause

/-- The expression of a clause. -/
def expr {ε : Type} : Clause ε → ε
  | forIn _ source => source
  | onlyIf condition => condition

/-- Applies a function to the expression. -/
def map {α β : Type} (f : α → β) : Clause α → Clause β
  | forIn name source => forIn name (f source)
  | onlyIf condition => onlyIf (f condition)

end Clause

/-- What is looked up in an object or array: the value of an expression, or a field by its name. -/
inductive Selector (ε : Type) where
  | expr (index : ε)
  | field (name : String)
deriving DecidableEq, Repr

namespace Selector

/-- The sub-expressions of a selector. -/
def children {ε : Type} : Selector ε → List ε
  | expr index => [index]
  | field _ => []

/-- Applies a function to the sub-expressions. -/
def map {α β : Type} (f : α → β) : Selector α → Selector β
  | expr index => expr (f index)
  | field name => field name

end Selector

/-- The key of an object field. -/
inductive FieldKey (ε : Type) where
  | identifier (name : String)
  | string (literal : ε)
  | computed (key : ε)
deriving DecidableEq, Repr

namespace FieldKey

/-- The sub-expressions of a key. -/
def children {ε : Type} : FieldKey ε → List ε
  | identifier _ => []
  | string literal => [literal]
  | computed key => [key]

/-- Applies a function to the sub-expressions. -/
def map {α β : Type} (f : α → β) : FieldKey α → FieldKey β
  | identifier name => identifier name
  | string literal => string (f literal)
  | computed key => computed (f key)

end FieldKey

/-- An object field: `plus` is the `+` in front of its colons, and `method` its parameters if it has
    any. -/
structure Field (ε : Type) where
  key : FieldKey ε
  visibility : Visibility
  plus : Bool
  method : Option Parameters
  body : ε
deriving DecidableEq, Repr

namespace Field

/-- The sub-expressions of a field. -/
def children {ε : Type} (field : Field ε) : List ε := field.key.children ++ [field.body]

/-- Applies a function to the sub-expressions. -/
def map {α β : Type} (f : α → β) (field : Field α) : Field β :=
  ⟨field.key.map f, field.visibility, field.plus, field.method, f field.body⟩

end Field

/-- What an object is made of. -/
inductive Member (ε : Type) where
  | assertion (condition : ε) (message : Option ε)
  | field (content : Field ε)
  | binding (content : Binding ε)
deriving DecidableEq, Repr

namespace Member

/-- The sub-expressions of a member. -/
def children {ε : Type} : Member ε → List ε
  | assertion condition message => condition :: message.toList
  | field content => content.children
  | binding content => [content.body]

/-- Applies a function to the sub-expressions. -/
def map {α β : Type} (f : α → β) : Member α → Member β
  | assertion condition message => assertion (f condition) (message.map f)
  | field content => field (content.map f)
  | binding content => binding (content.map f)

/-- The field that a member is. -/
def field? {ε : Type} : Member ε → Option (Field ε)
  | field content => some content
  | _ => none

end Member

/-- A construct of the language over sub-expressions in `ε`. -/
inductive Shape (ε : Type) where
  | apply (target : ε) (arguments : List ε) (trailingComma tailStrict : Bool)
  | applyBrace (left right : ε)
  | array (elements : List ε) (trailingComma : Bool)
  | arrayComp (body : ε) (trailingComma : Bool) (clauses : List (Clause ε))
  | assert (condition : ε) (message : Option ε) (rest : ε)
  | binary (left : ε) (op : BinaryOp) (right : ε)
  | conditional (condition whenTrue : ε) (whenFalse : Option ε)
  | dollar
  | error (message : ε)
  | function (parameters : Parameters) (body : ε)
  | «import» (file : String)
  | importstr (file : String)
  | index (target : ε) (selector : Selector ε)
  | boolean (value : Bool)
  | null
  | number (value : Float) (spelling : String)
  | string (value : String) (form : StringForm) (blockIndent : Option String)
  | «local» (bindings : List (Binding ε)) (body : ε)
  | object (members : List (Member ε)) (trailingComma : Bool)
  | objectComp (members : List (Member ε)) (trailingComma : Bool) (clauses : List (Clause ε))
  | self
  | superIndex (selector : Selector ε)
  | unary (op : UnaryOp) (operand : ε)
  | var (id spelling : String)

namespace Shape

/-- The name under which a construct is dumped. -/
def name {ε : Type} : Shape ε → String
  | .apply .. => "Apply"
  | .applyBrace .. => "ApplyBrace"
  | .array .. => "Array"
  | .arrayComp .. => "ArrayComp"
  | .assert .. => "Assert"
  | .binary .. => "Binary"
  | .conditional .. => "Conditional"
  | .dollar => "Dollar"
  | .error .. => "Error"
  | .function .. => "Function"
  | .import .. => "Import"
  | .importstr .. => "ImportStr"
  | .index .. => "Index"
  | .boolean .. => "LiteralBoolean"
  | .null => "LiteralNull"
  | .number .. => "LiteralNumber"
  | .string .. => "LiteralString"
  | .local .. => "Local"
  | .object .. => "Object"
  | .objectComp .. => "ObjectComp"
  | .self => "SelfRef"
  | .superIndex .. => "SuperIndex"
  | .unary .. => "Unary"
  | .var .. => "Var"

/-- The sub-expressions in the order in which they are written. -/
def children {ε : Type} : Shape ε → List ε
  | .apply target arguments _ _ => target :: arguments
  | .applyBrace left right => [left, right]
  | .array elements _ => elements
  | .arrayComp body _ clauses => body :: clauses.map Clause.expr
  | .assert condition message rest => condition :: message.toList ++ [rest]
  | .binary left _ right => [left, right]
  | .conditional condition whenTrue whenFalse => condition :: whenTrue :: whenFalse.toList
  | .error message => [message]
  | .function _ body => [body]
  | .index target selector => target :: selector.children
  | .local bindings body => bindings.map Binding.body ++ [body]
  | .object members _ => members.flatMap Member.children
  | .objectComp members _ clauses => members.flatMap Member.children ++ clauses.map Clause.expr
  | .superIndex selector => selector.children
  | .unary _ operand => [operand]
  | .dollar | .import _ | .importstr _ | .boolean _ | .null | .number _ _ | .string _ _ _ | .self
  | .var _ _ => []

/-- Applies a function to the sub-expressions. -/
def map {α β : Type} (f : α → β) : Shape α → Shape β
  | .apply target arguments trailingComma tailStrict =>
    .apply (f target) (arguments.map f) trailingComma tailStrict
  | .applyBrace left right => .applyBrace (f left) (f right)
  | .array elements trailingComma => .array (elements.map f) trailingComma
  | .arrayComp body trailingComma clauses =>
    .arrayComp (f body) trailingComma (clauses.map (Clause.map f))
  | .assert condition message rest => .assert (f condition) (message.map f) (f rest)
  | .binary left op right => .binary (f left) op (f right)
  | .conditional condition whenTrue whenFalse =>
    .conditional (f condition) (f whenTrue) (whenFalse.map f)
  | .dollar => .dollar
  | .error message => .error (f message)
  | .function parameters body => .function parameters (f body)
  | .import file => .import file
  | .importstr file => .importstr file
  | .index target selector => .index (f target) (selector.map f)
  | .boolean value => .boolean value
  | .null => .null
  | .number value spelling => .number value spelling
  | .string value form blockIndent => .string value form blockIndent
  | .local bindings body => .local (bindings.map (Binding.map f)) (f body)
  | .object members trailingComma => .object (members.map (Member.map f)) trailingComma
  | .objectComp members trailingComma clauses =>
    .objectComp (members.map (Member.map f)) trailingComma (clauses.map (Clause.map f))
  | .self => .self
  | .superIndex selector => .superIndex (selector.map f)
  | .unary op operand => .unary op (f operand)
  | .var id spelling => .var id spelling

end Shape

/-! ## Children of a mapped shape -/

section ChildrenMap

variable {α β : Type} (f : α → β)

/-- Mapping a binding maps its body. -/
@[simp] theorem Binding.body_map (b : Binding α) : (b.map f).body = f b.body := rfl

/-- Mapping a clause of a comprehension maps its expression. -/
@[simp] theorem Clause.expr_map (c : Clause α) : (c.map f).expr = f c.expr := by
  cases c <;> rfl

/-- Mapping a selector maps its indices. -/
@[simp] theorem Selector.children_map (s : Selector α) : (s.map f).children = s.children.map f := by
  cases s <;> rfl

/-- Mapping the key of a field maps the expression it is computed from. -/
@[simp] theorem FieldKey.children_map (k : FieldKey α) : (k.map f).children = k.children.map f := by
  cases k <;> rfl

/-- Mapping a field maps its children. -/
@[simp] theorem Field.children_map (field : Field α) :
    (field.map f).children = field.children.map f := by
  simp [Field.children, Field.map]

/-- Mapping a member of an object maps its children. -/
@[simp] theorem Member.children_map (m : Member α) : (m.map f).children = m.children.map f := by
  cases m with
  | assertion condition message => cases message <;> rfl
  | field content => exact content.children_map f
  | binding content => rfl

/-- Mapping a shape maps its children. -/
@[simp] theorem Shape.children_map (s : Shape α) : (s.map f).children = s.children.map f := by
  cases s with
  -- The optional parts of an assertion and of a conditional are children only if they are there.
  | assert condition message rest => cases message <;> simp [Shape.map, Shape.children]
  | conditional condition whenTrue whenFalse =>
    cases whenFalse <;> simp [Shape.map, Shape.children]
  | _ => simp [Shape.map, Shape.children, Function.comp_def, List.flatMap_map, List.map_flatMap]

/-- Mapping a shape keeps its name. -/
@[simp] theorem Shape.name_map (s : Shape α) : (s.map f).name = s.name := by
  cases s <;> rfl

end ChildrenMap

end JsonnetSyntax
