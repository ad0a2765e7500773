import JsonnetSyntax.Expr.Basic
import JsonnetSyntax.Json.Printer

/-!
# Trees as JSON

`Expr.toJson` writes a tree as nested objects.  Every node is one object: its span, the name of its
construct, and then its parts.
-/

namespace JsonnetSyntax

/-- Parameters as an object of names and a flag. -/
def Parameters.toJson (p : Parameters) : Json :=
  .object [("names", .ofStrings p.names), ("trailing_comma", .bool p.trailingComma)]

/-- A binding with a dumped body. -/
def Binding.toJson (b : Binding Json) : Json :=
  .object [("variable", .string b.name), ("body", b.body),
    ("function", .ofOption Parameters.toJson b.parameters)]

/-- A clause with a dumped expression. -/
def Clause.toJson : Clause Json → Json
  | .forIn name source =>
    .object [("kind", .string "for"), ("variable", .string name), ("expr", source)]
  | .onlyIf condition => .object [("kind", .string "if"), ("expr", condition)]

/-- A selector with a dumped expression. -/
def Selector.toJson : Selector Json → Json
  | .expr index => .object [("expr", index)]
  | .field name => .object [("field", .string name)]

/-- A key with a dumped expression. -/
def FieldKey.toJson : FieldKey Json → Json
  | .identifier name => .object [("Identifier", .string name)]
  | .string literal => .object [("String", literal)]
  | .computed key => .object [("Computed", key)]

/-- A member with dumped expressions. -/
def Member.toJson : Member Json → Json
  | .assertion condition message =>
    .object [("kind", .string "Assert"), ("condition", condition),
      ("message", .ofOption id message)]
  | .field content =>
    .object [("kind", .string "Field"), ("key", content.key.toJson),
      ("visibility", .string content.visibility.name), ("plus_sugar", .bool content.plus),
      ("method", .ofOption Parameters.toJson content.method), ("body", content.body)]
  | .binding content => .object [("kind", .string "Local"), ("bind", content.toJson)]

/-- The parts of a construct whose sub-expressions are dumped already. -/
def Shape.parts : Shape Json → List (String × Json)
  | .apply target arguments trailingComma tailStrict =>
    [("target", target), ("arguments", .array arguments), ("trailing_comma", .bool trailingComma),
      ("tail_strict", .bool tailStrict)]
  | .applyBrace left right => [("left", left), ("right", right)]
  | .array elements trailingComma =>
    [("elements", .array elements), ("trailing_comma", .bool trailingComma)]
  | .arrayComp body trailingComma clauses =>
    [("body", body), ("trailing_comma", .bool trailingComma),
      ("specs", .array (clauses.map Clause.toJson))]
  | .assert condition message rest =>
    [("condition", condition), ("message", .ofOption id message), ("rest", rest)]
  | .binary left op right => [("left", left), ("op", .string op.name), ("right", right)]
  | .conditional condition whenTrue whenFalse =>
    [("condition", condition), ("branch_true", whenTrue), ("branch_false", .ofOption id whenFalse)]
  | .error message => [("expr", message)]
  | .function parameters body => [("parameters", parameters.toJson), ("body", body)]
  | .import file => [("file", .string file)]
  | .importstr file => [("file", .string file)]
  | .index target selector => [("target", target), ("index", selector.toJson)]
  | .boolean value => [("value", .bool value)]
  | .number value spelling => [("value", .ofFloat value), ("original", .string spelling)]
  | .string value form blockIndent =>
    [("value", .string value), ("kind", .string form.name),
      ("block_indent", .ofOption Json.string blockIndent)]
  | .local bindings body => [("binds", .array (bindings.map Binding.toJson)), ("body", body)]
  | .object members trailingComma =>
    [("fields", .array (members.map Member.toJson)), ("trailing_comma", .bool trailingComma)]
  | .objectComp members trailingComma clauses =>
    [("fields", .array (members.map Member.toJson)), ("trailing_comma", .bool trailingComma),
      ("specs", .array (clauses.map Clause.toJson))]
  | .superIndex selector => [("index", selector.toJson)]
  | .unary op operand => [("op", .string op.name), ("expr", operand)]
  | .var id spelling => [("id", .string id), ("original", .string spelling)]
  | .dollar | .null | .self => []

/-- A node whose sub-expressions are dumped already. -/
def Shape.toJson (span : Span) (shape : Shape Json) : Json :=
  .object (("location", .string span.render) :: ("type", .string shape.name) :: shape.parts)

/-- A tree as nested objects. -/
def Expr.toJson (e : Expr) : Json := e.fold Shape.toJson

end JsonnetSyntax
