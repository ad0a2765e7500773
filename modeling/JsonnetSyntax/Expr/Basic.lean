import JsonnetSyntax.Expr.Shape
import JsonnetSyntax.Span

/-!
# Syntax trees

An `Expr` is a tree of shapes, each with the span it was read from.  `Expr.fold` computes a value
from the bottom up; `Expr.fold_node` is its rule.  `Expr.preorder` lists the nodes of a tree from
the top down and from left to right, with their depths.
-/

namespace JsonnetSyntax

/-- An expression with its place in the source. -/
inductive Expr where
  | node (span : Span) (shape : Shape Expr)

namespace Expr

/-- The place of an expression. -/
def span : Expr → Span
  | node span _ => span

/-- The construct at the top of an expression. -/
def shape : Expr → Shape Expr
  | node _ shape => shape

/-- The sub-expressions in the order in which they are written. -/
def children (e : Expr) : List Expr := e.shape.children

/-- The name under which an expression is dumped. -/
def name (e : Expr) : String := e.shape.name

/-- The identifier that an expression is. -/
def identifier? (e : Expr) : Option String :=
  match e.shape with
  | .var id _ => some id
  | _ => none

/-- The text of the string literal that an expression is. -/
def stringValue? (e : Expr) : Option String :=
  match e.shape with
  | .string value _ _ => some value
  | _ => none

/-! ## Folding -/

mutual

/-- Computes a value from the bottom up: `step` combines the values of the sub-expressions. -/
def fold {α : Type} (step : Span → Shape α → α) : Expr → α
  | .node span shape => step span (foldShape step shape)

/-- Folds the sub-expressions of a shape. -/
def foldShape {α : Type} (step : Span → Shape α → α) : Shape Expr → Shape α
  | .apply target arguments trailingComma tailStrict =>
    .apply (target.fold step) (foldList step arguments) trailingComma tailStrict
  | .applyBrace left right => .applyBrace (left.fold step) (right.fold step)
  | .array elements trailingComma => .array (foldList step elements) trailingComma
  | .arrayComp body trailingComma clauses =>
    .arrayComp (body.fold step) trailingComma (foldClauses step clauses)
  | .assert condition message rest =>
    .assert (condition.fold step) (foldOption step message) (rest.fold step)
  | .binary left op right => .binary (left.fold step) op (right.fold step)
  | .conditional condition whenTrue whenFalse =>
    .conditional (condition.fold step) (whenTrue.fold step) (foldOption step whenFalse)
  | .dollar => .dollar
  | .error message => .error (message.fold step)
  | .function parameters body => .function parameters (body.fold step)
  | .import file => .import file
  | .importstr file => .importstr file
  | .index target selector => .index (target.fold step) (foldSelector step selector)
  | .boolean value => .boolean value
  | .null => .null
  | .number value spelling => .number value spelling
  | .string value form blockIndent => .string value form blockIndent
  | .local bindings body => .local (foldBindings step bindings) (body.fold step)
  | .object members trailingComma => .object (foldMembers step members) trailingComma
  | .objectComp members trailingComma clauses =>
    .objectComp (foldMembers step members) trailingComma (foldClauses step clauses)
  | .self => .self
  | .superIndex selector => .superIndex (foldSelector step selector)
  | .unary op operand => .unary op (operand.fold step)
  | .var id spelling => .var id spelling

/-- Folds a list of expressions. -/
def foldList {α : Type} (step : Span → Shape α → α) : List Expr → List α
  | [] => []
  | e :: es => e.fold step :: foldList step es

/-- Folds an expression that may be absent. -/
def foldOption {α : Type} (step : Span → Shape α → α) : Option Expr → Option α
  | none => none
  | some e => some (e.fold step)

/-- Folds the expressions of clauses. -/
def foldClauses {α : Type} (step : Span → Shape α → α) : List (Clause Expr) → List (Clause α)
  | [] => []
  | .forIn name source :: clauses => .forIn name (source.fold step) :: foldClauses step clauses
  | .onlyIf condition :: clauses => .onlyIf (condition.fold step) :: foldClauses step clauses

/-- Folds the expression of a selector. -/
def foldSelector {α : Type} (step : Span → Shape α → α) : Selector Expr → Selector α
  | .expr index => .expr (index.fold step)
  | .field name => .field name

/-- Folds the body of a binding. -/
def foldBinding {α : Type} (step : Span → Shape α → α) : Binding Expr → Binding α
  | ⟨name, body, parameters⟩ => ⟨name, body.fold step, parameters⟩

/-- Folds the bodies of bindings. -/
def foldBindings {α : Type} (step : Span → Shape α → α) : List (Binding Expr) → List (Binding α)
  | [] => []
  | binding :: bindings => foldBinding step binding :: foldBindings step bindings

/-- Folds the expression of a key. -/
def foldKey {α : Type} (step : Span → Shape α → α) : FieldKey Expr → FieldKey α
  | .identifier name => .identifier name
  | .string literal => .string (literal.fold step)
  | .computed key => .computed (key.fold step)

/-- Folds the expressions of a field. -/
def foldField {α : Type} (step : Span → Shape α → α) : Field Expr → Field α
  | ⟨key, visibility, plus, method, body⟩ =>
    ⟨foldKey step key, visibility, plus, method, body.fold step⟩

/-- Folds the expressions of a member. -/
def foldMember {α : Type} (step : Span → Shape α → α) : Member Expr → Member α
  | .assertion condition message => .assertion (condition.fold step) (foldOption step message)
  | .field content => .field (foldField step content)
  | .binding content => .binding (foldBinding step content)

/-- Folds the expressions of members. -/
def foldMembers {α : Type} (step : Span → Shape α → α) : List (Member Expr) → List (Member α)
  | [] => []
  | member :: members => foldMember step member :: foldMembers step members

end

section FoldNode

variable {α : Type} (step : Span → Shape α → α)

/-- Folding a list of expressions folds each of them. -/
private theorem foldList_eq_map (es : List Expr) : foldList step es = es.map (fold step) := by
  induction es with
  | nil => simp [foldList]
  | cons e es ih => simp [foldList, ih]

/-- Folding an optional expression folds it if it is there. -/
private theorem foldOption_eq_map (e : Option Expr) : foldOption step e = e.map (fold step) := by
  cases e <;> simp [foldOption]

/-- Folding clauses folds the expression of each of them. -/
private theorem foldClauses_eq_map (clauses : List (Clause Expr)) :
    foldClauses step clauses = clauses.map (Clause.map (fold step)) := by
  induction clauses with
  | nil => simp [foldClauses]
  | cons clause clauses ih => cases clause <;> simp [foldClauses, Clause.map, ih]

/-- Folding a selector folds its indices. -/
private theorem foldSelector_eq_map (selector : Selector Expr) :
    foldSelector step selector = selector.map (fold step) := by
  cases selector <;> simp [foldSelector, Selector.map]

/-- Folding a binding folds its body. -/
private theorem foldBinding_eq_map (binding : Binding Expr) :
    foldBinding step binding = binding.map (fold step) := by
  cases binding
  simp [foldBinding, Binding.map]

/-- Folding bindings folds the body of each of them. -/
private theorem foldBindings_eq_map (bindings : List (Binding Expr)) :
    foldBindings step bindings = bindings.map (Binding.map (fold step)) := by
  induction bindings with
  | nil => simp [foldBindings]
  | cons binding bindings ih => simp [foldBindings, foldBinding_eq_map, ih]

/-- Folding the key of a field folds the expression it is computed from. -/
private theorem foldKey_eq_map (key : FieldKey Expr) : foldKey step key = key.map (fold step) := by
  cases key <;> simp [foldKey, FieldKey.map]

/-- Folding a field folds its key and its body. -/
private theorem foldField_eq_map (field : Field Expr) :
    foldField step field = field.map (fold step) := by
  cases field
  simp [foldField, Field.map, foldKey_eq_map]

/-- Folding a member of an object folds the expressions in it. -/
private theorem foldMember_eq_map (member : Member Expr) :
    foldMember step member = member.map (fold step) := by
  cases member <;>
    simp [foldMember, Member.map, foldOption_eq_map, foldField_eq_map, foldBinding_eq_map]

/-- Folding members folds the expressions in each of them. -/
private theorem foldMembers_eq_map (members : List (Member Expr)) :
    foldMembers step members = members.map (Member.map (fold step)) := by
  induction members with
  | nil => simp [foldMembers]
  | cons member members ih => simp [foldMembers, foldMember_eq_map, ih]

/-- Folding a shape folds its sub-expressions, and keeps everything else. -/
private theorem foldShape_eq_map (shape : Shape Expr) :
    foldShape step shape = shape.map (fold step) := by
  cases shape <;>
    simp [foldShape, Shape.map, foldList_eq_map, foldOption_eq_map, foldClauses_eq_map,
      foldSelector_eq_map, foldBindings_eq_map, foldMembers_eq_map]

/-- A fold combines the folds of the sub-expressions. -/
@[simp] theorem fold_node (span : Span) (shape : Shape Expr) :
    fold step (.node span shape) = step span (shape.map (fold step)) := by
  rw [fold, foldShape_eq_map]

end FoldNode

/-! ## Size and traversal -/

/-- The sum of the numbers in a list. -/
def total (ns : List Nat) : Nat := ns.foldr (fun n sum => n + sum) 0

/-- No numbers have the sum zero. -/
@[simp] theorem total_nil : total [] = 0 := rfl

/-- The first number is added to the sum of the others. -/
@[simp] theorem total_cons (n : Nat) (ns : List Nat) : total (n :: ns) = n + total ns := rfl

/-- The sum of two lists is the sum of their sums. -/
@[simp] theorem total_append (ns ms : List Nat) : total (ns ++ ms) = total ns + total ms := by
  induction ns with
  | nil => simp
  | cons n ns ih => simp [ih, Nat.add_assoc]

/-- A sum of natural numbers is no smaller than any of them. -/
theorem le_total_of_mem {n : Nat} {ns : List Nat} (h : n ∈ ns) : n ≤ total ns := by
  induction ns with
  | nil => cases h
  | cons m ns ih =>
    -- The number stands in front, or the sum behind the front exceeds it already.
    rcases List.mem_cons.mp h with rfl | h
    · simp
    · have := ih h
      simp
      omega

/-- The number of nodes of an expression. -/
def size (e : Expr) : Nat := e.fold fun _ shape => total shape.children + 1

/-- An expression has one node more than its sub-expressions together. -/
theorem size_eq (e : Expr) : e.size = total (e.children.map size) + 1 := by
  obtain ⟨span, shape⟩ := e
  -- Both sides are folds of the same step, so one equation of the fold is enough.
  change fold _ (.node span shape) = total (shape.children.map (fold _)) + 1
  rw [fold_node, Shape.children_map]

/-- A sub-expression has fewer nodes than the expression. -/
theorem size_lt_of_mem_children {e child : Expr} (h : child ∈ e.children) :
    child.size < e.size := by
  have := le_total_of_mem (List.mem_map_of_mem (f := size) h)
  rw [size_eq e]
  omega

/-- A property of all sub-expressions that carries over to the expression holds of every
    expression. -/
theorem induction_on_children {P : Expr → Prop}
    (step : ∀ e : Expr, (∀ child ∈ e.children, P child) → P e) (e : Expr) : P e :=
  step e fun child _ => induction_on_children step child
termination_by e.size
decreasing_by exact size_lt_of_mem_children ‹_›

/-- Lists the nodes of the expressions in `todo` in turn, each with its depth and followed by its
    sub-expressions, behind the nodes `seen`. -/
def preorderFrom (seen : Array (Nat × Expr)) (todo : List (Nat × Expr)) : Array (Nat × Expr) :=
  match todo with
  | [] => seen
  | (depth, e) :: todo =>
    preorderFrom (seen.push (depth, e)) (e.children.map (fun child => (depth + 1, child)) ++ todo)
-- An expression is replaced by its sub-expressions, which have one node less in all.
termination_by total (todo.map fun entry => entry.2.size)
decreasing_by
  simp [size_eq e, Function.comp_def]

/-- The nodes of an expression, each in front of its sub-expressions, with their depths. -/
def preorder (e : Expr) : List (Nat × Expr) := (preorderFrom #[] [(0, e)]).toList

end Expr

end JsonnetSyntax
