import JsonnetSyntax.Decimal.Basic
import JsonnetSyntax.Expr.Basic
import JsonnetSyntax.Grammar.Object

/-!
# Well-formed trees

A tree of shapes can hold more than a program can say: two local variables of one name, a comma
behind the last of no arguments, a text block's indent on another string.  `Shape.WellFormed` rules
these out for one node, and `Expr.WellFormed` for all nodes of a tree.  `Expr.height` is the length
of the longest way down a tree, and `Expr.erase` takes the places out of it.

## Key results

- `Expr.wellFormed_node`: a tree is well formed if its top and its sub-expressions are
- `comprehensionFault?_eq_none`: the members that the grammar admits in an object comprehension
- `Expr.height_lt_of_mem_children`: sub-expressions are less high than the expression
-/

namespace JsonnetSyntax

/-! ## One node -/

/-- A comma follows the last item of a list only if there is one. -/
def CommaFollowsItem {α : Type} (items : List α) (trailingComma : Bool) : Prop :=
  trailingComma = true → items ≠ []

/-- No comma follows the last of no items. -/
theorem CommaFollowsItem.eq_false {α : Type} {trailingComma : Bool}
    (h : CommaFollowsItem ([] : List α) trailingComma) : trailingComma = false := by
  rw [Bool.eq_false_iff]
  intro htrailing
  exact h htrailing rfl

/-- A comma follows the last parameter only if there is one. -/
def Parameters.WellFormed (p : Parameters) : Prop := CommaFollowsItem p.names p.trailingComma

/-- The parameters of a binding are well formed. -/
def Binding.WellFormed (b : Binding Expr) : Prop := ∀ p, b.parameters = some p → p.WellFormed

/-- There are bindings, no two of one name, and each is well formed. -/
structure BindingsWellFormed (bindings : List (Binding Expr)) : Prop where
  nonempty : bindings ≠ []
  names : (bindings.map Binding.name).Nodup
  each : ∀ b ∈ bindings, b.WellFormed

/-- The clauses of a comprehension start with a loop. -/
def StartWithLoop (clauses : List (Clause Expr)) : Prop :=
  ∃ name source rest, clauses = .forIn name source :: rest

/-- A string that is a key is a literal, a method has no plus sign, and its parameters are well
    formed. -/
structure Field.WellFormed (f : Field Expr) : Prop where
  literalKey : ∀ literal, f.key = .string literal → ∃ name, literal.stringValue? = some name
  plainMethod : f.plus = true → f.method = none
  parameters : ∀ p, f.method = some p → p.WellFormed

/-- The fields and bindings of an object are well formed. -/
def Member.WellFormed : Member Expr → Prop
  | .assertion _ _ => True
  | .field content => content.WellFormed
  | .binding content => content.WellFormed

/-- The members of an object: no two fields with literal keys have one name, and no two local
    variables do. -/
structure MembersWellFormed (members : List (Member Expr)) : Prop where
  each : ∀ m ∈ members, m.WellFormed
  fieldNames : (members.filterMap Member.fieldName?).Nodup
  localNames : (members.filterMap Member.localName?).Nodup

/-- The members of an object comprehension: no assertion, and one field, with a computed key and a
    single colon. -/
structure Comprehensible (members : List (Member Expr)) : Prop where
  noAssertion : ∀ m ∈ members, m.isAssertion = false
  oneField : ∃ f, members.filterMap Member.field? = [f] ∧ f.visibility = .inherit ∧
    f.key.isComputed = true

/-- Whether an expression is an object or an object comprehension. -/
def Expr.isObject (e : Expr) : Bool :=
  match e.shape with
  | .object _ _ | .objectComp _ _ _ => true
  | _ => false

/-- What holds at each node of the tree of a program. -/
def Shape.WellFormed : Shape Expr → Prop
  | .apply _ arguments trailingComma _ => CommaFollowsItem arguments trailingComma
  | .applyBrace _ right => right.isObject = true
  | .array elements trailingComma => CommaFollowsItem elements trailingComma
  | .arrayComp _ _ clauses => StartWithLoop clauses
  | .function parameters _ => parameters.WellFormed
  | .number value spelling => readFloat? spelling = some value
  | .string _ form blockIndent => blockIndent.isSome → form = .block
  | .local bindings _ => BindingsWellFormed bindings
  | .object members trailingComma =>
    MembersWellFormed members ∧ CommaFollowsItem members trailingComma
  | .objectComp members trailingComma clauses =>
    (MembersWellFormed members ∧ CommaFollowsItem members trailingComma) ∧
      Comprehensible members ∧ StartWithLoop clauses
  | .var id spelling => id = spelling
  | _ => True

/-- The grammar finds no fault with members exactly if they can be those of a comprehension. -/
theorem comprehensionFault?_eq_none {members : List (Member Expr)} :
    comprehensionFault? members = none ↔ Comprehensible members := by
  unfold comprehensionFault?
  constructor
  · intro h
    -- The faults come first: an assertion, a visibility, a literal key, another number of fields.
    split at h
    · cases h
    · next hassertion =>
      have hnone : ∀ m ∈ members, m.isAssertion = false := by simpa using hassertion
      split at h
      · next f hfields =>
        split at h
        · cases h
        · next hvisibility =>
          split at h
          · cases h
          · next hkey => exact ⟨hnone, f, hfields, by simpa using hvisibility, by simpa using hkey⟩
      · cases h
  · intro h
    obtain ⟨hnone, f, hfields, hvisibility, hkey⟩ := h
    have hassertion : members.any Member.isAssertion = false := by simpa using hnone
    simp [hassertion, hfields, hvisibility, hkey]

namespace Expr

/-! ## All nodes of a tree -/

/-- The expression is the tree itself, or stands somewhere in one of its sub-expressions. -/
inductive IsWithin : Expr → Expr → Prop where
  | refl (root : Expr) : IsWithin root root
  | child {e child root : Expr} (hmem : child ∈ root.children) (h : IsWithin e child) :
    IsWithin e root

/-- All nodes of the tree are well formed. -/
def WellFormed (root : Expr) : Prop := ∀ e : Expr, e.IsWithin root → e.shape.WellFormed

/-- The top of a well-formed tree is well formed. -/
theorem WellFormed.shape {root : Expr} (h : root.WellFormed) : root.shape.WellFormed :=
  h root (.refl root)

/-- The sub-expressions of a well-formed tree are well formed. -/
theorem WellFormed.of_mem_children {root child : Expr} (h : root.WellFormed)
    (hmem : child ∈ root.children) : child.WellFormed :=
  fun e he => h e (.child hmem he)

/-- A tree is well formed if its top and its sub-expressions are. -/
theorem wellFormed_node {span : Span} {shape : Shape Expr} :
    (node span shape).WellFormed ↔
      shape.WellFormed ∧ ∀ child ∈ shape.children, child.WellFormed := by
  constructor
  · intro h
    exact ⟨h.shape, fun child hmem => h.of_mem_children hmem⟩
  -- A node within the tree is its top or stands in one of its sub-expressions.
  · intro h e he
    obtain ⟨htop, hchildren⟩ := h
    cases he with
    | refl => exact htop
    | child hmem he => exact hchildren _ hmem e he

/-! ## Height -/

/-- The greatest number in a list. -/
def greatest (ns : List Nat) : Nat := ns.foldr max 0

/-- No number of a list is above the greatest one. -/
theorem le_greatest_of_mem {n : Nat} {ns : List Nat} (h : n ∈ ns) : n ≤ greatest ns := by
  induction ns with
  | nil => cases h
  | cons m ns ih =>
    -- The greatest number of a list is the greater of its first and the greatest of the others.
    show n ≤ max m (greatest ns)
    obtain rfl | h := List.mem_cons.mp h
    · exact Nat.le_max_left ..
    · exact Nat.le_trans (ih h) (Nat.le_max_right ..)

/-- The number of steps on the longest way down from the top of a tree. -/
def height : Expr → Nat := fold fun _ shape => greatest (shape.children.map (· + 1))

/-- A tree is one step higher than its highest sub-expression. -/
theorem height_eq (e : Expr) :
    e.height = greatest (e.children.map fun child => child.height + 1) := by
  obtain ⟨span, shape⟩ := e
  show fold _ (.node span shape) = _
  rw [fold_node, Shape.children_map, List.map_map]
  rfl

/-- Sub-expressions are less high than the expression. -/
theorem height_lt_of_mem_children {e child : Expr} (h : child ∈ e.children) :
    child.height < e.height := by
  have hle := le_greatest_of_mem (List.mem_map_of_mem (f := fun child => child.height + 1) h)
  rw [height_eq e]
  omega

/-! ## Trees without places -/

/-- The tree with all its nodes at no place. -/
def erase : Expr → Expr := fold fun _ shape => .node (.unset "") shape

/-- Taking the places out of a tree takes them out of its sub-expressions. -/
@[simp] theorem erase_node (span : Span) (shape : Shape Expr) :
    (node span shape).erase = .node (.unset "") (shape.map erase) := fold_node ..

end Expr

end JsonnetSyntax
