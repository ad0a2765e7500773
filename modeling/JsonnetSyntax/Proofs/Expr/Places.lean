import JsonnetSyntax.Expr.Basic
import JsonnetSyntax.Fault
import JsonnetSyntax.Grammar.Object

/-!
# Trees at other places

`Expr.mapSpan` changes the span of every node of a tree and nothing else, and `Error.mapSpan` the
span of an error.  What the grammar looks at in a tree, the names in it and the kinds of its
members, does not change with the spans.

## Key results

- `Expr.mapSpan_node`, `Expr.span_mapSpan`: the top of a tree at other places
- `Expr.mapSpan_id`: no change of spans is no change of the tree
- `stringValue?_mapSpan`, `fieldName?_map_mapSpan`, `comprehensionFault?_map`: names and kinds stay
-/

namespace JsonnetSyntax

/-! ## Maps that change nothing -/

section MapEqSelf

variable {α : Type} {f : α → α}

/-- A list whose members stay is not changed. -/
theorem map_eq_self_of_mem {β : Type} {g : β → β} {items : List β} (h : ∀ x ∈ items, g x = x) :
    items.map g = items :=
  (List.map_congr_left h).trans (List.map_id items)

/-- An optional expression stays if it stays where it is present. -/
theorem map_option_eq_self {x : Option α} (h : ∀ e ∈ x.toList, f e = e) : x.map f = x := by
  cases x with
  | none => rfl
  | some e => exact congrArg some (h e (by simp))

/-- A binding stays if its body does. -/
theorem Binding.map_eq_self {b : Binding α} (h : f b.body = b.body) : b.map f = b := by
  rw [Binding.map, h]

/-- A clause stays if its expression does. -/
theorem Clause.map_eq_self {c : Clause α} (h : f c.expr = c.expr) : c.map f = c := by
  cases c with
  | forIn name source => exact congrArg (Clause.forIn name) h
  | onlyIf condition => exact congrArg Clause.onlyIf h

/-- A selector stays if its index does; a name has none. -/
theorem Selector.map_eq_self {s : Selector α} (h : ∀ e ∈ s.children, f e = e) : s.map f = s := by
  cases s with
  | expr index => exact congrArg Selector.expr (h index (by simp [Selector.children]))
  | field name => rfl

/-- A key stays if the expression in it does. -/
theorem FieldKey.map_eq_self {k : FieldKey α} (h : ∀ e ∈ k.children, f e = e) : k.map f = k := by
  cases k with
  | identifier name => rfl
  | string literal => exact congrArg FieldKey.string (h literal (by simp [FieldKey.children]))
  | computed key => exact congrArg FieldKey.computed (h key (by simp [FieldKey.children]))

/-- A member stays if the expressions in it do. -/
theorem Member.map_eq_self {m : Member α} (h : ∀ e ∈ m.children, f e = e) : m.map f = m := by
  cases m with
  | assertion condition message =>
    simp only [Member.children, List.forall_mem_cons] at h
    rw [Member.map, h.1, map_option_eq_self h.2]
  | field content =>
    simp only [Member.children, Field.children, List.forall_mem_append,
      List.forall_mem_singleton] at h
    rw [Member.map, Field.map, FieldKey.map_eq_self h.1, h.2]
  | binding content =>
    simp only [Member.children, List.forall_mem_singleton] at h
    rw [Member.map, Binding.map_eq_self h]

/-- The members of an object stay if the expressions in them do. -/
theorem map_members_eq_self {members : List (Member α)}
    (h : ∀ e ∈ members.flatMap Member.children, f e = e) :
    members.map (Member.map f) = members := by
  refine map_eq_self_of_mem fun m hm => Member.map_eq_self fun e he => h e ?_
  exact List.mem_flatMap.mpr ⟨m, hm, he⟩

/-- Clauses stay if their expressions do. -/
theorem map_clauses_eq_self {clauses : List (Clause α)}
    (h : ∀ e ∈ clauses.map Clause.expr, f e = e) :
    clauses.map (Clause.map f) = clauses :=
  map_eq_self_of_mem fun _ hc => Clause.map_eq_self (h _ (List.mem_map_of_mem hc))

/-- A shape stays if its sub-expressions do. -/
theorem Shape.map_eq_self {s : Shape α} (h : ∀ e ∈ s.children, f e = e) : s.map f = s := by
  -- One case for each shape with parts that are no expressions; the others are of expressions only.
  cases s with
  | assert condition message rest =>
    simp only [children, List.forall_mem_append, List.forall_mem_cons] at h
    rw [map, h.1.1, map_option_eq_self h.1.2, h.2.1]
  | conditional condition whenTrue whenFalse =>
    simp only [children, List.forall_mem_cons] at h
    rw [map, h.1, h.2.1, map_option_eq_self h.2.2]
  | «local» bindings body =>
    simp only [children, List.forall_mem_append, List.forall_mem_singleton] at h
    rw [map, map_eq_self_of_mem fun b hb => Binding.map_eq_self (h.1 _ (List.mem_map_of_mem hb)),
      h.2]
  | object members trailingComma =>
    rw [map, map_members_eq_self h]
  | objectComp members trailingComma clauses =>
    simp only [children, List.forall_mem_append] at h
    rw [map, map_members_eq_self h.1, map_clauses_eq_self h.2]
  | arrayComp body trailingComma clauses =>
    simp only [children, List.forall_mem_cons] at h
    rw [map, h.1, map_clauses_eq_self h.2]
  | apply target arguments trailingComma tailStrict =>
    simp only [children, List.forall_mem_cons] at h
    rw [map, h.1, map_eq_self_of_mem h.2]
  | array elements trailingComma =>
    rw [children] at h
    rw [map, map_eq_self_of_mem h]
  | index target selector =>
    simp only [children, List.forall_mem_cons] at h
    rw [map, h.1, Selector.map_eq_self h.2]
  | superIndex selector => rw [map, Selector.map_eq_self h]
  | _ => simp_all [children, map]

end MapEqSelf

/-! ## Trees -/

namespace Expr

/-- The tree with the span of every node changed by `f`. -/
def mapSpan (f : Span → Span) : Expr → Expr := fold fun span shape => .node (f span) shape

/-- At other places, a construct has sub-expressions at other places. -/
@[simp] theorem mapSpan_node (f : Span → Span) (span : Span) (shape : Shape Expr) :
    (node span shape).mapSpan f = .node (f span) (shape.map (mapSpan f)) := fold_node ..

/-- A tree at other places stands at the other place of the tree. -/
@[simp] theorem span_mapSpan (f : Span → Span) (e : Expr) : (e.mapSpan f).span = f e.span := by
  obtain ⟨span, shape⟩ := e
  rw [mapSpan_node]
  rfl

/-- With every place unchanged, the tree is unchanged. -/
theorem mapSpan_id (e : Expr) : e.mapSpan id = e := by
  -- By induction over the tree: the sub-expressions stay, so the shape does.
  induction e using induction_on_children with
  | step e ih =>
    obtain ⟨span, shape⟩ := e
    have hshape : shape.map (mapSpan id) = shape := Shape.map_eq_self ih
    rw [mapSpan_node, hshape]
    rfl

/-- A variable at another place is the same variable. -/
@[simp] theorem identifier?_mapSpan (f : Span → Span) (e : Expr) :
    (e.mapSpan f).identifier? = e.identifier? := by
  obtain ⟨span, shape⟩ := e
  rw [mapSpan_node]
  cases shape <;> rfl

/-- A string at another place has the same value. -/
@[simp] theorem stringValue?_mapSpan (f : Span → Span) (e : Expr) :
    (e.mapSpan f).stringValue? = e.stringValue? := by
  obtain ⟨span, shape⟩ := e
  rw [mapSpan_node]
  cases shape <;> rfl

end Expr

/-- The same fault at a place changed by `f`. -/
def Error.mapSpan (f : Span → Span) (e : Error) : Error := ⟨e.fault, f e.span⟩

/-! ## Names and kinds -/

/-- A key at other places has the same name. -/
@[simp] theorem literalName?_map_mapSpan (f : Span → Span) (k : FieldKey Expr) :
    (k.map (Expr.mapSpan f)).literalName? = k.literalName? := by
  cases k with
  | string literal => exact literal.stringValue?_mapSpan f
  | _ => rfl

/-- A field at other places has the same name. -/
@[simp] theorem fieldName?_map_mapSpan (f : Span → Span) (m : Member Expr) :
    (m.map (Expr.mapSpan f)).fieldName? = m.fieldName? := by
  cases m with
  | field content => exact literalName?_map_mapSpan f content.key
  | _ => rfl

/-- The name of a local binding does not depend on its body. -/
@[simp] theorem localName?_map {f : Expr → Expr} (m : Member Expr) :
    (m.map f).localName? = m.localName? := by
  cases m <;> rfl

/-- Whether members are those of a comprehension does not depend on their sub-expressions. -/
theorem comprehensionFault?_map {α β : Type} (f : α → β) (members : List (Member α)) :
    comprehensionFault? (members.map (Member.map f)) = comprehensionFault? members := by
  -- The rule counts assertions and fields, and the map keeps the kind of each member.
  have hassertion : (members.map (Member.map f)).any Member.isAssertion =
      members.any Member.isAssertion := by
    rw [List.any_map]
    congr 1
    funext m
    cases m <;> rfl
  have hfields : (members.map (Member.map f)).filterMap Member.field? =
      (members.filterMap Member.field?).map (Field.map f) := by
    rw [List.filterMap_map, List.map_filterMap]
    congr 1
    funext m
    cases m <;> rfl
  have hkey : ∀ k : FieldKey α, (k.map f).isComputed = k.isComputed := by
    intro k
    cases k <;> rfl
  unfold comprehensionFault?
  rw [hassertion, hfields]
  -- Only the one field of a comprehension is looked into, for its visibility and its key.
  cases members.filterMap Member.field? with
  | nil => rfl
  | cons first others =>
    cases others with
    | nil => simp [Field.map, hkey]
    | cons second others => rfl

end JsonnetSyntax
