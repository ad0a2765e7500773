import Mathlib.Data.List.Forall2
import JsonnetSyntax.Expr.Dump
import JsonnetSyntax.Proofs.Diagnostic.SpanText
import JsonnetSyntax.Proofs.Grammar.AcceptedTrees
import JsonnetSyntax.Proofs.Grammar.Ranges

/-!
# Nothing is lost in a dump

The dump of a tree determines the tree.  The name of a construct is one of the fields of its object,
and constructs of one name have the same fields, from which the parts of the construct can be told;
the place of a node is known by its text.  The value of a number is not needed for that: it follows
from its spelling, which is dumped as well.

Dumps are compared as JSON values are: the order of the fields of an object does not matter.

## Key results

- `Json.Same.values`: objects with the same keys have the same values
- `Member.eq_of_same`, `Shape.eq_of_same`: the parts of a construct
- `Expr.told_of_grounded`: trees whose spans are set and whose numbers have the values of their
  spellings
- `toJson_same_iff`: the dumps of two sources are the same only if their trees are
-/

namespace JsonnetSyntax

/-! ## JSON values that are the same -/

/-- The values are the same.  Objects are if they have the same value for every key. -/
inductive Json.Same : Json → Json → Prop where
  | null : Same .null .null
  | bool (value : Bool) : Same (.bool value) (.bool value)
  | number (literal : String) : Same (.number literal) (.number literal)
  | string (value : String) : Same (.string value) (.string value)
  | array {items items' : List Json} (h : List.Forall₂ Same items items') :
    Same (.array items) (.array items')
  | object {fields fields' : List (String × Json)}
    (h : ∀ key, Option.Rel Same (fields.lookup key) (fields'.lookup key)) :
    Same (.object fields) (.object fields')

namespace Json

mutual

/-- Every value is the same as itself. -/
theorem Same.refl : (value : Json) → value.Same value
  | .null => .null
  | .bool value => .bool value
  | .number literal => .number literal
  | .string value => .string value
  | .array items => .array (sameItems_refl items)
  | .object fields => .object (sameFields_refl fields)

/-- The items of a list are the same as themselves. -/
theorem sameItems_refl : (items : List Json) → List.Forall₂ Same items items
  | [] => .nil
  | item :: items => .cons (Same.refl item) (sameItems_refl items)

/-- An object has the same value for every key as itself. -/
theorem sameFields_refl : (fields : List (String × Json)) → (key : String) →
    Option.Rel Same (fields.lookup key) (fields.lookup key)
  | [], _ => .none
  | (name, value) :: fields, key => by
    rw [List.lookup_cons]
    split
    · exact .some (Same.refl value)
    · exact sameFields_refl fields key

end

/-- Boolean values are the same if they are equal. -/
@[simp] theorem same_bool {value value' : Bool} :
    (Json.bool value).Same (.bool value') ↔ value = value' := by
  constructor
  · intro h
    cases h
    rfl
  · intro h
    cases h
    exact .bool value

/-- Texts are the same if they are equal. -/
@[simp] theorem same_string {value value' : String} :
    (Json.string value).Same (.string value') ↔ value = value' := by
  constructor
  · intro h
    cases h
    rfl
  · intro h
    cases h
    exact .string value

/-- Lists are the same if their items are, one by one. -/
@[simp] theorem same_array {items items' : List Json} :
    (Json.array items).Same (.array items') ↔ List.Forall₂ Same items items' := by
  constructor
  · intro h
    cases h with
    | array h => exact h
  · exact .array

/-- Objects that are the same have the same value for a key. -/
theorem Same.field {fields fields' : List (String × Json)}
    (h : (Json.object fields).Same (.object fields')) (key : String) :
    Option.Rel Same (fields.lookup key) (fields'.lookup key) := by
  cases h with
  | object h => exact h key

/-- No value is found for a key that is not there. -/
theorem lookup_eq_none {fields : List (String × Json)} {key : String}
    (h : key ∉ fields.map Prod.fst) :
    fields.lookup key = none := by
  rw [List.lookup_eq_none_iff]
  intro field hfield
  rw [bne_iff_ne]
  intro heq
  exact h (heq ▸ List.mem_map_of_mem hfield)

/-- Objects that are the same and have the same keys have the same values. -/
theorem Same.values {fields fields' : List (String × Json)}
    (h : (Json.object fields).Same (.object fields'))
    (hkeys : fields.map Prod.fst = fields'.map Prod.fst) (hnodup : (fields.map Prod.fst).Nodup) :
    List.Forall₂ Same (fields.map Prod.snd) (fields'.map Prod.snd) := by
  -- The lookups are kept for the tails as well, where the first key is not found.
  have hlookup := h.field
  clear h
  induction fields generalizing fields' with
  | nil =>
    cases List.map_eq_nil_iff.mp hkeys.symm
    exact .nil
  | cons first fields ih =>
    obtain ⟨key, value⟩ := first
    cases fields' with
    | nil => cases hkeys
    | cons first' fields' =>
      obtain ⟨key', value'⟩ := first'
      obtain ⟨hkey, htail⟩ := List.cons.inj hkeys
      obtain rfl : key = key' := hkey
      obtain ⟨hfresh, hnodup⟩ := List.nodup_cons.mp hnodup
      refine .cons ?_ (ih htail hnodup fun other => ?_)
      · simpa using hlookup key
      · by_cases hother : other = key
        · -- The first key does not come again on either side.
          rw [hother, lookup_eq_none hfresh, lookup_eq_none (htail ▸ hfresh)]
          exact .none
        · have hrest := hlookup other
          rw [List.lookup_cons, List.lookup_cons] at hrest
          simpa [beq_false_of_ne hother] using hrest

/-- The items of lists that are the same, if each item is told by its value. -/
theorem eq_of_same_items {α : Type} {f : α → Json} {items items' : List α}
    (h : List.Forall₂ Same (items.map f) (items'.map f))
    (hitem : ∀ x ∈ items, ∀ y ∈ items', (f x).Same (f y) → x = y) : items = items' := by
  -- The items are compared one by one, from the first to the last.
  rw [List.forall₂_map_left_iff, List.forall₂_map_right_iff] at h
  induction h with
  | nil => rfl
  | cons hfirst _ ih =>
    rw [hitem _ (by simp) _ (by simp) hfirst,
      ih fun x hx y hy => hitem x (by simp [hx]) y (by simp [hy])]

/-- A part that may be absent, if its value is never null. -/
theorem eq_of_same_ofOption {α : Type} {f : α → Json} {part part' : Option α}
    (hnull : ∀ x, f x ≠ .null) (h : (ofOption f part).Same (ofOption f part'))
    (hpart : ∀ x ∈ part, ∀ y ∈ part', (f x).Same (f y) → x = y) : part = part' := by
  cases part with
  | none =>
    cases part' with
    | none => rfl
    | some y =>
      -- The value of a part that is there would have to be null.
      have hsome : Json.null.Same (f y) := h
      generalize hy : f y = value at hsome
      cases hsome
      exact absurd hy (hnull y)
  | some x =>
    cases part' with
    | none =>
      have hsome : (f x).Same .null := h
      generalize hx : f x = value at hsome
      cases hsome
      exact absurd hx (hnull x)
    | some y => exact congrArg some (hpart x rfl y rfl h)

/-- Lists of texts are told by their dumps. -/
theorem eq_of_same_ofStrings {items items' : List String}
    (h : (ofStrings items).Same (ofStrings items')) :
    items = items' :=
  eq_of_same_items (same_array.mp h) fun _ _ _ _ => same_string.mp

end Json

/-! ## Names -/

/-- Unary operators have different names. -/
theorem UnaryOp.eq_of_name_eq {op op' : UnaryOp} (h : op.name = op'.name) : op = op' := by
  cases op <;> cases op' <;> first | rfl | exact absurd h (by decide)

/-- Binary operators have different names. -/
theorem BinaryOp.eq_of_name_eq {op op' : BinaryOp} (h : op.name = op'.name) : op = op' := by
  cases op <;> cases op' <;> first | rfl | exact absurd h (by decide)

/-- Visibilities have different names. -/
theorem Visibility.eq_of_name_eq {v v' : Visibility} (h : v.name = v'.name) : v = v' := by
  cases v <;> cases v' <;> first | rfl | exact absurd h (by decide)

/-- Forms of strings have different names. -/
theorem StringForm.eq_of_name_eq {form form' : StringForm} (h : form.name = form'.name) :
    form = form' := by
  cases form <;> cases form' <;> first | rfl | exact absurd h (by decide)

/-! ## Parts of constructs -/

/-- The dump tells the two expressions apart, if they are different. -/
def Expr.Told (e e' : Expr) : Prop := e.toJson.Same e'.toJson → e = e'

/-- A node is dumped from the dumps of its sub-expressions. -/
theorem Expr.toJson_node (span : Span) (shape : Shape Expr) :
    (Expr.node span shape).toJson = (shape.map Expr.toJson).toJson span := Expr.fold_node ..

/-- No expression is dumped as null. -/
theorem Expr.toJson_ne_null (e : Expr) : e.toJson ≠ .null := by
  obtain ⟨span, shape⟩ := e
  rw [toJson_node, Shape.toJson]
  simp

/-- Parameters are told by their names and by the comma behind them. -/
theorem Parameters.eq_of_same {p p' : Parameters} (h : p.toJson.Same p'.toJson) : p = p' := by
  -- The two objects have the same keys, so their values can be compared in order.
  have hvalues := h.values rfl (by simp)
  simp only [List.map_cons, List.map_nil, List.forall₂_cons, Json.same_bool] at hvalues
  obtain ⟨hnames, hcomma, -⟩ := hvalues
  cases p
  cases p'
  cases Json.eq_of_same_ofStrings hnames
  cases hcomma
  rfl

/-- Parameters that may be missing are told by their dumps. -/
theorem eq_of_same_parameters {p p' : Option Parameters}
    (h : (Json.ofOption Parameters.toJson p).Same (.ofOption Parameters.toJson p')) : p = p' :=
  Json.eq_of_same_ofOption (fun _ => by simp [Parameters.toJson]) h fun _ _ _ _ =>
    Parameters.eq_of_same

/-- An expression that may be missing is told by its dump, if it is told where it is there. -/
theorem eq_of_same_message {message message' : Option Expr}
    (h : (Json.ofOption id (message.map Expr.toJson)).Same
      (.ofOption id (message'.map Expr.toJson)))
    (htold : ∀ e ∈ message.toList, ∀ e' ∈ message'.toList, e.Told e') : message = message' := by
  have hparts : (Json.ofOption Expr.toJson message).Same (.ofOption Expr.toJson message') := by
    cases message <;> cases message' <;> exact h
  exact Json.eq_of_same_ofOption Expr.toJson_ne_null hparts fun e he e' he' =>
    htold e (by simpa using he) e' (by simpa using he')

/-- A binding is told by its name, its parameters and its body. -/
theorem Binding.eq_of_same {b b' : Binding Expr} (htold : b.body.Told b'.body)
    (h : (b.map Expr.toJson).toJson.Same (b'.map Expr.toJson).toJson) : b = b' := by
  have hvalues := h.values rfl (by simp)
  simp only [Binding.map, List.map_cons, List.map_nil, List.forall₂_cons,
    Json.same_string] at hvalues
  obtain ⟨hname, hbody, hparameters, -⟩ := hvalues
  obtain ⟨name, body, parameters⟩ := b
  obtain ⟨name', body', parameters'⟩ := b'
  cases hname
  cases htold hbody
  cases eq_of_same_parameters hparameters
  rfl

/-- A clause is told by its kind and its parts. -/
theorem Clause.eq_of_same {c c' : Clause Expr} (htold : c.expr.Told c'.expr)
    (h : (c.map Expr.toJson).toJson.Same (c'.map Expr.toJson).toJson) : c = c' := by
  cases c with
  | forIn name source =>
    cases c' with
    | forIn name' source' =>
      have hvalues := h.values rfl (by simp)
      simp only [List.map_cons, List.map_nil, List.forall₂_cons, Json.same_string] at hvalues
      obtain ⟨-, rfl, hsource, -⟩ := hvalues
      exact congrArg (Clause.forIn name) (htold hsource)
    -- The kinds of the two clauses are different texts.
    | onlyIf => simpa [Clause.map, Clause.toJson] using h.field "kind"
  | onlyIf condition =>
    cases c' with
    | forIn => simpa [Clause.map, Clause.toJson] using h.field "kind"
    | onlyIf condition' =>
      have hvalues := h.values rfl (by simp)
      simp only [List.map_cons, List.map_nil, List.forall₂_cons] at hvalues
      exact congrArg Clause.onlyIf (htold hvalues.2.1)

/-- A selector is told by its key and its index or name. -/
theorem Selector.eq_of_same {s s' : Selector Expr}
    (htold : ∀ e ∈ s.children, ∀ e' ∈ s'.children, e.Told e')
    (h : (s.map Expr.toJson).toJson.Same (s'.map Expr.toJson).toJson) : s = s' := by
  cases s with
  | expr index =>
    cases s' with
    | expr index' =>
      have hvalues := h.values rfl (by simp)
      simp only [List.map_cons, List.map_nil, List.forall₂_cons] at hvalues
      exact congrArg Selector.expr
        (htold index (by simp [children]) index' (by simp [children]) hvalues.1)
    -- The other selector has no value for this key.
    | field => cases h.field "expr"
  | field name =>
    cases s' with
    | expr => cases h.field "expr"
    | field name' =>
      have hvalues := h.values rfl (by simp)
      simp only [List.map_cons, List.map_nil, List.forall₂_cons, Json.same_string] at hvalues
      exact congrArg Selector.field hvalues.1

/-- A key is told by the key that its dump has, and by the value there. -/
theorem FieldKey.eq_of_same {k k' : FieldKey Expr}
    (htold : ∀ e ∈ k.children, ∀ e' ∈ k'.children, e.Told e')
    (h : (k.map Expr.toJson).toJson.Same (k'.map Expr.toJson).toJson) : k = k' := by
  cases k with
  | identifier name =>
    cases k' with
    | identifier name' =>
      have hvalues := h.values rfl (by simp)
      simp only [List.map_cons, List.map_nil, List.forall₂_cons, Json.same_string] at hvalues
      exact congrArg FieldKey.identifier hvalues.1
    | string => cases h.field "Identifier"
    | computed => cases h.field "Identifier"
  | string literal =>
    cases k' with
    | identifier => cases h.field "String"
    | string literal' =>
      have hvalues := h.values rfl (by simp)
      simp only [List.map_cons, List.map_nil, List.forall₂_cons] at hvalues
      exact congrArg FieldKey.string
        (htold literal (by simp [children]) literal' (by simp [children]) hvalues.1)
    | computed => cases h.field "String"
  | computed key =>
    cases k' with
    | identifier => cases h.field "Computed"
    | string => cases h.field "Computed"
    | computed key' =>
      have hvalues := h.values rfl (by simp)
      simp only [List.map_cons, List.map_nil, List.forall₂_cons] at hvalues
      exact congrArg FieldKey.computed
        (htold key (by simp [children]) key' (by simp [children]) hvalues.1)

/-- A member of an object is told by its kind and its parts. -/
theorem Member.eq_of_same {m m' : Member Expr}
    (htold : ∀ e ∈ m.children, ∀ e' ∈ m'.children, e.Told e')
    (h : (m.map Expr.toJson).toJson.Same (m'.map Expr.toJson).toJson) : m = m' := by
  -- Members of different kinds are told apart by the field `kind`.
  cases m with
  | assertion condition message =>
    cases m' with
    | assertion condition' message' =>
      have hvalues := h.values rfl (by simp)
      simp only [List.map_cons, List.map_nil, List.forall₂_cons] at hvalues
      obtain ⟨-, hcondition, hmessage, -⟩ := hvalues
      simp only [children, List.forall_mem_cons] at htold
      cases htold.1.1 hcondition
      cases eq_of_same_message hmessage fun e he e' he' => (htold.2 e he).2 e' he'
      rfl
    | field => simpa [map, toJson] using h.field "kind"
    | binding => simpa [map, toJson] using h.field "kind"
  | field f =>
    cases m' with
    | assertion => simpa [map, toJson] using h.field "kind"
    | field f' =>
      have hvalues := h.values rfl (by simp)
      simp only [List.map_cons, List.map_nil, List.forall₂_cons, Json.same_string,
        Json.same_bool] at hvalues
      obtain ⟨-, hkey, hvisibility, hplus, hmethod, hbody, -⟩ := hvalues
      have hkey := FieldKey.eq_of_same (fun e he e' he' =>
        htold e (List.mem_append_left _ he) e' (List.mem_append_left _ he')) hkey
      have hbody := htold f.body (by simp [children, Field.children]) f'.body
        (by simp [children, Field.children]) hbody
      obtain ⟨key, visibility, plus, method, body⟩ := f
      obtain ⟨key', visibility', plus', method', body'⟩ := f'
      cases hkey
      cases Visibility.eq_of_name_eq hvisibility
      cases hplus
      cases eq_of_same_parameters hmethod
      cases hbody
      rfl
    | binding => simpa [map, toJson] using h.field "kind"
  | binding b =>
    cases m' with
    | assertion => simpa [map, toJson] using h.field "kind"
    | field => simpa [map, toJson] using h.field "kind"
    | binding b' =>
      have hvalues := h.values rfl (by simp)
      simp only [List.map_cons, List.map_nil, List.forall₂_cons] at hvalues
      exact congrArg Member.binding (Binding.eq_of_same (htold b.body (by simp [children]) b'.body
        (by simp [children])) hvalues.2.1)

/-- Expressions in a list are told by their dumps if each of them is. -/
theorem eq_of_same_exprs {exprs exprs' : List Expr}
    (h : (Json.array (exprs.map Expr.toJson)).Same (.array (exprs'.map Expr.toJson)))
    (htold : ∀ e ∈ exprs, ∀ e' ∈ exprs', e.Told e') : exprs = exprs' :=
  Json.eq_of_same_items (Json.same_array.mp h) htold

/-- Clauses in a list are told by their dumps if their expressions are. -/
theorem eq_of_same_clauses {clauses clauses' : List (Clause Expr)}
    (h : (Json.array ((clauses.map (Clause.map Expr.toJson)).map Clause.toJson)).Same
      (.array ((clauses'.map (Clause.map Expr.toJson)).map Clause.toJson)))
    (htold : ∀ e ∈ clauses.map Clause.expr, ∀ e' ∈ clauses'.map Clause.expr, e.Told e') :
    clauses = clauses' := by
  rw [Json.same_array, List.map_map, List.map_map] at h
  exact Json.eq_of_same_items h fun c hc c' hc' =>
    Clause.eq_of_same (htold _ (List.mem_map_of_mem hc) _ (List.mem_map_of_mem hc'))

/-- Bindings in a list are told by their dumps if their bodies are. -/
theorem eq_of_same_bindings {bindings bindings' : List (Binding Expr)}
    (h : (Json.array ((bindings.map (Binding.map Expr.toJson)).map Binding.toJson)).Same
      (.array ((bindings'.map (Binding.map Expr.toJson)).map Binding.toJson)))
    (htold : ∀ e ∈ bindings.map Binding.body, ∀ e' ∈ bindings'.map Binding.body, e.Told e') :
    bindings = bindings' := by
  rw [Json.same_array, List.map_map, List.map_map] at h
  exact Json.eq_of_same_items h fun b hb b' hb' =>
    Binding.eq_of_same (htold _ (List.mem_map_of_mem hb) _ (List.mem_map_of_mem hb'))

/-- Members in a list are told by their dumps if their expressions are. -/
theorem eq_of_same_members {members members' : List (Member Expr)}
    (h : (Json.array ((members.map (Member.map Expr.toJson)).map Member.toJson)).Same
      (.array ((members'.map (Member.map Expr.toJson)).map Member.toJson)))
    (htold : ∀ e ∈ members.flatMap Member.children, ∀ e' ∈ members'.flatMap Member.children,
      e.Told e') :
    members = members' := by
  rw [Json.same_array, List.map_map, List.map_map] at h
  exact Json.eq_of_same_items h fun m hm m' hm' => Member.eq_of_same fun e he e' he' =>
    htold e (List.mem_flatMap.mpr ⟨m, hm, he⟩) e' (List.mem_flatMap.mpr ⟨m', hm', he'⟩)

/-! ## Constructs -/

namespace Shape

/-- No construct has two parts with the same key, and none has one of the two common keys. -/
theorem nodup_keys (s : Shape Json) : ("location" :: "type" :: s.parts.map Prod.fst).Nodup := by
  cases s <;> simp [parts]

/-- The place and the name of a construct are told by its dump. -/
theorem render_eq_of_same {span span' : Span} {s s' : Shape Json}
    (h : (s.toJson span).Same (s'.toJson span')) :
    span.render = span'.render ∧ s.name = s'.name := by
  constructor
  · simpa using h.field "location"
  · simpa [List.lookup_cons] using h.field "type"

/-- So are the values of its parts, if these have the same keys. -/
theorem values_of_same {span span' : Span} {s s' : Shape Json}
    (h : (s.toJson span).Same (s'.toJson span'))
    -- The keys common to all constructs stand in front and fall away.
    (hkeys : s.parts.map Prod.fst = s'.parts.map Prod.fst) :
    List.Forall₂ Json.Same (s.parts.map Prod.snd) (s'.parts.map Prod.snd) := by
  have hvalues := h.values (by simp [hkeys]) (by simpa using s.nodup_keys)
  simp only [List.map_cons, List.forall₂_cons] at hvalues
  exact hvalues.2.2

/-! ### Constructs of several parts

Each of these constructs is told by the values of its parts, given that its sub-expressions are. -/

section Parts

variable {e₁ e₁' e₂ e₂' : Expr} {o o' : Option Expr} {exprs exprs' : List Expr}
  {comma strict : Bool}
  {clauses clauses' : List (Clause Expr)} {bindings bindings' : List (Binding Expr)}
  {members members' : List (Member Expr)}

/-- A call: its target and its arguments. -/
theorem apply_eq_of_same
    (htold : ∀ e ∈ (apply e₁ exprs comma strict).children,
      ∀ e' ∈ (apply e₁' exprs' comma strict).children, e.Told e')
    (htarget : e₁.toJson.Same e₁'.toJson)
    (harguments : (Json.array (exprs.map Expr.toJson)).Same (.array (exprs'.map Expr.toJson))) :
    apply e₁ exprs comma strict = apply e₁' exprs' comma strict := by
  cases htold e₁ (by simp [children]) e₁' (by simp [children]) htarget
  cases eq_of_same_exprs harguments fun e he e' he' =>
    htold e (by simp [children, he]) e' (by simp [children, he'])
  rfl

/-- An array comprehension: its body and its clauses. -/
theorem arrayComp_eq_of_same
    (htold : ∀ e ∈ (arrayComp e₁ comma clauses).children,
      ∀ e' ∈ (arrayComp e₁' comma clauses').children, e.Told e')
    (hbody : e₁.toJson.Same e₁'.toJson)
    (hclauses : (Json.array ((clauses.map (Clause.map Expr.toJson)).map Clause.toJson)).Same
      (.array ((clauses'.map (Clause.map Expr.toJson)).map Clause.toJson))) :
    arrayComp e₁ comma clauses = arrayComp e₁' comma clauses' := by
  cases htold e₁ (by simp [children]) e₁' (by simp [children]) hbody
  cases eq_of_same_clauses hclauses fun e he e' he' =>
    htold e (by simp [children, he]) e' (by simp [children, he'])
  rfl

/-- An assertion: its condition, its message if there is one, and the expression behind it. -/
theorem assert_eq_of_same
    (htold : ∀ e ∈ (assert e₁ o e₂).children, ∀ e' ∈ (assert e₁' o' e₂').children, e.Told e')
    (hcondition : e₁.toJson.Same e₁'.toJson)
    (hmessage : (Json.ofOption id (o.map Expr.toJson)).Same (.ofOption id (o'.map Expr.toJson)))
    (hrest : e₂.toJson.Same e₂'.toJson) : assert e₁ o e₂ = assert e₁' o' e₂' := by
  cases htold e₁ (by simp [children]) e₁' (by simp [children]) hcondition
  cases eq_of_same_message hmessage fun e he e' he' =>
    htold e (by simp [children, he]) e' (by simp [children, he'])
  cases htold e₂ (by simp [children]) e₂' (by simp [children]) hrest
  rfl

/-- A conditional: its condition, its first branch, and the second one if there is one. -/
theorem conditional_eq_of_same
    (htold : ∀ e ∈ (conditional e₁ e₂ o).children, ∀ e' ∈ (conditional e₁' e₂' o').children,
      e.Told e')
    (hcondition : e₁.toJson.Same e₁'.toJson) (hwhenTrue : e₂.toJson.Same e₂'.toJson)
    (hwhenFalse : (Json.ofOption id (o.map Expr.toJson)).Same (.ofOption id (o'.map Expr.toJson))) :
    conditional e₁ e₂ o = conditional e₁' e₂' o' := by
  cases htold e₁ (by simp [children]) e₁' (by simp [children]) hcondition
  cases htold e₂ (by simp [children]) e₂' (by simp [children]) hwhenTrue
  cases eq_of_same_message hwhenFalse fun e he e' he' =>
    htold e (by simp [children, he]) e' (by simp [children, he'])
  rfl

/-- Local bindings: the bindings and the expression behind them. -/
theorem local_eq_of_same
    (htold : ∀ e ∈ (Shape.local bindings e₁).children, ∀ e' ∈ (Shape.local bindings' e₁').children,
      e.Told e')
    (hbindings : (Json.array ((bindings.map (Binding.map Expr.toJson)).map Binding.toJson)).Same
      (.array ((bindings'.map (Binding.map Expr.toJson)).map Binding.toJson)))
    (hbody : e₁.toJson.Same e₁'.toJson) : Shape.local bindings e₁ = .local bindings' e₁' := by
  cases eq_of_same_bindings hbindings fun e he e' he' =>
    htold e (by simp [children, he]) e' (by simp [children, he'])
  cases htold e₁ (by simp [children]) e₁' (by simp [children]) hbody
  rfl

/-- An object comprehension: its members and its clauses. -/
theorem objectComp_eq_of_same
    (htold : ∀ e ∈ (objectComp members comma clauses).children,
      ∀ e' ∈ (objectComp members' comma clauses').children, e.Told e')
    (hmembers : (Json.array ((members.map (Member.map Expr.toJson)).map Member.toJson)).Same
      (.array ((members'.map (Member.map Expr.toJson)).map Member.toJson)))
    (hclauses : (Json.array ((clauses.map (Clause.map Expr.toJson)).map Clause.toJson)).Same
      (.array ((clauses'.map (Clause.map Expr.toJson)).map Clause.toJson))) :
    objectComp members comma clauses = objectComp members' comma clauses' := by
  cases eq_of_same_members hmembers fun e he e' he' =>
    htold e (by simp [children, he]) e' (by simp [children, he'])
  cases eq_of_same_clauses hclauses fun e he e' he' =>
    htold e (by simp [children, he]) e' (by simp [children, he'])
  rfl

end Parts

/-- A construct is told by its dump if its sub-expressions are and numbers have the values of their
    spellings. -/
theorem eq_of_same {span span' : Span} {s s' : Shape Expr} (hwf : s.WellFormed)
    (hwf' : s'.WellFormed) (htold : ∀ e ∈ s.children, ∀ e' ∈ s'.children, e.Told e')
    (h : ((s.map Expr.toJson).toJson span).Same ((s'.map Expr.toJson).toJson span')) : s = s' := by
  have hname : s.name = s'.name := by simpa using (render_eq_of_same h).2
  -- Constructs of different names are told apart by the field `type`.
  cases s <;> cases s' <;> try (simp [name] at hname; done)
  case dollar.dollar => rfl
  case null.null => rfl
  case self.self => rfl
  -- Constructs of one name have the same keys.
  all_goals
    have hvalues := values_of_same h rfl
    simp only [parts, map, List.map_cons, List.map_nil, List.forall₂_cons, Json.same_bool,
      Json.same_string] at hvalues
  case apply.apply target arguments comma tailStrict target' arguments' comma' tailStrict' =>
    obtain ⟨htarget, harguments, rfl, rfl, -⟩ := hvalues
    exact apply_eq_of_same htold htarget harguments
  case applyBrace.applyBrace left right left' right' =>
    obtain ⟨hleft, hright, -⟩ := hvalues
    cases htold left (by simp [children]) left' (by simp [children]) hleft
    cases htold right (by simp [children]) right' (by simp [children]) hright
    rfl
  case array.array elements comma elements' comma' =>
    obtain ⟨helements, rfl, -⟩ := hvalues
    cases eq_of_same_exprs helements fun e he e' he' =>
      htold e (by simp [children, he]) e' (by simp [children, he'])
    rfl
  case arrayComp.arrayComp body comma clauses body' comma' clauses' =>
    obtain ⟨hbody, rfl, hclauses, -⟩ := hvalues
    exact arrayComp_eq_of_same htold hbody hclauses
  case assert.assert condition message rest condition' message' rest' =>
    obtain ⟨hcondition, hmessage, hrest, -⟩ := hvalues
    exact assert_eq_of_same htold hcondition hmessage hrest
  case binary.binary left op right left' op' right' =>
    obtain ⟨hleft, hop, hright, -⟩ := hvalues
    cases htold left (by simp [children]) left' (by simp [children]) hleft
    cases BinaryOp.eq_of_name_eq hop
    cases htold right (by simp [children]) right' (by simp [children]) hright
    rfl
  case conditional.conditional condition whenTrue whenFalse condition' whenTrue' whenFalse' =>
    obtain ⟨hcondition, hwhenTrue, hwhenFalse, -⟩ := hvalues
    exact conditional_eq_of_same htold hcondition hwhenTrue hwhenFalse
  case error.error message message' =>
    obtain ⟨hmessage, -⟩ := hvalues
    cases htold message (by simp [children]) message' (by simp [children]) hmessage
    rfl
  case function.function parameters body parameters' body' =>
    obtain ⟨hparameters, hbody, -⟩ := hvalues
    cases Parameters.eq_of_same hparameters
    cases htold body (by simp [children]) body' (by simp [children]) hbody
    rfl
  case import.import file file' =>
    obtain ⟨rfl, -⟩ := hvalues
    rfl
  case importstr.importstr file file' =>
    obtain ⟨rfl, -⟩ := hvalues
    rfl
  case index.index target selector target' selector' =>
    obtain ⟨htarget, hselector, -⟩ := hvalues
    cases htold target (by simp [children]) target' (by simp [children]) htarget
    cases Selector.eq_of_same (fun e he e' he' =>
      htold e (by simp [children, he]) e' (by simp [children, he'])) hselector
    rfl
  case boolean.boolean value value' =>
    obtain ⟨rfl, -⟩ := hvalues
    rfl
  case number.number value spelling value' spelling' =>
    obtain ⟨-, rfl, -⟩ := hvalues
    -- The value may be dumped as null, but it follows from the spelling.
    cases hwf.symm.trans hwf'
    rfl
  case string.string value form indent value' form' indent' =>
    obtain ⟨rfl, hform, hindent, -⟩ := hvalues
    cases StringForm.eq_of_name_eq hform
    cases Json.eq_of_same_ofOption (by simp) hindent fun _ _ _ _ => Json.same_string.mp
    rfl
  case local.local bindings body bindings' body' =>
    obtain ⟨hbindings, hbody, -⟩ := hvalues
    exact local_eq_of_same htold hbindings hbody
  case object.object members comma members' comma' =>
    obtain ⟨hmembers, rfl, -⟩ := hvalues
    cases eq_of_same_members hmembers fun e he e' he' =>
      htold e (by simp [children, he]) e' (by simp [children, he'])
    rfl
  case objectComp.objectComp members comma clauses members' comma' clauses' =>
    obtain ⟨hmembers, rfl, hclauses, -⟩ := hvalues
    exact objectComp_eq_of_same htold hmembers hclauses
  case superIndex.superIndex selector selector' =>
    obtain ⟨hselector, -⟩ := hvalues
    cases Selector.eq_of_same (fun e he e' he' =>
      htold e (by simp [children, he]) e' (by simp [children, he'])) hselector
    rfl
  case unary.unary op operand op' operand' =>
    obtain ⟨hop, hoperand, -⟩ := hvalues
    cases UnaryOp.eq_of_name_eq hop
    cases htold operand (by simp [children]) operand' (by simp [children]) hoperand
    rfl
  case var.var id spelling id' spelling' =>
    obtain ⟨rfl, rfl, -⟩ := hvalues
    rfl

end Shape

/-! ## Trees -/

/-- All nodes of the tree stand in a text, and the tree is well formed. -/
structure Expr.Grounded (root : Expr) : Prop where
  isSet : ∀ e : Expr, e.IsWithin root → e.span.isSet = true
  wellFormed : root.WellFormed

/-- A sub-expression of a grounded tree is grounded. -/
theorem Expr.Grounded.of_mem_children {root child : Expr} (h : root.Grounded)
    (hmem : child ∈ root.children) :
    child.Grounded :=
  ⟨fun e he => h.isSet e (.child hmem he), h.wellFormed.of_mem_children hmem⟩

/-- Such trees are told by their dumps. -/
theorem Expr.told_of_grounded {e e' : Expr} (he : e.Grounded) (he' : e'.Grounded) : e.Told e' := by
  intro h
  -- The induction is on the tree; the place and the shape of its root are told apart from its
  -- sub-expressions.
  induction e using Expr.induction_on_children generalizing e' with
  | step e ih =>
    have hset := he.isSet e (.refl e)
    have hset' := he'.isSet e' (.refl e')
    have htold : ∀ c ∈ e.children, ∀ c' ∈ e'.children, c.Told c' := fun c hc c' hc' =>
      ih c hc (he.of_mem_children hc) (he'.of_mem_children hc')
    have hwf := he.wellFormed.shape
    have hwf' := he'.wellFormed.shape
    obtain ⟨span, shape⟩ := e
    obtain ⟨span', shape'⟩ := e'
    rw [toJson_node, toJson_node] at h
    -- Two places that stand in a text are told by what is written for them.
    have hspan : span = span' := Span.eq_of_render_eq hset hset' (Shape.render_eq_of_same h).1
    have hshape : shape = shape' := Shape.eq_of_same hwf hwf' htold h
    rw [hspan, hshape]

/-- The tree of a source is grounded. -/
theorem grounded_of_parseSource {file source : String} {root : Expr}
    (h : parseSource file source = .ok root) :
    root.Grounded := by
  obtain ⟨tokens, hlex, hparse⟩ := exists_tokens_of_parseSource h
  have hexact := exact_of_lex hlex
  refine ⟨fun e he => ?_, Level.yields_upTo maxNesting (parse_eq_ok_iff.mp hparse)⟩
  obtain ⟨before, own, behind, htokens, hplaced⟩ := exists_placed_of_parse hparse he
  obtain ⟨first, hfirst, last, -, hspan⟩ := hplaced.covers.exists_mem
  -- A node starts where a token does, and a token of a source stands in its text.
  have hmem : first ∈ tokens := by
    refine (List.takeWhile_sublist _).subset (show first ∈ tokensAhead tokens from ?_)
    rw [htokens]
    simp [hfirst]
  obtain ⟨i, hi⟩ := List.mem_iff_getElem?.mp hmem
  rw [Span.isSet, hspan, Span.between_start, hexact i first hi]
  simp [Token.spanBehind, Position.isSet, Position.ofText]

/-- The dump of a source loses nothing: the dumps of two sources are the same, whatever the order of
    the fields in their objects, just if the trees are the same, with all names, values, spellings
    and places. -/
theorem toJson_same_iff {file file' source source' : String} {root root' : Expr}
    (h : parseSource file source = .ok root) (h' : parseSource file' source' = .ok root') :
    root.toJson.Same root'.toJson ↔ root = root' := by
  constructor
  · exact Expr.told_of_grounded (grounded_of_parseSource h) (grounded_of_parseSource h')
  · intro heq
    rw [heq]
    exact .refl _

/-- A number with a spelling. -/
def isSpelled (spelling : String) : Except Error Expr → Bool
  | .ok (.node _ (.number _ text)) => text == spelling
  | _ => false

/-- Two numbers that are too large for a value are both dumped with null, but told apart. -/
theorem toJson_same_iff_sample :
    ∃ root root',
      parseSource "sample" "1e999" = .ok root ∧ parseSource "sample" "2e999" = .ok root' ∧
      ¬ root.toJson.Same root'.toJson := by
  have hnumber : isSpelled "1e999" (parseSource "sample" "1e999") = true := by decide +kernel
  have hnumber' : isSpelled "2e999" (parseSource "sample" "2e999") = true := by decide +kernel
  unfold isSpelled at hnumber hnumber'
  split at hnumber
  · next span value text hparse =>
    split at hnumber'
    · next span' value' text' hparse' =>
      refine ⟨_, _, hparse, hparse', fun hsame => ?_⟩
      cases (toJson_same_iff hparse hparse').mp hsame
      rw [beq_iff_eq] at hnumber hnumber'
      exact absurd (hnumber.symm.trans hnumber') (by decide)
    · cases hnumber'
  · cases hnumber

end JsonnetSyntax
