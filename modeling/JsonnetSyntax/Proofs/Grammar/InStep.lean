import JsonnetSyntax.Proofs.Grammar.Lockstep
import JsonnetSyntax.Proofs.Grammar.Productions

/-!
# The grammar in step

Every rule of the grammar is in step with itself, under any `Comparison`: what it does next depends
on the kinds and texts of the tokens that it looks at, and each place in what it builds or reports
is copied from a token.  The lemmas follow the rules one by one, for rules `full` and `full'` for
sub-expressions that are in step.

## Key results

- `Rule.inStep_items`, `Rule.inStep_object`, `Rule.inStep_operand`: lists, objects and operands
- `Level.InStep.deepen`: one level of nesting
- `Level.inStep_upTo`, `Rule.inStep_program`: all levels, and whole programs
- `Outcome.Matches.result`: the results of two programs in step
-/

namespace JsonnetSyntax

/-- The list of the second run: its expressions stand at their places there, and so does its end. -/
structure CommaList.MovedBy (move : Span → Span) (list list' : CommaList) : Prop where
  exprs : list'.exprs = list.exprs.map (Expr.mapSpan move)
  trailingComma : list'.trailingComma = list.trailingComma
  closing : list.closing.MovedBy move list'.closing

namespace Rule

section Productions

variable {S σ : Type} [TokenSource S] {c : Comparison S} {full : Rule TokenStream Expr}
  {full' : Rule S Expr}

/-- A node whose place and sub-expressions are those of the second run. -/
theorem via_node {span span' : Span} {shape shape' : Shape Expr} (hspan : span' = c.move span)
    (hshape : shape' = shape.map c.expr) : Via c.expr (.node span shape) (.node span' shape') := by
  rw [Via, hspan, hshape]
  exact (Expr.mapSpan_node ..).symm

/-- A node that reaches from the place of its first part to that of its last. -/
theorem via_between {first first' last last' : Span} {shape shape' : Shape Expr}
    (hfirst : first' = c.move first) (hlast : last' = c.move last)
    (hshape : shape' = shape.map c.expr) :
    Via c.expr (.node (.between first last) shape) (.node (.between first' last') shape') := by
  refine via_node ?_ hshape
  rw [hfirst, hlast, c.move_between]

/-! ## Lists -/

/-- Behind a comma, both runs end the list or both read one more item. -/
theorem inStep_afterComma {f : σ → σ} {stops : TokenKind → Bool} {item : σ → Rule TokenStream σ}
    {item' : σ → Rule S σ}
    (hitem : ∀ state, (item state).InStep c (Via f) (item' (f state))) (state : σ) :
    (afterComma stops item state).InStep c (Via (Prod.map f id))
      (afterComma stops item' (f state)) := by
  -- Both runs stop at the same kind of token.
  refine inStep_peek.bind fun t u h => ?_
  rw [h.kind]
  split
  · exact .pure rfl
  · exact (hitem state).bind_via fun after => .pure rfl

/-- Both runs read equally many more items, with commas in front of them. -/
theorem inStep_moreItems {f : σ → σ} {stops : TokenKind → Bool} {item : σ → Rule TokenStream σ}
    {item' : σ → Rule S σ}
    (hitem : ∀ state, (item state).InStep c (Via f) (item' (f state))) (start : σ × Bool) :
    (moreItems stops item start).InStep c (Via (Prod.map f id))
      (moreItems stops item' (Prod.map f id start)) := by
  -- The states of the two loops correspond, so the state of the second is known from the first.
  refine .whileNext (fun _ _ h => comma?_of_kind h.kind) (fun t u _ state state' _ hstate => ?_) rfl
  rw [hstate]
  exact inStep_afterComma hitem state.1

/-- Lists are in step if their items are, from states that correspond. -/
theorem inStep_items {f : σ → σ} {stops : TokenKind → Bool} {item : σ → Rule TokenStream σ}
    {item' : σ → Rule S σ}
    (hitem : ∀ state, (item state).InStep c (Via f) (item' (f state))) {state state' : σ}
    (hstate : Via f state state') :
    (items stops item state).InStep c (Via (Prod.map f id)) (items stops item' state') := by
  refine inStep_peek.bind fun t u h => ?_
  rw [h.kind, hstate]
  split
  · exact .pure rfl
  · exact (hitem state).bind_via fun first => inStep_moreItems hitem (first, false)

/-- One more item. -/
theorem via_push {α : Type} {f : α → α} (items : Array α) {item item' : α} (h : Via f item item') :
    Via (Array.map f) (items.push item) ((items.map f).push item') := by
  rw [h]
  exact Array.map_push.symm

/-- No items correspond to no items. -/
theorem via_empty {α : Type} {f : α → α} : Via (Array.map f) #[] #[] := Array.map_empty.symm

/-- Reading one more element is in step. -/
theorem inStep_pushExpr (hfull : full.InStep c (Via c.expr) full') (exprs : Array Expr) :
    (pushExpr full exprs).InStep c (Via (Array.map c.expr)) (pushExpr full' (exprs.map c.expr)) :=
  hfull.bind_via fun _ => .pure (via_push _ rfl)

/-- A list ends at corresponding tokens, or is not closed at corresponding tokens. -/
theorem inStep_closeList {closing : Punct} {what : ListItem} (list : Array Expr × Bool) :
    (closeList closing what list).InStep c (CommaList.MovedBy c.move)
      (closeList closing what (Prod.map (Array.map c.expr) id list)) := by
  refine inStep_nextIs.bind_eq fun present => ?_
  split
  · exact inStep_pop.bind fun _ _ h => .pure ⟨Array.toList_map, rfl, h⟩
  · exact inStep_peek.bind fun _ _ h => .fail h.span

/-- Elements between commas, with the token that closes them, are in step. -/
theorem inStep_commaList (hfull : full.InStep c (Via c.expr) full') {closing : Punct}
    {what : ListItem} :
    (commaList full closing what).InStep c (CommaList.MovedBy c.move)
      (commaList full' closing what) :=
  (inStep_items (inStep_pushExpr hfull) via_empty).bind_via inStep_closeList

/-- The first expression that is no name is the same on both sides. -/
theorem find?_map_identifier? (exprs : List Expr) :
    (exprs.map c.expr).find? (fun e => e.identifier?.isNone) =
      -- Being a name is a matter of the shape, which moving keeps.
      (exprs.find? fun e => e.identifier?.isNone).map c.expr := by
  rw [List.find?_map]
  congr 2
  funext e
  exact congrArg Option.isNone (e.identifier?_mapSpan c.move)

/-- Parameters are in step; they are names only, so both runs find the same ones. -/
theorem inStep_parameters (hfull : full.InStep c (Via c.expr) full') {what : ListItem} :
    (parameters full what).InStep c Eq (parameters full' what) := by
  refine (inStep_commaList hfull).bind fun list list' hlist => ?_
  rw [hlist.exprs, hlist.trailingComma, find?_map_identifier?]
  -- The place of an expression that is no name is copied from it; names have no place.
  cases list.exprs.find? fun e => e.identifier?.isNone with
  | some e => exact .fail (e.span_mapSpan c.move)
  | none =>
    refine .pure ?_
    rw [List.filterMap_map]
    congr 2
    funext e
    exact (e.identifier?_mapSpan c.move).symm

/-- Parameters that may be missing are missing in both runs or in neither. -/
theorem inStep_optionalParameters (hfull : full.InStep c (Via c.expr) full') {what : ListItem} :
    (optionalParameters full what).InStep c Eq (optionalParameters full' what) := by
  refine inStep_accept.bind_eq fun present => ?_
  split
  · exact (inStep_parameters hfull).bind_eq fun _ => .pure rfl
  · exact .pure rfl

/-! ## Bindings and clauses -/

/-- A binding is in step, with the same name and parameters on both sides. -/
theorem inStep_binding (hfull : full.InStep c (Via c.expr) full') {taken : String → Bool} :
    (binding full taken).InStep c (Via (Binding.map c.expr)) (binding full' taken) := by
  refine inStep_expect.bind fun name name' hname => ?_
  rw [hname.data]
  -- A name that is taken is refused at its own token, so the places correspond.
  split
  · exact .fail hname.span
  · refine (inStep_optionalParameters hfull).bind_eq fun parameters => ?_
    exact inStep_expectOperator.bind fun _ _ _ => hfull.bind_via fun body => .pure rfl

/-- Names that are taken do not depend on places. -/
theorem any_map_beq {α : Type} {f : α → α} {name? : α → Option String}
    (h : ∀ item, name? (f item) = name? item) (items : Array α) (name : String) :
    ((items.map f).any fun item => name? item == some name) =
      items.any fun item => name? item == some name := by
  simp only [Array.any_map, Function.comp_def, h]

/-- One more binding is in step, behind bindings that correspond. -/
theorem inStep_pushBinding (hfull : full.InStep c (Via c.expr) full')
    {seen seen' : Array (Binding Expr)} (hseen : Via (Array.map (Binding.map c.expr)) seen seen') :
    (pushBinding full seen).InStep c (Via (Array.map (Binding.map c.expr)))
      (pushBinding full' seen') := by
  -- Names are not places, so both runs refuse the same names.
  have htaken : (fun name => (seen.map (Binding.map c.expr)).any fun b => b.name == name) =
      fun name => seen.any fun b => b.name == name := by
    funext name
    rw [Array.any_map]
    rfl
  unfold pushBinding
  rw [hseen, htaken]
  exact (inStep_binding hfull).bind_via fun _ => .pure (via_push _ rfl)

/-- The bindings of a local expression are in step. -/
theorem inStep_bindings (hfull : full.InStep c (Via c.expr) full') :
    (bindings full).InStep c (Via (List.map (Binding.map c.expr))) (bindings full') := by
  refine (inStep_pushBinding hfull via_empty).bind_via fun first => ?_
  exact InStep.bind_via (.whileNext (fun _ _ h => comma?_of_kind h.kind)
    (fun _ _ _ _ _ _ hseen => inStep_pushBinding hfull hseen) rfl) fun all => .pure Array.toList_map

/-- A `for` clause is in step. -/
theorem inStep_loopClause (hfull : full.InStep c (Via c.expr) full') :
    (loopClause full).InStep c (Via (Clause.map c.expr)) (loopClause full') := by
  refine inStep_expect.bind fun name name' hname => inStep_expect.bind fun _ _ _ => ?_
  rw [hname.data]
  exact hfull.bind_via fun source => .pure rfl

/-- A clause is in step, whichever keyword starts it. -/
theorem inStep_clause (hfull : full.InStep c (Via c.expr) full') (start : ClauseStart) :
    (clause full start).InStep c (Via (Clause.map c.expr)) (clause full' start) := by
  cases start with
  | loop => exact inStep_loopClause hfull
  | condition => exact hfull.bind_via fun _ => .pure rfl

/-- The clauses of a comprehension are in step, and end at corresponding tokens. -/
theorem inStep_clauses (hfull : full.InStep c (Via c.expr) full') {closing : Punct} :
    (clauses full closing).InStep c (Via (Prod.map (List.map (Clause.map c.expr)) c.move))
      (clauses full' closing) := by
  refine (inStep_loopClause hfull).bind_via fun first => ?_
  -- The loop starts from one clause on each side.
  have hfirst : Via (Array.map (Clause.map c.expr)) #[first] #[first.map c.expr] := by
    simp [Via]
  refine InStep.bind_via (.whileNext (fun _ _ h => clauseStart_of_kind h.kind)
    (fun _ _ start seen seen' _ hseen => ?_) hfirst) fun all => ?_
  · rw [hseen]
    exact (inStep_clause hfull start).bind_via fun _ => .pure (via_push _ rfl)
  · refine inStep_pop.bind fun found found' h => ?_
    -- What closes the clauses is decided by the kind of the token; the error quotes its text.
    rw [h.kind, h.toLexeme]
    split
    · refine .pure ?_
      rw [Via, Prod.map, h.span, Array.toList_map]
    · exact .fail h.span

/-! ## Objects -/

/-- The condition of an assertion is in step, with its message if there is one. -/
theorem inStep_condition (hfull : full.InStep c (Via c.expr) full') :
    (condition full).InStep c (Via (Prod.map c.expr (Option.map c.expr))) (condition full') := by
  refine hfull.bind_via fun cond => inStep_nextIsOperator.bind_eq fun present => ?_
  split
  · exact inStep_pop.bind fun _ _ _ => hfull.bind_via fun message => .pure rfl
  · exact .pure rfl

/-- The key of a field is in step, for first tokens that correspond. -/
theorem inStep_key (hfull : full.InStep c (Via c.expr) full') {t u : Token}
    (h : t.MovedBy c.move u) :
    (key full t).InStep c (Via (FieldKey.map c.expr)) (key full' u) := by
  unfold key
  rw [h.kind]
  split
  · exact .pure (congrArg FieldKey.identifier h.data)
  · next form _ =>
    -- A text block has the same indent taken off on both sides, so the literals correspond.
    have hliteral :
        Via c.expr (.node t.span (t.stringShape form)) (.node u.span (u.stringShape form)) :=
      via_node h.span (h.stringShape form)
    exact .pure (congrArg FieldKey.string hliteral)
  · exact hfull.bind_via fun _ => inStep_expect.bind fun _ _ _ => .pure rfl

/-- Both runs read the same visibility off the operator of a field. -/
theorem inStep_assignment : assignment.InStep c Eq assignment := by
  -- The operator is the same text on both sides, and so is what is read off it.
  refine inStep_expect.bind fun found found' h => ?_
  rw [h.data]
  split
  · exact .pure rfl
  · exact .fail h.span

/-- Both runs refuse a field whose name was seen, at corresponding tokens. -/
theorem inStep_freshField {t u : Token} (h : t.MovedBy c.move u) (key : FieldKey Expr)
    (seen : Array (Member Expr)) :
    (freshField t key seen).InStep c Eq
      (freshField u (key.map c.expr) (seen.map (Member.map c.expr))) := by
  unfold freshField
  -- Only names that are written out are compared, and these have no place.
  rw [literalName?_map_mapSpan]
  split
  · exact .pure rfl
  · rw [any_map_beq (fieldName?_map_mapSpan c.move)]
    split
    · exact .fail h.span
    · exact .pure rfl

/-- A field is in step, behind members that correspond. -/
theorem inStep_field (hfull : full.InStep c (Via c.expr) full') {t u : Token}
    (h : t.MovedBy c.move u) (seen : Array (Member Expr)) :
    (field full t seen).InStep c (Via (Field.map c.expr))
      (field full' u (seen.map (Member.map c.expr))) := by
  refine (inStep_key hfull h).bind_via fun key =>
    (inStep_optionalParameters hfull).bind_eq fun method => ?_
  refine inStep_assignment.bind_eq fun result => ?_
  obtain ⟨visibility, plus⟩ := result
  dsimp only
  -- A plus sign at a method is refused in the same way.
  rw [h.data]
  split
  · exact .fail h.span
  · exact (inStep_freshField h key seen).bind_eq fun _ => hfull.bind_via fun body => .pure rfl

/-- One more member is in step, behind members that correspond. -/
theorem inStep_pushMember (hfull : full.InStep c (Via c.expr) full') (seen : Array (Member Expr)) :
    (pushMember full seen).InStep c (Via (Array.map (Member.map c.expr)))
      (pushMember full' (seen.map (Member.map c.expr))) := by
  refine inStep_pop.bind fun start start' h => ?_
  -- The first token of a member says what kind of member it is.
  rw [h.kind, h.toLexeme]
  split
  · rw [funext (any_map_beq localName?_map seen)]
    exact (inStep_binding hfull).bind_via fun _ => .pure (via_push _ rfl)
  · exact (inStep_condition hfull).bind_via fun _ => .pure (via_push _ rfl)
  · exact (inStep_field hfull h seen).bind_via fun _ => .pure (via_push _ rfl)
  · exact .fail h.span

/-- An object comprehension is in step; both runs refuse the same members. -/
theorem inStep_objectComp (hfull : full.InStep c (Via c.expr) full') {opening start : Span}
    (members : List (Member Expr)) {trailingComma : Bool} :
    (objectComp full opening start members trailingComma).InStep c (Via c.expr)
      (objectComp full' (c.move opening) (c.move start) (members.map (Member.map c.expr))
        trailingComma) := by
  unfold objectComp
  -- What an object comprehension may not hold is told from the members' shapes.
  rw [comprehensionFault?_map]
  split
  · exact .fail rfl
  · exact (inStep_clauses hfull).bind_via fun _ => .pure (via_between rfl rfl rfl)

/-- Objects are in step, behind their opening braces. -/
theorem inStep_object (hfull : full.InStep c (Via c.expr) full') (opening : Span) :
    (object full opening).InStep c (Via c.expr) (object full' (c.move opening)) := by
  refine (inStep_items (inStep_pushMember hfull) via_empty).bind_via fun list => ?_
  obtain ⟨members, trailingComma⟩ := list
  dsimp only [Prod.map, id_eq]
  refine inStep_pop.bind fun found found' h => ?_
  rw [h.kind, h.span, Array.toList_map]
  split
  · exact .pure (via_between rfl rfl rfl)
  · exact inStep_objectComp hfull members.toList
  · exact .fail rfl

/-! ## Expressions led by a keyword -/

/-- An assertion in front of an expression is in step. -/
theorem inStep_assertForm (hfull : full.InStep c (Via c.expr) full') :
    (assertForm full).InStep c (Via c.expr) (assertForm full') := by
  refine inStep_pop.bind fun start start' hstart => (inStep_condition hfull).bind_via fun out => ?_
  refine inStep_expect.bind fun _ _ _ => hfull.bind_via fun rest => .pure ?_
  exact via_between hstart.span (Expr.span_mapSpan ..) rfl

/-- An error expression is in step. -/
theorem inStep_errorForm (hfull : full.InStep c (Via c.expr) full') :
    (errorForm full).InStep c (Via c.expr) (errorForm full') := by
  refine inStep_pop.bind fun start start' hstart => hfull.bind_via fun message => .pure ?_
  exact via_between hstart.span (Expr.span_mapSpan ..) rfl

/-- A conditional is in step, with its `else` or without one. -/
theorem inStep_conditionalForm (hfull : full.InStep c (Via c.expr) full') :
    (conditionalForm full).InStep c (Via c.expr) (conditionalForm full') := by
  refine inStep_pop.bind fun start start' hstart => hfull.bind_via fun condition => ?_
  refine inStep_expect.bind fun _ _ _ => hfull.bind_via fun whenTrue => ?_
  refine inStep_accept.bind_eq fun present => ?_
  split
  · exact hfull.bind_via fun whenFalse => .pure (via_between hstart.span (Expr.span_mapSpan ..) rfl)
  · exact .pure (via_between hstart.span (Expr.span_mapSpan ..) rfl)

/-- A function literal is in step. -/
theorem inStep_functionForm (hfull : full.InStep c (Via c.expr) full') :
    (functionForm full).InStep c (Via c.expr) (functionForm full') := by
  refine inStep_pop.bind fun start start' hstart => inStep_pop.bind fun found found' hfound => ?_
  -- A parameter list has to open here; what stands there instead is quoted.
  rw [hfound.kind, hfound.toLexeme]
  split
  · refine (inStep_parameters hfull).bind_eq fun parameters => ?_
    exact hfull.bind_via fun body => .pure (via_between hstart.span (Expr.span_mapSpan ..) rfl)
  · exact .fail hfound.span

/-- An import is in step: the name of the file is a text and has no place. -/
theorem inStep_importForm (hfull : full.InStep c (Via c.expr) full') {shape : String → Shape Expr}
    (hshape : ∀ name, (shape name).map c.expr = shape name) :
    (importForm full shape).InStep c (Via c.expr) (importForm full' shape) := by
  refine inStep_pop.bind fun start start' hstart => hfull.bind_via fun file => ?_
  -- The two runs find a text or none together, since moving keeps the text of a literal.
  rw [Expr.stringValue?_mapSpan, Expr.span_mapSpan, hstart.span]
  split
  · next name _ => exact .pure (via_between rfl rfl (hshape name).symm)
  · exact .fail rfl

/-- A local expression is in step. -/
theorem inStep_localForm (hfull : full.InStep c (Via c.expr) full') :
    (localForm full).InStep c (Via c.expr) (localForm full') := by
  refine inStep_pop.bind fun start start' hstart => (inStep_bindings hfull).bind_via fun bindings =>
    ?_
  refine inStep_pop.bind fun found found' hfound => ?_
  rw [hfound.kind, hfound.toLexeme]
  split
  · exact hfull.bind_via fun body => .pure (via_between hstart.span (Expr.span_mapSpan ..) rfl)
  · exact .fail hfound.span

/-- Both runs see the same keyword, or both see that there is none. -/
theorem inStep_keywordForm? (hfull : full.InStep c (Via c.expr) full') :
    (keywordForm? full).InStep c (Via (Option.map c.expr)) (keywordForm? full') := by
  refine inStep_peek.bind fun t u h => ?_
  -- One case for each keyword; the two imports differ in the shape they build only.
  rw [h.kind]
  split
  · exact (inStep_assertForm hfull).bind_via fun _ => .pure rfl
  · exact (inStep_errorForm hfull).bind_via fun _ => .pure rfl
  · exact (inStep_conditionalForm hfull).bind_via fun _ => .pure rfl
  · exact (inStep_functionForm hfull).bind_via fun _ => .pure rfl
  · exact (inStep_importForm hfull fun _ => rfl).bind_via fun _ => .pure rfl
  · exact (inStep_importForm hfull fun _ => rfl).bind_via fun _ => .pure rfl
  · exact (inStep_localForm hfull).bind_via fun _ => .pure rfl
  · exact .pure rfl

/-! ## Operands -/

/-- The name behind a dot is in step. -/
theorem inStep_fieldSelector :
    fieldSelector.InStep c (Via (Prod.map (Selector.map c.expr) c.move)) fieldSelector := by
  refine inStep_expect.bind fun name name' h => .pure ?_
  rw [h.data, h.span]
  rfl

/-- An index in brackets is in step. -/
theorem inStep_indexSelector (hfull : full.InStep c (Via c.expr) full') :
    (indexSelector full).InStep c (Via (Prod.map (Selector.map c.expr) c.move))
      (indexSelector full') := by
  refine hfull.bind_via fun index => inStep_expect.bind fun closing closing' h => .pure ?_
  rw [h.span]
  rfl

/-- A selection from `super` is in step. -/
theorem inStep_superIndex (hfull : full.InStep c (Via c.expr) full') (start : Span) :
    (superIndex full start).InStep c (Via c.expr) (superIndex full' (c.move start)) := by
  refine inStep_pop.bind fun t u h => ?_
  rw [h.kind]
  split
  · exact inStep_fieldSelector.bind_via fun _ => .pure (via_between rfl rfl rfl)
  · exact (inStep_indexSelector hfull).bind_via fun _ => .pure (via_between rfl rfl rfl)
  · exact .fail rfl

/-- An operand of one token is in step; both runs read the same number off a literal. -/
theorem inStep_terminal (hfull : full.InStep c (Via c.expr) full') :
    (terminal full).InStep c (Via c.expr) (terminal full') := by
  refine inStep_pop.bind fun t u h => ?_
  -- The kind of the token decides; each kind but `super` is an operand of its own.
  rw [h.kind, h.data, h.span, h.toLexeme]
  split
  · split
    · exact .pure (via_node rfl rfl)
    · exact .fail rfl
  · next form _ => exact .pure (via_node rfl (h.stringShape form))
  · exact .pure (via_node rfl rfl)
  · exact .pure (via_node rfl rfl)
  · exact .pure (via_node rfl rfl)
  · exact .pure (via_node rfl rfl)
  · exact .pure (via_node rfl rfl)
  · exact .pure (via_node rfl rfl)
  · exact inStep_superIndex hfull t.span
  · exact .fail rfl
  · exact .fail rfl

/-- What follows the first element of an array is in step. -/
theorem inStep_arrayEnd (hfull : full.InStep c (Via c.expr) full') (opening : Span)
    (start : Array Expr × Bool) :
    (arrayEnd full opening start).InStep c (Via c.expr)
      (arrayEnd full' (c.move opening) (Prod.map (Array.map c.expr) id start)) := by
  refine (inStep_moreItems (inStep_pushExpr hfull) start).bind_via fun all => ?_
  refine (inStep_closeList all).bind fun list list' h => .pure (via_between rfl h.closing.span ?_)
  rw [h.exprs, h.trailingComma]
  rfl

/-- Arrays and array comprehensions are in step, behind their opening brackets. -/
theorem inStep_array (hfull : full.InStep c (Via c.expr) full') (opening : Span) :
    (array full opening).InStep c (Via c.expr) (array full' (c.move opening)) := by
  refine inStep_nextIs.bind_eq fun empty => ?_
  split
  · exact inStep_pop.bind fun closing closing' h => .pure (via_between rfl h.span rfl)
  · refine hfull.bind_via fun first => inStep_accept.bind_eq fun comma => ?_
    refine inStep_accept.bind_eq fun comprehension => ?_
    split
    · exact (inStep_clauses hfull).bind_via fun _ => .pure (via_between rfl rfl rfl)
    · -- What is read behind the first element starts from that element alone.
      have hfirst : #[first].map c.expr = #[c.expr first] := by simp
      split
      · rw [← hfirst]
        exact (inStep_afterComma (inStep_pushExpr hfull) #[first]).bind_via
          (inStep_arrayEnd hfull opening)
      · rw [← hfirst]
        exact inStep_arrayEnd hfull opening (#[first], false)

/-- An expression in parentheses is in step. -/
theorem inStep_parenthesised (hfull : full.InStep c (Via c.expr) full') :
    (parenthesised full).InStep c (Via c.expr) (parenthesised full') :=
  hfull.bind_via fun _ => inStep_expect.bind fun _ _ _ => .pure rfl

/-- An operand without suffixes is in step. -/
theorem inStep_primary (hfull : full.InStep c (Via c.expr) full') :
    (primary full).InStep c (Via c.expr) (primary full') := by
  refine inStep_peek.bind fun t u h => ?_
  rw [h.kind, h.span]
  split
  · exact inStep_pop.bind fun _ _ _ => inStep_object hfull t.span
  · exact inStep_pop.bind fun _ _ _ => inStep_array hfull t.span
  · exact inStep_pop.bind fun _ _ _ => inStep_parenthesised hfull
  · exact inStep_terminal hfull

/-- A suffix is in step, for opening tokens and targets that correspond. -/
theorem inStep_suffix (hfull : full.InStep c (Via c.expr) full') (start : Span)
    {opening opening' : Token} (hopening : opening.MovedBy c.move opening') (kind : Suffix)
    (target : Expr) :
    (suffix full start opening kind target).InStep c (Via c.expr)
      (suffix full' (c.move start) opening' kind (c.expr target)) := by
  cases kind with
  | field => exact inStep_fieldSelector.bind_via fun _ => .pure (via_between rfl rfl rfl)
  | index =>
    exact (inStep_indexSelector hfull).bind_via fun _ => .pure (via_between rfl rfl rfl)
  | arguments =>
    refine (inStep_commaList hfull).bind fun list list' hlist =>
      -- A call ends at `tailstrict` if that follows, and at its closing parenthesis otherwise.
      inStep_peek.bind fun next next' hnext => ?_
    refine inStep_accept.bind_eq fun tailStrict => .pure (via_between rfl ?_ ?_)
    · rw [hnext.span, hlist.closing.span, apply_ite c.move]
    · rw [hlist.exprs, hlist.trailingComma]
      rfl
  | extension =>
    -- The object starts at its own brace, not where its target does.
    show (object full opening.span >>= _).InStep c _ (object full' opening'.span >>= _)
    rw [hopening.span]
    refine (inStep_object hfull opening.span).bind_via fun right => .pure ?_
    exact via_between rfl (Expr.span_mapSpan ..) rfl

/-- An operand with its suffixes is in step. -/
theorem inStep_operand (hfull : full.InStep c (Via c.expr) full') :
    (operand full).InStep c (Via c.expr) (operand full') := by
  refine inStep_peek.bind fun start start' hstart => (inStep_primary hfull).bind_via fun first => ?_
  rw [hstart.span]
  -- Suffixes are read in a loop whose state is the operand so far.
  refine .whileNext (fun _ _ h => suffix_of_kind h.kind)
    (fun t u kind target target' h htarget => ?_) rfl
  rw [htarget]
  exact inStep_suffix hfull start.span h kind target

end Productions

end Rule

/-! ## Levels -/

/-- The rules of two levels are in step. -/
structure Level.InStep {S : Type} [TokenSource S] (c : Comparison S) (g : Level TokenStream)
    (g' : Level S) : Prop where
  expr : ∀ precedence, (g.expr precedence).InStep c (Via c.expr) (g'.expr precedence)
  operand : g.operand.InStep c (Via c.expr) g'.operand

namespace Rule

variable {S : Type} [TokenSource S] {c : Comparison S} {g : Level TokenStream} {g' : Level S}

/-- Both runs are nested too deep, at corresponding tokens. -/
theorem inStep_tooDeep {α : Type} {R : α → α → Prop} :
    (tooDeep : Rule TokenStream α).InStep c R (tooDeep : Rule S α) :=
  inStep_peek.bind fun _ _ h => .fail h.span

/-- A unary operator with its operand is in step. -/
theorem inStep_unaryOperation (hg : g.InStep c g') :
    (unaryOperation g).InStep c (Via c.expr) (unaryOperation g') := by
  refine inStep_pop.bind fun t u h => ?_
  rw [h.data, h.span]
  split
  · exact hg.operand.bind_via fun operand => .pure (via_between rfl (Expr.span_mapSpan ..) rfl)
  · exact .fail rfl

/-- A unary operation or an operand is in step. -/
theorem inStep_unary (hg : g.InStep c g') : (unary g).InStep c (Via c.expr) (unary g') := by
  refine inStep_nextIs.bind_eq fun isOperator => ?_
  split
  · exact inStep_unaryOperation hg
  · exact inStep_operand (hg.expr .loosest)

/-- Whether a token goes on with a chain of operators does not depend on its place. -/
theorem binaryOp?_moved {precedence : Precedence} {t u : Token} (h : t.MovedBy c.move u) :
    binaryOp? precedence u = binaryOp? precedence t := by
  rw [binaryOp?, binaryOp?, h.kind, h.data]

/-- A chain of binary operators is in step, behind left operands that correspond. -/
theorem inStep_binaryChain (hg : g.InStep c g') {precedence : Precedence} (start : Span)
    (left : Expr) :
    (binaryChain g precedence start left).InStep c (Via c.expr)
      (binaryChain g' precedence (c.move start) (c.expr left)) := by
  refine InStep.bind_via (.whileNext (fun _ _ h => binaryOp?_moved h)
    (fun _ _ op left left' _ hleft => ?_) rfl) fun result => ?_
  · rw [hleft]
    exact (hg.expr _).bind_via fun right => .pure (via_between rfl (Expr.span_mapSpan ..) rfl)
  · refine inStep_peek.bind fun next next' h => ?_
    -- Behind the chain, an operator of no precedence is reported, with the same text on both sides.
    rw [isStrayOperator, isStrayOperator, h.kind, h.data]
    split
    · exact .fail h.span
    · exact .pure rfl

/-- Expressions of every precedence are in step on the next level. -/
theorem inStep_expression (hg : g.InStep c g') (precedence : Precedence) :
    (expression g precedence).InStep c (Via c.expr) (expression g' precedence) := by
  -- A keyword form stands alone; only without one does a chain of operators follow.
  refine (inStep_keywordForm? (hg.expr .loosest)).bind_via fun form => ?_
  cases form with
  | some e => exact .pure rfl
  | none =>
    refine inStep_peek.bind fun start start' h => (inStep_unary hg).bind_via fun left => ?_
    rw [h.span]
    exact inStep_binaryChain hg start.span left

/-- The operand of a unary operator is in step on the next level. -/
theorem inStep_unaryOperand (hg : g.InStep c g') :
    (unaryOperand g).InStep c (Via c.expr) (unaryOperand g') := by
  refine (inStep_keywordForm? (hg.expr .loosest)).bind_via fun form => ?_
  cases form with
  | some e => exact .pure rfl
  | none => exact inStep_unary hg

/-- A program is in step: it ends, or goes on, at corresponding tokens. -/
theorem inStep_program (hg : g.InStep c g') : (program g).InStep c (Via c.expr) (program g') := by
  refine (hg.expr .loosest).bind_via fun root => inStep_peek.bind fun next next' h => ?_
  rw [h.kind, h.toLexeme]
  split
  · exact .pure rfl
  · exact .fail h.span

end Rule

namespace Level

variable {c : Comparison TokenStream} {g g' : Level TokenStream}

/-- Where no levels are left, both runs fail. -/
theorem inStep_exhausted : exhausted.InStep c exhausted :=
  ⟨fun _ => Rule.inStep_tooDeep, Rule.inStep_tooDeep⟩

/-- One more level of nesting on both sides. -/
theorem InStep.deepen (hplain : c.Plain) (hg : g.InStep c g') : g.deepen.InStep c g'.deepen :=
  ⟨fun precedence => Rule.inStep_expression hg precedence,
    (Rule.inStep_unaryOperand hg).countUnary hplain⟩

/-- Every level is in step with itself. -/
theorem inStep_upTo (hplain : c.Plain) (n : Nat) : (upTo n).InStep c (upTo n) := by
  -- Each level is built from the one below it, by `InStep.deepen`.
  induction n with
  | zero => exact inStep_exhausted
  | succ n ih => exact ih.deepen hplain

end Level

/-! ## Programs -/

/-- Outcomes that match end with the same result, each at its places. -/
theorem Outcome.Matches.result {S : Type} [TokenSource S] {c : Comparison S} (hplain : c.Plain)
    {o : Outcome TokenStream Expr} {o' : Outcome S Expr} (h : o.Matches c (Via c.expr) o')
    (hignored : ¬ c.Ignores o.error? o.rest) :
    o'.result = (o.result.map c.expr).mapError (Error.mapSpan c.move) ∧
      c.Streams o.rest o'.rest := by
  cases h with
  | ignored h => exact absurd h hignored
  | done hvalue hrest =>
    rw [hvalue]
    exact ⟨rfl, hrest⟩
  | failed hfailures => exact ⟨rfl, (hplain.mp hfailures).2⟩

end JsonnetSyntax
