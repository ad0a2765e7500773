import JsonnetSyntax.Proofs.Grammar.Failures
import JsonnetSyntax.Proofs.Grammar.Placement

/-!
# Where failures are reported

A failure of the grammar is reported at the place of a token that was looked at, which is often the
end mark, or at the place of an expression that was read where only a name or only a text may stand.
Such an expression is placed on tokens as well.  So the place of a failure is always the span of a
token, or it reaches from one token to a later one; no failure is reported nowhere, and none is
reported backwards.

The lemmas follow the rules one by one.  A rule that is handed the place of an earlier token may
report it, so `Rule.Points` has a list of such places.

## Key results

- `Rule.Points.bind`, `Rule.points_pop_bind`, `Rule.Points.whileNext`: sequences, tokens and loops
- `Rule.points_parameters`, `Rule.points_importForm`: the failures that are reported at an
  expression
- `Level.points_upTo`: all levels of nesting
- `shows_of_parse`: the failures of programs
-/

namespace JsonnetSyntax

namespace TokenStream

/-- The span is that of a token of the stream or of its end mark, or it covers a row of its
    tokens. -/
inductive Shows (s : TokenStream) : Span → Prop
  | token {t : Token} (h : t ∈ s.ahead ++ [s.eof]) : Shows s t.span
  | row {own : List Token} {span : Span} (hown : own <:+: s.ahead) (h : Covers own span) :
    Shows s span

variable {s mid : TokenStream} {span : Span}

/-- A stream shows the place of its next token, be it the end mark. -/
theorem shows_next (s : TokenStream) : s.Shows s.next.span := by
  obtain ⟨ahead, eof⟩ := s
  -- The next token is the end mark exactly where nothing is ahead.
  cases ahead with
  | nil => exact .token (List.mem_singleton_self eof)
  | cons t ahead => exact .token (List.mem_cons_self ..)

/-- What a rest of a stream shows, the stream shows. -/
theorem Shows.later (h : mid.Shows span) (hrest : mid.IsRestOf s) : s.Shows span := by
  cases h with
  | token ht =>
    rw [hrest.eof] at ht
    refine .token ?_
    -- A token ahead of the rest is ahead of the stream; the end mark is the same.
    obtain ht | ht := List.mem_append.mp ht
    · exact List.mem_append_left _ (hrest.ahead.subset ht)
    · exact List.mem_append_right _ ht
  | row hown hcovers => exact .row (hown.trans hrest.ahead.isInfix) hcovers

/-- The span is one of the spans `known`, or the stream shows it.  Of streams without an end mark
    nothing is said. -/
def PointsTo (s : TokenStream) (known : List Span) (span : Span) : Prop :=
  s.eof.kind = .endOfFile → span ∈ known ∨ s.Shows span

/-- What a rest of a stream points to, the stream points to. -/
theorem PointsTo.later {known : List Span} (h : mid.PointsTo known span) (hrest : mid.IsRestOf s) :
    s.PointsTo known span := by
  intro heof
  rw [← hrest.eof] at heof
  obtain hknown | hshows := h heof
  · exact .inl hknown
  · exact .inr (hshows.later hrest)

/-- The place of the next token need not be known. -/
theorem PointsTo.of_next {known : List Span} (h : s.PointsTo (s.next.span :: known) span) :
    s.PointsTo known span := by
  intro heof
  obtain hknown | hshows := h heof
  -- The place is that of the next token, or one that was known without it.
  · obtain rfl | hknown := List.mem_cons.mp hknown
    · exact .inr s.shows_next
    · exact .inl hknown
  · exact .inr hshows

end TokenStream

namespace Rule

/-- Every failure of the rule is reported at one of the places `known`, or at one that the stream
    shows. -/
abbrev Points {α : Type} (known : List Span) (rule : Rule TokenStream α) : Prop :=
  rule.FailsIn fun s failure _ => s.PointsTo known failure.error.span

section Combinators

variable {α β σ : Type} {known : List Span} {rule : Rule TokenStream α}

/-! ## Sequences -/

/-- A rule that fails at a known place. -/
theorem Points.fail {fault : GrammarFault} {span : Span} (h : span ∈ known) :
    (fail fault span : Rule TokenStream α).Points known := by
  constructor
  intro s failure rest hfailed _
  cases hfailed
  exact .inl h

/-- A sequence of rules that fail at known or shown places. -/
theorem Points.bind {next : α → Rule TokenStream β} (h : rule.Points known)
    (hnext : ∀ value, (next value).Points known) :
    (rule >>= next).Points known :=
  FailsIn.bind h fun hrule hfailed => ((hnext _).failed hfailed).later (isRestOf_of_run hrule)

/-- Behind a token that was taken, its place is known. -/
theorem points_pop_bind {next : Token → Rule TokenStream β}
    (h : ∀ t, (next t).Points (t.span :: known)) :
    (pop >>= next).Points known := by
  refine FailsIn.bind .pop fun {s _ _ _ _} hpop hfailed => ?_
  cases hpop
  exact (((h s.next).failed hfailed).later s.skip_isRestOf).of_next

/-- The place of a token that is looked at is known from there on. -/
theorem points_peek_bind {next : Token → Rule TokenStream β}
    (h : ∀ t, (next t).Points (t.span :: known)) :
    (peek >>= next).Points known :=
  failsIn_peek_bind fun {s _ _} hfailed => ((h s.next).failed hfailed).of_next

/-! ## Tokens -/

/-- A look at the kind of a token does not fail. -/
theorem points_nextIs {kind : TokenKind} : (nextIs kind).Points known :=
  points_peek_bind fun _ => .pure

/-- Taking a token that may be missing does not fail. -/
theorem points_accept {kind : TokenKind} : (accept kind).Points known := by
  refine points_nextIs.bind fun present => ?_
  split
  · exact points_pop_bind fun _ => .pure
  · exact .pure

/-- A token that is not the expected one is the place of the failure; the place of an expected one
    is known. -/
theorem points_expect_bind {kind : TokenKind} {next : Token → Rule TokenStream β}
    (h : ∀ t, (next t).Points (t.span :: known)) : (expect kind >>= next).Points known := by
  rw [expect, bind_assoc]
  refine points_pop_bind fun found => ?_
  split
  · exact h found
  -- Behind the failure nothing is run, so nothing else can fail.
  · refine FailsIn.bind (Points.fail (List.mem_cons_self ..)) fun hrun => ?_
    cases hrun

/-- Another token than the expected operator is the place of the failure. -/
theorem points_expectOperator {symbol : String} : (expectOperator symbol).Points known := by
  refine points_pop_bind fun found => ?_
  split
  · exact .pure
  · exact .fail (List.mem_cons_self ..)

/-! ## The loop -/

/-- A loop fails where one of its rounds does. -/
theorem Points.whileNext {select : Token → Option β} {body : Token → β → σ → Rule TokenStream σ}
    (hbody : ∀ t choice state, (body t choice state).Points known) (state : σ) :
    (whileNext select body state).Points known :=
  FailsIn.whileNext (fun hrest h => h.later hrest) hbody state

end Combinators

end Rule

/-- What a level reads is placed on tokens, and its failures are reported at places of tokens. -/
structure Level.Points (g : Level TokenStream) : Prop where
  places : g.Places ReadFrom
  expr : ∀ {known : List Span} (precedence : Precedence), (g.expr precedence).Points known
  operand : ∀ {known : List Span}, g.operand.Points known

namespace Rule

section Productions

variable {σ : Type} {known : List Span} {g : Level TokenStream}

/-- Expressions of the loosest precedence fail where those of every precedence do. -/
theorem points_full (hg : g.Points) : g.full.Points known := hg.expr .loosest

/-! ## Lists -/

/-- Behind a comma, only an item can fail. -/
theorem points_afterComma {stops : TokenKind → Bool} {item : σ → Rule TokenStream σ}
    (hitem : ∀ {known : List Span} state, (item state).Points known) (state : σ) :
    (afterComma stops item state).Points known := by
  refine points_peek_bind fun t => ?_
  split
  · exact .pure
  · exact (hitem state).bind fun _ => .pure

/-- Items behind commas fail where one of them does. -/
theorem points_moreItems {stops : TokenKind → Bool} {item : σ → Rule TokenStream σ}
    (hitem : ∀ {known : List Span} state, (item state).Points known) (start : σ × Bool) :
    (moreItems stops item start).Points known :=
  .whileNext (fun _ _ state => points_afterComma hitem state.1) start

/-- A list fails where one of its items does. -/
theorem points_items {stops : TokenKind → Bool} {item : σ → Rule TokenStream σ}
    (hitem : ∀ {known : List Span} state, (item state).Points known) (state : σ) :
    (items stops item state).Points known := by
  refine points_peek_bind fun t => ?_
  split
  · exact .pure
  · exact (hitem state).bind fun first => points_moreItems hitem (first, false)

/-- An element that is pushed fails where its expression does. -/
theorem points_pushExpr (hg : g.Points) (exprs : Array Expr) :
    (pushExpr g.full exprs).Points known :=
  (points_full hg).bind fun _ => .pure

/-- A list that is not closed is reported at the token that stands there. -/
theorem points_closeList {closing : Punct} {what : ListItem} (list : Array Expr × Bool) :
    (closeList closing what list).Points known := by
  refine points_nextIs.bind fun present => ?_
  split
  · exact points_pop_bind fun _ => .pure
  · exact points_peek_bind fun _ => .fail (List.mem_cons_self ..)

/-- A list of expressions fails in one of them or where it is not closed. -/
theorem points_commaList (hg : g.Points) {closing : Punct} {what : ListItem} :
    (commaList g.full closing what).Points known :=
  (points_items (points_pushExpr hg) #[]).bind points_closeList

/-- A parameter that is no name stands on tokens that the list was read from. -/
theorem points_parameters (hg : g.Points) {what : ListItem} :
    (parameters g.full what).Points known := by
  -- The list itself was read, so its expressions are placed on tokens between the two streams.
  refine FailsIn.bind (points_commaList hg) fun {s list mid _ _} hlist hfailed heof => ?_
  split at hfailed
  · next e hfind =>
    cases hfailed
    have hread : (commaList g.full .parenR what).Reads ⟨s.eof, heof⟩ s.ahead list mid.ahead :=
      .of_run hlist
    -- The faulty expression is one of them, and its tokens stand together.
    obtain ⟨taken, htaken, hplaced⟩ := holds_commaList hg.places (by simp) hread
    obtain ⟨front, own, back, rfl, he⟩ := hplaced.exists_of_mem (List.mem_of_find?_eq_some hfind)
    refine .inr (.row ?_ he.covers)
    rw [htaken]
    exact ⟨front, back ++ list.closing :: mid.ahead, by simp⟩
  · cases hfailed

/-- Parameters that may be missing fail only where they are there. -/
theorem points_optionalParameters (hg : g.Points) {what : ListItem} :
    (optionalParameters g.full what).Points known := by
  refine points_accept.bind fun present => ?_
  split
  · exact (points_parameters hg).bind fun _ => .pure
  · exact .pure

/-! ## Bindings and clauses -/

/-- A binding fails at its name, in its parameters or in its body. -/
theorem points_binding (hg : g.Points) {taken : String → Bool} :
    (binding g.full taken).Points known := by
  refine points_expect_bind fun name => ?_
  split
  · exact .fail (List.mem_cons_self ..)
  · refine (points_optionalParameters hg).bind fun parameters => ?_
    exact points_expectOperator.bind fun _ => (points_full hg).bind fun _ => .pure

/-- One more binding fails where it does alone. -/
theorem points_pushBinding (hg : g.Points) (seen : Array (Binding Expr)) :
    (pushBinding g.full seen).Points known :=
  (points_binding hg).bind fun _ => .pure

/-- Bindings fail where one of them does. -/
theorem points_bindings (hg : g.Points) : (bindings g.full).Points known :=
  (points_pushBinding hg #[]).bind fun first =>
    (Points.whileNext (fun _ _ seen => points_pushBinding hg seen) first).bind fun _ => .pure

/-- A `for` clause fails at its tokens or in its source. -/
theorem points_loopClause (hg : g.Points) : (loopClause g.full).Points known :=
  points_expect_bind fun _ => points_expect_bind fun _ => (points_full hg).bind fun _ => .pure

/-- A clause fails at its tokens or in its expression. -/
theorem points_clause (hg : g.Points) (start : ClauseStart) :
    (clause g.full start).Points known := by
  cases start with
  | loop => exact points_loopClause hg
  | condition => exact (points_full hg).bind fun _ => .pure

/-- Clauses fail where one of them does, or at the token that should close them. -/
theorem points_clauses (hg : g.Points) {closing : Punct} :
    (clauses g.full closing).Points known := by
  refine (points_loopClause hg).bind fun first => ?_
  -- Each round adds a clause; behind the last one a token is taken in any case.
  refine (Points.whileNext (fun _ start seen => ?_) #[first]).bind fun all =>
    points_pop_bind fun found => ?_
  · exact (points_clause hg start).bind fun _ => .pure
  · split
    · exact .pure
    · exact .fail (List.mem_cons_self ..)

/-! ## Objects -/

/-- A condition fails in itself or in its message. -/
theorem points_condition (hg : g.Points) : (condition g.full).Points known := by
  refine (points_full hg).bind fun cond => ?_
  -- The look at the operator is unfolded here, since its token is what the rest may report.
  rw [nextIsOperator, bind_assoc]
  refine points_peek_bind fun t => ?_
  rw [pure_bind]
  split
  · exact points_pop_bind fun _ => (points_full hg).bind fun _ => .pure
  · exact .pure

/-- The key of a field fails only where it is computed. -/
theorem points_key (hg : g.Points) (t : Token) : (key g.full t).Points known := by
  unfold key
  split
  · exact .pure
  · exact .pure
  · exact (points_full hg).bind fun _ => points_expect_bind fun _ => .pure

/-- An operator that assigns nothing is reported at its own place. -/
theorem points_assignment : assignment.Points known := by
  refine points_expect_bind fun found => ?_
  split
  · exact .pure
  · exact .fail (List.mem_cons_self ..)

/-- A field whose name was seen is reported at the first token of its key. -/
theorem points_freshField {t : Token} (ht : t.span ∈ known) {key : FieldKey Expr}
    {seen : Array (Member Expr)} : (freshField t key seen).Points known := by
  unfold freshField
  split
  · exact .pure
  · split
    · exact .fail ht
    · exact .pure

/-- A field that cannot stand is reported at the first token of its key. -/
theorem points_field (hg : g.Points) {t : Token} (ht : t.span ∈ known)
    (seen : Array (Member Expr)) :
    (field g.full t seen).Points known := by
  refine (points_key hg t).bind fun key => (points_optionalParameters hg).bind fun method => ?_
  refine points_assignment.bind fun result => ?_
  obtain ⟨visibility, plus⟩ := result
  dsimp only
  -- A method with a plus sign, and a name that was seen, are reported at the key.
  split
  · exact .fail ht
  · exact (points_freshField ht).bind fun _ => (points_full hg).bind fun _ => .pure

/-- A member fails in itself, or at its first token if it can be no member. -/
theorem points_pushMember (hg : g.Points) (seen : Array (Member Expr)) :
    (pushMember g.full seen).Points known := by
  refine points_pop_bind fun start => ?_
  split
  · exact (points_binding hg).bind fun _ => .pure
  · exact (points_condition hg).bind fun _ => .pure
  · exact (points_field hg (List.mem_cons_self ..) seen).bind fun _ => .pure
  · exact .fail (List.mem_cons_self ..)

/-- An object comprehension fails at the token in front of its clauses, or in them. -/
theorem points_objectComp (hg : g.Points) {opening start : Span} (hstart : start ∈ known)
    {members : List (Member Expr)} {trailingComma : Bool} :
    (objectComp g.full opening start members trailingComma).Points known := by
  unfold objectComp
  split
  · exact .fail hstart
  · exact (points_clauses hg).bind fun _ => .pure

/-- An object fails in its members, or at the token that should close it. -/
theorem points_object (hg : g.Points) (opening : Span) : (object g.full opening).Points known := by
  refine (points_items (points_pushMember hg) #[]).bind fun list => points_pop_bind fun found => ?_
  split
  · exact .pure
  · exact points_objectComp hg (List.mem_cons_self ..)
  · exact .fail (List.mem_cons_self ..)

/-! ## Expressions led by a keyword -/

/-- An assertion fails at its tokens or in its parts. -/
theorem points_assertForm (hg : g.Points) : (assertForm g.full).Points known :=
  points_pop_bind fun _ => (points_condition hg).bind fun _ =>
    points_expect_bind fun _ => (points_full hg).bind fun _ => .pure

/-- An error expression fails in its message. -/
theorem points_errorForm (hg : g.Points) : (errorForm g.full).Points known :=
  points_pop_bind fun _ => (points_full hg).bind fun _ => .pure

/-- A conditional fails at its tokens or in its parts. -/
theorem points_conditionalForm (hg : g.Points) : (conditionalForm g.full).Points known := by
  refine points_pop_bind fun start => (points_full hg).bind fun condition =>
    points_expect_bind fun _ => ?_
  refine (points_full hg).bind fun whenTrue => points_accept.bind fun present => ?_
  split
  · exact (points_full hg).bind fun _ => .pure
  · exact .pure

/-- A function literal fails at its tokens, in its parameters or in its body. -/
theorem points_functionForm (hg : g.Points) : (functionForm g.full).Points known := by
  refine points_pop_bind fun start => points_pop_bind fun found => ?_
  split
  · exact (points_parameters hg).bind fun _ => (points_full hg).bind fun _ => .pure
  · exact .fail (List.mem_cons_self ..)

/-- A file that is not named by a text is reported where its expression stands. -/
theorem points_importForm (hg : g.Points) {shape : String → Shape Expr} :
    (importForm g.full shape).Points known := by
  refine points_pop_bind fun start => ?_
  refine FailsIn.bind (points_full hg) fun {s file mid _ _} hfile hfailed heof => ?_
  -- Only a failure behind the expression is left: the name of the file is no text.
  split at hfailed
  · cases hfailed
  · cases hfailed
    have hread : g.full.Reads ⟨s.eof, heof⟩ s.ahead file mid.ahead := .of_run hfile
    -- The expression is placed on tokens of its own, which stand together in the stream.
    obtain ⟨front, own, back, htaken, -, hplaced⟩ := hg.places.expr hread
    refine .inr (.row ?_ hplaced.covers)
    rw [htaken]
    exact ⟨front, back ++ mid.ahead, by simp⟩

/-- A local expression fails at its tokens, in its bindings or in its body. -/
theorem points_localForm (hg : g.Points) : (localForm g.full).Points known := by
  refine points_pop_bind fun start => ?_
  refine (points_bindings hg).bind fun bindings => points_pop_bind fun found => ?_
  split
  · exact (points_full hg).bind fun _ => .pure
  · exact .fail (List.mem_cons_self ..)

/-- An expression led by a keyword fails at places of tokens, whichever keyword it is. -/
theorem points_keywordForm? (hg : g.Points) : (keywordForm? g.full).Points known := by
  refine points_peek_bind fun t => ?_
  split
  · exact (points_assertForm hg).bind fun _ => .pure
  · exact (points_errorForm hg).bind fun _ => .pure
  · exact (points_conditionalForm hg).bind fun _ => .pure
  · exact (points_functionForm hg).bind fun _ => .pure
  · exact (points_importForm hg).bind fun _ => .pure
  · exact (points_importForm hg).bind fun _ => .pure
  · exact (points_localForm hg).bind fun _ => .pure
  · exact .pure

/-! ## Operands -/

/-- A name that is missing behind a dot is reported at the token found there. -/
theorem points_fieldSelector : fieldSelector.Points known := points_expect_bind fun _ => .pure

/-- An index fails in its expression, or at the token that should close it. -/
theorem points_indexSelector (hg : g.Points) : (indexSelector g.full).Points known :=
  (points_full hg).bind fun _ => points_expect_bind fun _ => .pure

/-- A selection from `super` fails at its tokens, at `super` itself or in its index. -/
theorem points_superIndex (hg : g.Points) {start : Span} (hstart : start ∈ known) :
    (superIndex g.full start).Points known := by
  refine points_pop_bind fun t => ?_
  split
  · exact points_fieldSelector.bind fun _ => .pure
  · exact (points_indexSelector hg).bind fun _ => .pure
  · exact .fail (List.mem_cons_of_mem _ hstart)

/-- An operand of one token is reported at that token. -/
theorem points_terminal (hg : g.Points) : (terminal g.full).Points known := by
  refine points_pop_bind fun t => ?_
  -- Whatever is wrong with an operand of one token, its place is that token.
  have ht : t.span ∈ t.span :: known := List.mem_cons_self ..
  split
  · split
    · exact .pure
    · exact .fail ht
  · exact .pure
  · exact .pure
  · exact .pure
  · exact .pure
  · exact .pure
  · exact .pure
  · exact .pure
  · exact points_superIndex hg ht
  · exact .fail ht
  · exact .fail ht

/-- What follows the first element of an array fails in an element or at the end of the list. -/
theorem points_arrayEnd (hg : g.Points) (opening : Span) (start : Array Expr × Bool) :
    (arrayEnd g.full opening start).Points known :=
  (points_moreItems (points_pushExpr hg) start).bind fun all => (points_closeList all).bind fun _ =>
    .pure

/-- An array fails in its elements, in its clauses or where it is not closed. -/
theorem points_array (hg : g.Points) (opening : Span) : (array g.full opening).Points known := by
  refine points_nextIs.bind fun empty => ?_
  split
  · exact points_pop_bind fun _ => .pure
  · refine (points_full hg).bind fun first => points_accept.bind fun comma => ?_
    refine points_accept.bind fun comprehension => ?_
    split
    · exact (points_clauses hg).bind fun _ => .pure
    · split
      · exact (points_afterComma (points_pushExpr hg) #[first]).bind (points_arrayEnd hg opening)
      · exact points_arrayEnd hg opening (#[first], false)

/-- An expression in parentheses fails in itself or where it is not closed. -/
theorem points_parenthesised (hg : g.Points) : (parenthesised g.full).Points known :=
  (points_full hg).bind fun _ => points_expect_bind fun _ => .pure

/-- An operand without suffixes fails at places of tokens. -/
theorem points_primary (hg : g.Points) : (primary g.full).Points known := by
  refine points_peek_bind fun start => ?_
  split
  · exact points_pop_bind fun _ => points_object hg start.span
  · exact points_pop_bind fun _ => points_array hg start.span
  · exact points_pop_bind fun _ => points_parenthesised hg
  · exact points_terminal hg

/-- A suffix fails at places of tokens. -/
theorem points_suffix (hg : g.Points) (start : Span) (opening : Token) (kind : Suffix)
    (target : Expr) :
    (suffix g.full start opening kind target).Points known := by
  cases kind with
  | field => exact points_fieldSelector.bind fun _ => .pure
  | index => exact (points_indexSelector hg).bind fun _ => .pure
  | arguments =>
    refine (points_commaList hg).bind fun list => points_peek_bind fun next => ?_
    exact points_accept.bind fun _ => .pure
  | extension => exact (points_object hg opening.span).bind fun _ => .pure

/-- An operand fails in front of its suffixes or in one of them. -/
theorem points_operand (hg : g.Points) : (operand g.full).Points known := by
  refine points_peek_bind fun start => (points_primary hg).bind fun first => ?_
  exact .whileNext (fun opening kind target => points_suffix hg start.span opening kind target)
    first

/-! ## Operators -/

/-- A unary operation fails at its operator or in its operand. -/
theorem points_unary (hg : g.Points) : (unary g).Points known := by
  refine points_nextIs.bind fun present => ?_
  split
  · refine points_pop_bind fun t => ?_
    split
    · exact hg.operand.bind fun _ => .pure
    · exact .fail (List.mem_cons_self ..)
  · exact points_operand hg

/-- A chain of operators fails in a right operand, or at an operator that cannot follow. -/
theorem points_binaryChain (hg : g.Points) {precedence : Precedence} {start : Span} {left : Expr} :
    (binaryChain g precedence start left).Points known := by
  refine (Points.whileNext (fun _ op left => ?_) left).bind fun result =>
    points_peek_bind fun next => ?_
  · exact (hg.expr (op.precedence - 1)).bind fun _ => .pure
  · split
    · exact .fail (List.mem_cons_self ..)
    · exact .pure

/-- Expressions of the next level fail at places of tokens. -/
theorem points_expression (hg : g.Points) {precedence : Precedence} :
    (expression g precedence).Points known := by
  refine (points_keywordForm? hg).bind fun form => ?_
  split
  · exact .pure
  · exact points_peek_bind fun _ => (points_unary hg).bind fun _ => points_binaryChain hg

/-- Operands of unary operators on the next level fail at places of tokens. -/
theorem points_unaryOperand (hg : g.Points) : (unaryOperand g).Points known := by
  refine (points_keywordForm? hg).bind fun form => ?_
  split
  · exact .pure
  · exact points_unary hg

/-- Nesting that is too deep is reported at the next token. -/
theorem points_tooDeep {α : Type} : (tooDeep : Rule TokenStream α).Points known :=
  points_peek_bind fun _ => .fail (List.mem_cons_self ..)

/-- Counting open operators does not change where a failure is reported. -/
theorem Points.countUnary {α : Type} {rule : Rule TokenStream α} (h : rule.Points known) :
    rule.countUnary.Points known := by
  constructor
  intro s failure rest hfailed
  obtain ⟨inner, hinner, rfl⟩ := failed_countUnary hfailed
  have hpoints := h.failed hinner
  exact hpoints

/-- A program fails in its expression, or at a token that is left over. -/
theorem points_program (h : g.full.Points known) : (program g).Points known := by
  refine h.bind fun root => points_peek_bind fun next => ?_
  split
  · exact .pure
  · exact .fail (List.mem_cons_self ..)

end Productions

end Rule

/-! ## Levels and programs -/

/-- Every level below the greatest nesting fails at places of tokens. -/
theorem Level.points_upTo {n : Nat} (hn : n < maxNesting) : (upTo n).Points := by
  induction n with
  -- The lowest level reads nothing and fails at the next token.
  | zero => exact ⟨places_upTo hn, fun _ => Rule.points_tooDeep, Rule.points_tooDeep⟩
  | succ n ih =>
    have hg := ih (Nat.lt_of_succ_lt hn)
    exact ⟨places_upTo hn, fun _ => Rule.points_expression hg,
      (Rule.points_unaryOperand hg).countUnary⟩

/-- A program fails at the place of a token, or from one token to a later one. -/
theorem shows_of_parse {tokens : List Token} {e : Error} (h : parse tokens = .error e) :
    (TokenStream.ofTokens tokens).Shows e.span := by
  have hg : (Level.upTo (maxNesting - 1)).Points := Level.points_upTo (by decide)
  -- Nothing is known beforehand, so the place must be shown by the stream.
  have hfull : (Level.upTo maxNesting).full.Points [] := Rule.points_expression hg
  obtain ⟨openUnary, rest, hfailed⟩ := exists_failed_of_parse h
  obtain hnone | hshows :=
    (Rule.points_program hfull).failed hfailed (EndMark.ofTokens tokens).2
  · cases hnone
  · exact hshows

end JsonnetSyntax
