import JsonnetSyntax.Proofs.Grammar.Progress

/-!
# What holds of every failure

A rule fails by a fault of its own or because a rule that it runs fails, and then nothing more is
read.  So what holds of the faults, and of the failures of sub-expressions, holds of all failures of
a rule, as long as it does not matter how much was read in front of the sub-expression.  A
`FailureLaw` is such a statement.  The lemmas follow the rules one by one, for a rule `full` for
sub-expressions that obeys the law; those for rules that start with a token also say that nothing
fails in front of that token.

## Key results

- `Rule.FailsIn.bind`, `Rule.FailsIn.whileNext`: sequences and loops
- `Rule.obeys_object`, `Rule.obeysBehind_ledBy`: the rules for one level
- `Rule.failsIn_operand`: operands, by what holds where a number cannot be read
- `Rule.failsIn_unary`, `Rule.failsIn_expression`, `Rule.failsIn_unaryOperand`: operators and
  expressions, by what holds where the operand of a unary operator fails
-/

namespace JsonnetSyntax

/-- The faults that say something about all of a stream: nesting, which depends on the levels in
    use, and a number that cannot be read, which depends on the text of a token. -/
inductive GrammarFault.IsSpecial : GrammarFault → Prop
  | tooDeep (limit : Nat) : IsSpecial (.tooDeep limit)
  | badNumber : IsSpecial .badNumber

/-- A statement about a failure, the stream that it started from and the rest of it.  It holds of
    all faults but the special ones, and of what is read behind other tokens if it holds without
    them. -/
structure FailureLaw where
  Holds : TokenStream → Failure → TokenStream → Prop
  fault : ∀ s {fault : GrammarFault} span, ¬ fault.IsSpecial →
    Holds s { error := ⟨.grammar fault, span⟩ } s
  later : ∀ {s mid failure rest}, mid.IsRestOf s → Holds mid failure rest → Holds s failure rest

namespace Rule

/-- Of every failure of the rule, `P` holds. -/
structure FailsIn {α : Type} (P : TokenStream → Failure → TokenStream → Prop)
    (rule : Rule TokenStream α) : Prop where
  failed : ∀ {s failure rest}, rule.run s = .failed failure rest → P s failure rest

/-- Of every failure of the rule, the law holds. -/
abbrev Obeys {α : Type} (law : FailureLaw) (rule : Rule TokenStream α) : Prop :=
  rule.FailsIn law.Holds

/-- Of every failure of the rule, the law holds even behind the first token. -/
abbrev ObeysBehind {α : Type} (law : FailureLaw) (rule : Rule TokenStream α) : Prop :=
  rule.FailsIn fun s => law.Holds s.skip

section Combinators

variable {α β σ : Type} {law : FailureLaw} {P : TokenStream → Failure → TokenStream → Prop}
  {rule : Rule TokenStream α}
  {next : α → Rule TokenStream β}

/-! ## Sequences -/

/-- A rule that reads nothing does not fail. -/
theorem FailsIn.pure {value : α} : (pure value : Rule TokenStream α).FailsIn P := by
  constructor
  intro s failure rest h
  cases h

/-- A look at the next token does not fail. -/
theorem FailsIn.peek : peek.FailsIn P := by
  constructor
  intro s failure rest h
  cases h

/-- Taking the next token does not fail. -/
theorem FailsIn.pop : pop.FailsIn P := by
  constructor
  intro s failure rest h
  cases h

/-- A fault that is not special obeys every law. -/
theorem Obeys.fail {fault : GrammarFault} {span : Span} (h : ¬ fault.IsSpecial) :
    (fail fault span : Rule TokenStream α).Obeys law := by
  constructor
  intro s failure rest hfailed
  cases hfailed
  exact law.fault s span h

/-- A sequence fails where its first part does, or where its second part does behind the first. -/
theorem FailsIn.bind (h : rule.FailsIn P)
    (hnext : ∀ {s value mid failure rest}, rule.run s = .done value mid →
      (next value).run mid = .failed failure rest → P s failure rest) :
    (rule >>= next).FailsIn P := by
  constructor
  intro s failure rest hfailed
  rw [run_bind] at hfailed
  -- The first rule fails, or it is done and the failure is the second rule's.
  cases hrule : rule.run s with
  | failed failure' rest' =>
    rw [hrule, Outcome.andThen_failed] at hfailed
    cases hfailed
    exact h.failed hrule
  | done value mid =>
    rw [hrule, Outcome.andThen_done] at hfailed
    exact hnext hrule hfailed

/-- A weaker statement holds of the failures as well. -/
theorem FailsIn.mono {Q : TokenStream → Failure → TokenStream → Prop} (h : rule.FailsIn P)
    (hPQ : ∀ {s failure rest}, P s failure rest → Q s failure rest) : rule.FailsIn Q :=
  ⟨fun hfailed => hPQ (h.failed hfailed)⟩

/-- What a rule leaves is a rest of the stream. -/
theorem isRestOf_of_run {s mid : TokenStream} {value : α} (h : rule.run s = .done value mid) :
    mid.IsRestOf s := by
  have hrest := rule.rest_run s
  rwa [h] at hrest

/-- A sequence of rules that obey the law obeys it. -/
theorem Obeys.bind (h : rule.Obeys law) (hnext : ∀ value, (next value).Obeys law) :
    (rule >>= next).Obeys law :=
  FailsIn.bind h fun hrule hfailed => law.later (isRestOf_of_run hrule) ((hnext _).failed hfailed)

/-- A rule that takes a token and goes on with rules that obey the law. -/
theorem obeysBehind_pop_bind {next : Token → Rule TokenStream β} (h : ∀ t, (next t).Obeys law) :
    (Rule.pop >>= next).ObeysBehind law := by
  -- Taking a token is done at once, so the failure is the next rule's.
  refine .bind .pop fun hpop hfailed => ?_
  cases hpop
  exact (h _).failed hfailed

/-- A look at the next token does not change where the rest fails. -/
theorem failsIn_peek_bind {next : Token → Rule TokenStream β}
    (h : ∀ {s failure rest}, (next s.next).run s = .failed failure rest → P s failure rest) :
    (Rule.peek >>= next).FailsIn P := by
  refine .bind .peek fun hpeek hfailed => ?_
  cases hpeek
  exact h hfailed

/-- A rule that takes the next token is followed by rules that obey the law. -/
theorem ObeysBehind.bind (h : rule.ObeysBehind law) (htakes : rule.TakesNext)
    (hnext : ∀ value, (next value).Obeys law) : (rule >>= next).ObeysBehind law :=
  FailsIn.bind h fun hrule hfailed => law.later (htakes.isRestOf hrule) ((hnext _).failed hfailed)

/-! ## Tokens -/

/-- A look at the kind of a token does not fail. -/
theorem obeys_nextIs {kind : TokenKind} : (nextIs kind).Obeys law := .bind .peek fun _ => .pure

/-- A look at an operator does not fail. -/
theorem obeys_nextIsOperator {symbol : String} : (nextIsOperator symbol).Obeys law :=
  .bind .peek fun _ => .pure

/-- Taking a token that may be missing does not fail. -/
theorem obeys_accept {kind : TokenKind} : (accept kind).Obeys law := by
  refine .bind obeys_nextIs fun present => ?_
  split
  · exact .bind .pop fun _ => .pure
  · exact .pure

/-- A token of another kind is a fault of its own. -/
theorem obeys_expect {kind : TokenKind} : (expect kind).Obeys law := by
  refine .bind .pop fun found => ?_
  split
  · exact .pure
  · exact .fail nofun

/-- A token that is not the operator is a fault of its own. -/
theorem obeys_expectOperator {symbol : String} : (expectOperator symbol).Obeys law := by
  refine .bind .pop fun found => ?_
  split
  · exact .pure
  · exact .fail nofun

/-! ## The loop -/

/-- A loop fails where one of its rounds does, behind the token that the round takes. -/
theorem FailsIn.whileNext {select : Token → Option β} {body : Token → β → σ → Rule TokenStream σ}
    (hlater : ∀ {s mid failure rest}, mid.IsRestOf s → P mid failure rest → P s failure rest)
    (hbody : ∀ t choice state, (body t choice state).FailsIn P) (state : σ) :
    (whileNext select body state).FailsIn P := by
  constructor
  intro s failure rest hfailed
  -- Every round takes a token, so the tokens that are left get fewer.
  induction hn : s.ahead.length using Nat.strongRecOn generalizing state s with
  | ind n ih =>
    obtain ⟨ahead, eof⟩ := s
    cases ahead with
    | nil =>
      rw [run_whileNext_nil] at hfailed
      cases hfailed
    | cons t ahead =>
      cases ht : select t with
      | none =>
        rw [run_whileNext_stop ht] at hfailed
        cases hfailed
      | some choice =>
        rw [run_whileNext_round ht, run_bind] at hfailed
        have htail : TokenStream.IsRestOf ⟨ahead, eof⟩ ⟨t :: ahead, eof⟩ :=
          TokenStream.tail_isRestOf t ahead eof
        -- This round fails, or it is done and a later one does, on a shorter stream.
        cases hround : (body t choice state).run ⟨ahead, eof⟩ with
        | failed failure' rest' =>
          rw [hround, Outcome.andThen_failed] at hfailed
          cases hfailed
          exact hlater htail ((hbody t choice state).failed hround)
        | done after mid =>
          rw [hround, Outcome.andThen_done] at hfailed
          have hmid : mid.IsRestOf ⟨ahead, eof⟩ := isRestOf_of_run hround
          have hshorter : mid.ahead.length < n := by
            have hlength := hmid.length_le
            simp only [List.length_cons] at hn hlength
            omega
          exact hlater (hmid.trans htail) (ih _ hshorter after hfailed rfl)

/-- A loop obeys the law if each of its rounds does. -/
theorem Obeys.whileNext {select : Token → Option β} {body : Token → β → σ → Rule TokenStream σ}
    (hbody : ∀ t choice state, (body t choice state).Obeys law) (state : σ) :
    (whileNext select body state).Obeys law :=
  FailsIn.whileNext (P := law.Holds) law.later hbody state

end Combinators

section Productions

variable {σ : Type} {law : FailureLaw} {full : Rule TokenStream Expr}

/-! ## Lists -/

/-- Behind a comma, only an item can fail. -/
theorem obeys_afterComma {stops : TokenKind → Bool} {item : σ → Rule TokenStream σ}
    (hitem : ∀ state, (item state).Obeys law) (state : σ) :
    (afterComma stops item state).Obeys law := by
  refine .bind .peek fun t => ?_
  split
  · exact .pure
  · exact (hitem state).bind fun _ => .pure

/-- Items behind commas obey the law if each item does. -/
theorem obeys_moreItems {stops : TokenKind → Bool} {item : σ → Rule TokenStream σ}
    (hitem : ∀ state, (item state).Obeys law) (start : σ × Bool) :
    (moreItems stops item start).Obeys law := by
  refine .whileNext (fun _ _ state => ?_) start
  exact obeys_afterComma hitem state.1

/-- A list obeys the law if its items do. -/
theorem obeys_items {stops : TokenKind → Bool} {item : σ → Rule TokenStream σ}
    (hitem : ∀ state, (item state).Obeys law) (state : σ) : (items stops item state).Obeys law := by
  refine .bind .peek fun t => ?_
  split
  · exact .pure
  · exact (hitem state).bind fun first => obeys_moreItems hitem (first, false)

/-- Reading one more element obeys the law. -/
theorem obeys_pushExpr (hfull : full.Obeys law) (exprs : Array Expr) :
    (pushExpr full exprs).Obeys law :=
  hfull.bind fun _ => .pure

/-- A list that is not closed is a fault of its own. -/
theorem obeys_closeList {closing : Punct} {what : ListItem} (list : Array Expr × Bool) :
    (closeList closing what list).Obeys law := by
  refine obeys_nextIs.bind fun present => ?_
  split
  · exact .bind .pop fun _ => .pure
  · exact .bind .peek fun _ => .fail nofun

/-- A list of expressions obeys the law. -/
theorem obeys_commaList (hfull : full.Obeys law) {closing : Punct} {what : ListItem} :
    (commaList full closing what).Obeys law :=
  (obeys_items (obeys_pushExpr hfull) #[]).bind obeys_closeList

/-- Parameters obey the law; one that is no name is a fault of its own. -/
theorem obeys_parameters (hfull : full.Obeys law) {what : ListItem} :
    (parameters full what).Obeys law := by
  refine (obeys_commaList hfull).bind fun list => ?_
  split
  · exact .fail nofun
  · exact .pure

/-- Parameters that may be missing obey the law. -/
theorem obeys_optionalParameters (hfull : full.Obeys law) {what : ListItem} :
    (optionalParameters full what).Obeys law := by
  refine obeys_accept.bind fun present => ?_
  split
  · exact (obeys_parameters hfull).bind fun _ => .pure
  · exact .pure

/-! ## Bindings and clauses -/

/-- A binding obeys the law; a name that is taken is a fault of its own. -/
theorem obeys_binding (hfull : full.Obeys law) {taken : String → Bool} :
    -- Each fault stands where it is found, and none of them is special.
    (binding full taken).Obeys law := by
  refine obeys_expect.bind fun name => ?_
  split
  · exact .fail nofun
  · refine (obeys_optionalParameters hfull).bind fun parameters => ?_
    exact obeys_expectOperator.bind fun _ => hfull.bind fun _ => .pure

/-- Reading one more binding obeys the law. -/
theorem obeys_pushBinding (hfull : full.Obeys law) (seen : Array (Binding Expr)) :
    (pushBinding full seen).Obeys law :=
  (obeys_binding hfull).bind fun _ => .pure

/-- The bindings of a local expression obey the law. -/
theorem obeys_bindings (hfull : full.Obeys law) : (bindings full).Obeys law :=
  (obeys_pushBinding hfull #[]).bind fun first =>
    (Obeys.whileNext (fun _ _ seen => obeys_pushBinding hfull seen) first).bind fun _ => .pure

/-- A `for` clause obeys the law. -/
theorem obeys_loopClause (hfull : full.Obeys law) : (loopClause full).Obeys law :=
  obeys_expect.bind fun _ => obeys_expect.bind fun _ => hfull.bind fun _ => .pure

/-- A clause obeys the law, whichever keyword starts it. -/
theorem obeys_clause (hfull : full.Obeys law) (start : ClauseStart) :
    (clause full start).Obeys law := by
  cases start with
  | loop => exact obeys_loopClause hfull
  | condition => exact hfull.bind fun _ => .pure

/-- The clauses of a comprehension obey the law. -/
theorem obeys_clauses (hfull : full.Obeys law) {closing : Punct} :
    (clauses full closing).Obeys law := by
  refine (obeys_loopClause hfull).bind fun first => ?_
  refine (Obeys.whileNext (fun _ start seen => ?_) #[first]).bind fun all => .bind .pop fun found =>
    ?_
  · exact (obeys_clause hfull start).bind fun _ => .pure
  · split
    · exact .pure
    · exact .fail nofun

/-! ## Objects -/

/-- A condition with its message obeys the law. -/
theorem obeys_condition (hfull : full.Obeys law) : (condition full).Obeys law := by
  refine hfull.bind fun cond => obeys_nextIsOperator.bind fun present => ?_
  split
  · exact .bind .pop fun _ => hfull.bind fun _ => .pure
  · exact .pure

/-- The key of a field obeys the law. -/
theorem obeys_key (hfull : full.Obeys law) (t : Token) : (key full t).Obeys law := by
  unfold key
  split
  · exact .pure
  · exact .pure
  · exact hfull.bind fun _ => obeys_expect.bind fun _ => .pure

/-- An operator that assigns nothing is a fault of its own. -/
theorem obeys_assignment : assignment.Obeys law := by
  refine obeys_expect.bind fun found => ?_
  split
  · exact .pure
  · exact .fail nofun

/-- A field whose name was seen is a fault of its own. -/
theorem obeys_freshField {t : Token} {key : FieldKey Expr} {seen : Array (Member Expr)} :
    (freshField t key seen).Obeys law := by
  unfold freshField
  split
  · exact .pure
  · split
    · exact .fail nofun
    · exact .pure

/-- A field obeys the law. -/
theorem obeys_field (hfull : full.Obeys law) (t : Token) (seen : Array (Member Expr)) :
    (field full t seen).Obeys law := by
  refine (obeys_key hfull t).bind fun key => (obeys_optionalParameters hfull).bind fun method => ?_
  refine obeys_assignment.bind fun result => ?_
  obtain ⟨visibility, plus⟩ := result
  -- A plus sign at a method and a name that was seen are faults of the field itself.
  dsimp only
  split
  · exact .fail nofun
  · exact obeys_freshField.bind fun _ => hfull.bind fun _ => .pure

/-- Reading one more member obeys the law. -/
theorem obeys_pushMember (hfull : full.Obeys law) (seen : Array (Member Expr)) :
    (pushMember full seen).Obeys law := by
  refine .bind .pop fun start => ?_
  split
  · exact (obeys_binding hfull).bind fun _ => .pure
  · exact (obeys_condition hfull).bind fun _ => .pure
  · exact (obeys_field hfull start seen).bind fun _ => .pure
  · exact .fail nofun

/-- An object comprehension obeys the law. -/
theorem obeys_objectComp (hfull : full.Obeys law) {opening start : Span}
    {members : List (Member Expr)} {trailingComma : Bool} :
    (objectComp full opening start members trailingComma).Obeys law := by
  unfold objectComp
  split
  · exact .fail nofun
  · exact (obeys_clauses hfull).bind fun _ => .pure

/-- An object obeys the law, behind its opening brace. -/
theorem obeys_object (hfull : full.Obeys law) (opening : Span) :
    (object full opening).Obeys law := by
  refine (obeys_items (obeys_pushMember hfull) #[]).bind fun list => .bind .pop fun found => ?_
  split
  · exact .pure
  · exact obeys_objectComp hfull
  · exact .fail nofun

/-! ## Expressions led by a keyword -/

/-- An assertion obeys the law behind its keyword. -/
theorem obeysBehind_assertForm (hfull : full.Obeys law) : (assertForm full).ObeysBehind law :=
  obeysBehind_pop_bind fun _ => (obeys_condition hfull).bind fun _ =>
    obeys_expect.bind fun _ => hfull.bind fun _ => .pure

/-- An error expression obeys the law behind its keyword. -/
theorem obeysBehind_errorForm (hfull : full.Obeys law) : (errorForm full).ObeysBehind law :=
  obeysBehind_pop_bind fun _ => hfull.bind fun _ => .pure

/-- A conditional obeys the law behind its keyword. -/
theorem obeysBehind_conditionalForm (hfull : full.Obeys law) :
    (conditionalForm full).ObeysBehind law := by
  refine obeysBehind_pop_bind fun start => hfull.bind fun condition => obeys_expect.bind fun _ => ?_
  refine hfull.bind fun whenTrue => obeys_accept.bind fun present => ?_
  split
  · exact hfull.bind fun _ => .pure
  · exact .pure

/-- A function literal obeys the law behind its keyword. -/
theorem obeysBehind_functionForm (hfull : full.Obeys law) :
    (functionForm full).ObeysBehind law := by
  refine obeysBehind_pop_bind fun start => .bind .pop fun found => ?_
  split
  · exact (obeys_parameters hfull).bind fun _ => hfull.bind fun _ => .pure
  · exact .fail nofun

/-- An import obeys the law behind its keyword. -/
theorem obeysBehind_importForm (hfull : full.Obeys law) {shape : String → Shape Expr} :
    (importForm full shape).ObeysBehind law := by
  refine obeysBehind_pop_bind fun start => hfull.bind fun file => ?_
  split
  · exact .pure
  · exact .fail nofun

/-- A local expression obeys the law behind its keyword. -/
theorem obeysBehind_localForm (hfull : full.Obeys law) : (localForm full).ObeysBehind law := by
  refine obeysBehind_pop_bind fun start => ?_
  refine (obeys_bindings hfull).bind fun bindings => .bind .pop fun found => ?_
  split
  · exact hfull.bind fun _ => .pure
  · exact .fail nofun

/-- Every expression that is led by a keyword obeys the law behind the keyword. -/
theorem obeysBehind_ledBy (hfull : full.Obeys law) {kind : TokenKind} {form : Rule TokenStream Expr}
    (h : ledBy? full kind = some form) : form.ObeysBehind law := by
  -- The seven keywords, in the order in which they are told apart.
  unfold ledBy? at h
  split at h <;> cases h
  · exact obeysBehind_assertForm hfull
  · exact obeysBehind_errorForm hfull
  · exact obeysBehind_conditionalForm hfull
  · exact obeysBehind_functionForm hfull
  · exact obeysBehind_importForm hfull
  · exact obeysBehind_importForm hfull
  · exact obeysBehind_localForm hfull

/-! ## Operands -/

/-- A name behind a dot obeys the law. -/
theorem obeys_fieldSelector : fieldSelector.Obeys law := obeys_expect.bind fun _ => .pure

/-- An index in brackets obeys the law. -/
theorem obeys_indexSelector (hfull : full.Obeys law) : (indexSelector full).Obeys law :=
  hfull.bind fun _ => obeys_expect.bind fun _ => .pure

/-- A selection from `super` obeys the law. -/
theorem obeys_superIndex (hfull : full.Obeys law) (start : Span) :
    (superIndex full start).Obeys law := by
  refine .bind .pop fun t => ?_
  split
  · exact obeys_fieldSelector.bind fun _ => .pure
  · exact (obeys_indexSelector hfull).bind fun _ => .pure
  · exact .fail nofun

/-- What follows the first element of an array obeys the law. -/
theorem obeys_arrayEnd (hfull : full.Obeys law) (opening : Span) (start : Array Expr × Bool) :
    (arrayEnd full opening start).Obeys law :=
  (obeys_moreItems (obeys_pushExpr hfull) start).bind fun all => (obeys_closeList all).bind fun _ =>
    .pure

/-- An array or an array comprehension obeys the law, behind its opening bracket. -/
theorem obeys_array (hfull : full.Obeys law) (opening : Span) : (array full opening).Obeys law := by
  refine obeys_nextIs.bind fun empty => ?_
  split
  · exact .bind .pop fun _ => .pure
  · refine hfull.bind fun first => obeys_accept.bind fun comma =>
      obeys_accept.bind fun comprehension => ?_
    split
    · exact (obeys_clauses hfull).bind fun _ => .pure
    · split
      · exact (obeys_afterComma (obeys_pushExpr hfull) #[first]).bind (obeys_arrayEnd hfull opening)
      · exact obeys_arrayEnd hfull opening (#[first], false)

/-- An expression in parentheses obeys the law, behind the opening one. -/
theorem obeys_parenthesised (hfull : full.Obeys law) : (parenthesised full).Obeys law :=
  hfull.bind fun _ => obeys_expect.bind fun _ => .pure

/-- A suffix obeys the law, behind the token that opens it. -/
theorem obeys_suffix (hfull : full.Obeys law) (start : Span) (opening : Token) (kind : Suffix)
    (target : Expr) :
    (suffix full start opening kind target).Obeys law := by
  cases kind with
  | field => exact obeys_fieldSelector.bind fun _ => .pure
  | index => exact (obeys_indexSelector hfull).bind fun _ => .pure
  | arguments =>
    refine (obeys_commaList hfull).bind fun list => .bind .peek fun next => ?_
    exact obeys_accept.bind fun _ => .pure
  | extension => exact (obeys_object hfull opening.span).bind fun _ => .pure

section Number

variable {P : TokenStream → Failure → TokenStream → Prop}

/-- Of an operand without marks, `P` holds if it holds where the law holds behind the first token,
    and where the first token is a number that cannot be read. -/
theorem failsIn_terminal (hP : ∀ {s failure rest}, law.Holds s.skip failure rest → P s failure rest)
    (hnumber : ∀ {s : TokenStream}, s.next.kind = .number → readFloat? s.next.data = none →
      P s { error := ⟨.grammar .badNumber, s.next.span⟩ } s.skip)
    (hfull : full.Obeys law) : (terminal full).FailsIn P := by
  refine .bind .pop fun hpop hfailed => ?_
  cases hpop
  -- Only a number that cannot be read is special; the other tokens give a value or a plain fault.
  split at hfailed
  · next hkind =>
    split at hfailed
    · cases hfailed
    · next hvalue =>
      cases hfailed
      exact hnumber hkind hvalue
  · cases hfailed
  · cases hfailed
  · cases hfailed
  · cases hfailed
  · cases hfailed
  · cases hfailed
  · cases hfailed
  · exact hP ((obeys_superIndex hfull _).failed hfailed)
  · cases hfailed
    exact hP (law.fault _ _ nofun)
  · cases hfailed
    exact hP (law.fault _ _ nofun)

/-- The same of operands without suffixes. -/
theorem failsIn_primary (hP : ∀ {s failure rest}, law.Holds s.skip failure rest → P s failure rest)
    (hnumber : ∀ {s : TokenStream}, s.next.kind = .number → readFloat? s.next.data = none →
      P s { error := ⟨.grammar .badNumber, s.next.span⟩ } s.skip)
    (hfull : full.Obeys law) : (primary full).FailsIn P := by
  refine failsIn_peek_bind fun {s failure rest} hfailed => ?_
  -- Objects, arrays and parentheses take their opening token first.
  split at hfailed
  · exact hP ((obeysBehind_pop_bind fun _ => obeys_object hfull s.next.span).failed hfailed)
  · exact hP ((obeysBehind_pop_bind fun _ => obeys_array hfull s.next.span).failed hfailed)
  · exact hP ((obeysBehind_pop_bind fun _ => obeys_parenthesised hfull).failed hfailed)
  · exact (failsIn_terminal hP hnumber hfull).failed hfailed

/-- The same of operands. -/
theorem failsIn_operand (hP : ∀ {s failure rest}, law.Holds s.skip failure rest → P s failure rest)
    (hnumber : ∀ {s : TokenStream}, s.next.kind = .number → readFloat? s.next.data = none →
      P s { error := ⟨.grammar .badNumber, s.next.span⟩ } s.skip)
    (hfull : full.Obeys law) : (operand full).FailsIn P := by
  refine failsIn_peek_bind fun {s failure rest} hfailed => ?_
  refine (FailsIn.bind (failsIn_primary hP hnumber hfull) fun hrun hsuffixes => ?_).failed hfailed
  -- Behind the primary operand, the suffixes obey the law, so it holds behind the first token.
  refine hP (law.later (takesNext_primary.isRestOf hrun) ?_)
  exact (Obeys.whileNext
    (fun opening kind target => obeys_suffix hfull s.next.span opening kind target)
    _).failed hsuffixes

end Number

end Productions

/-! ## Operators -/

section Operators

variable {law : FailureLaw} {P : TokenStream → Failure → TokenStream → Prop} {g : Level TokenStream}
  {s rest : TokenStream} {failure : Failure}

/-- Nesting that is too deep is reported at the next token, which stays. -/
theorem failed_tooDeep {α : Type}
    (h : (tooDeep : Rule TokenStream α).run s = .failed failure rest) :
    failure = { error := ⟨.grammar (.tooDeep maxNesting), s.next.span⟩ } ∧ rest = s := by
  cases h
  exact ⟨rfl, rfl⟩

/-- A failure that was counted has one more open operator than the failure itself. -/
theorem failed_countUnary {α : Type} {rule : Rule TokenStream α}
    (h : rule.countUnary.run s = .failed failure rest) :
    ∃ inner, rule.run s = .failed inner rest ∧
      failure = { inner with openUnary := inner.openUnary + 1 } := by
  -- Only the count is changed, so the failure inside is still known.
  unfold countUnary at h
  cases hrun : rule.run s with
  | done value mid =>
    simp only [hrun] at h
    cases h
  | failed inner mid =>
    simp only [hrun] at h
    cases h
    exact ⟨inner, rfl, rfl⟩

/-- A unary operation fails because there is no such operator, or because its operand fails. -/
theorem failed_unaryOperation (h : (unaryOperation g).run s = .failed failure rest) :
    failure = { error := ⟨.grammar (.notUnary s.next.data), s.next.span⟩ } ∧ rest = s.skip ∨
      ∃ op, UnaryOp.ofSymbol? s.next.data = some op ∧
        g.operand.run s.skip = .failed failure rest := by
  rw [run_unaryOperation] at h
  split at h
  · next op hop =>
    cases hoperand : g.operand.run s.skip with
    | done e mid =>
      rw [hoperand] at h
      cases h
    | failed inner mid =>
      rw [hoperand] at h
      cases h
      exact .inr ⟨op, hop, rfl⟩
  · cases h
    exact .inl ⟨rfl, rfl⟩

/-- If the law holds behind the first token, `P` holds; then it holds of the failures of unary
    operations and operands if it holds where a number cannot be read and where the operand of an
    operator fails. -/
theorem failsIn_unary (hP : ∀ {s failure rest}, law.Holds s.skip failure rest → P s failure rest)
    (hnumber : ∀ {s : TokenStream}, s.next.kind = .number → readFloat? s.next.data = none →
      P s { error := ⟨.grammar .badNumber, s.next.span⟩ } s.skip)
    (hexpr : ∀ precedence, (g.expr precedence).Obeys law)
    (hoperand :
    ∀ {s failure rest op}, s.next.kind = .operator → UnaryOp.ofSymbol? s.next.data = some op →
      g.operand.run s.skip = .failed failure rest → P s failure rest) :
    (unary g).FailsIn P := by
  constructor
  intro s failure rest hfailed
  rw [run_unary] at hfailed
  split at hfailed
  -- An operator leads to its operand; anything else is an operand without operators.
  · next hkind =>
    obtain ⟨rfl, rfl⟩ | ⟨op, hop, hinner⟩ := failed_unaryOperation hfailed
    · exact hP (law.fault _ _ nofun)
    · exact hoperand hkind hop hinner
  · exact (failsIn_operand hP hnumber (hexpr .loosest)).failed hfailed

/-- A chain of operators obeys the law. -/
theorem obeys_binaryChain (hexpr : ∀ precedence, (g.expr precedence).Obeys law)
    {precedence : Precedence} {start : Span} {left : Expr} :
    (binaryChain g precedence start left).Obeys law := by
  refine (Obeys.whileNext (fun _ op left => ?_) left).bind fun result => .bind .peek fun next => ?_
  · exact (hexpr (op.precedence - 1)).bind fun _ => .pure
  · split
    · exact .fail nofun
    · exact .pure

/-- The same of expressions, if it holds of unary operations and operands. -/
theorem failsIn_expression
    (hP : ∀ {s failure rest}, law.Holds s.skip failure rest → P s failure rest)
    (hexpr : ∀ precedence, (g.expr precedence).Obeys law) (hunary : (unary g).FailsIn P)
    {precedence : Precedence} : (expression g precedence).FailsIn P := by
  constructor
  intro s failure rest hfailed
  rw [expression, run_keywordForm?_bind] at hfailed
  -- A keyword form takes its keyword, so the law holds behind the first token.
  split at hfailed
  · next form hform =>
    have hobeys : form.ObeysBehind law := obeysBehind_ledBy (hexpr .loosest) hform
    exact hP ((hobeys.bind (takesNext_ledBy hform) fun _ => .pure).failed hfailed)
  · rw [run_bind, run_peek, Outcome.andThen_done] at hfailed
    -- The chain starts behind the left operand, which took a token.
    refine (FailsIn.bind hunary fun hrun hchain => ?_).failed hfailed
    exact hP (law.later (takesNext_unary.isRestOf hrun) ((obeys_binaryChain hexpr).failed hchain))

/-- The same of the operand of a unary operator. -/
theorem failsIn_unaryOperand
    (hP : ∀ {s failure rest}, law.Holds s.skip failure rest → P s failure rest)
    (hexpr : ∀ precedence, (g.expr precedence).Obeys law) (hunary : (unary g).FailsIn P) :
    (unaryOperand g).FailsIn P := by
  constructor
  intro s failure rest hfailed
  rw [unaryOperand, run_keywordForm?_bind] at hfailed
  split at hfailed
  · next form hform =>
    have hobeys : form.ObeysBehind law := obeysBehind_ledBy (hexpr .loosest) hform
    exact hP ((hobeys.bind (takesNext_ledBy hform) fun _ => .pure).failed hfailed)
  · exact hunary.failed hfailed

/-- A program obeys the law; a token that is left over is a fault of its own. -/
theorem obeys_program (hexpr : ∀ precedence, (g.expr precedence).Obeys law) :
    (program g).Obeys law := by
  refine (hexpr .loosest).bind fun root => .bind .peek fun next => ?_
  split
  · exact .pure
  · exact .fail nofun

end Operators

end Rule

end JsonnetSyntax
