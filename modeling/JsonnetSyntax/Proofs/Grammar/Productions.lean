import JsonnetSyntax.Grammar.Session
import JsonnetSyntax.Proofs.Grammar.Reads

/-!
# The productions of the grammar

For every rule that builds a part of a tree, a `reads_` lemma says which tokens and which parts it
reads and what it builds from them.  The lemmas are stated for any rule `full` in place of the one
that reads whole expressions, and for any level `g` of nested expressions, so they hold at every
depth.

## Key results

- `Rule.Reads.moreItems_induction`: what every item of a list keeps holds at the end of the list
- `Rule.reads_keywordForm?_bind`: the expressions that a keyword leads
- `Rule.reads_primary`, `Rule.reads_suffix`: the alternatives of an operand
- `Rule.reads_expression`: the two ways to read an expression
- `Rule.reads_program`: programs
-/

namespace JsonnetSyntax

namespace Rule

variable {σ : Type} {eof : EndMark} {ts ts' : List Token} {full : Rule TokenStream Expr}

/-! ## Lists -/

/-- A comma is what a list goes on with. -/
@[simp] theorem comma?_eq_some {t : Token} {u : Unit} :
    comma? t = some u ↔ t.kind = .punct .comma := by
  simp [comma?]

/-- Every other token ends a list. -/
@[simp] theorem comma?_eq_none {t : Token} : comma? t = none ↔ t.kind ≠ .punct .comma := by
  simp [comma?]

/-- Whether a token is a comma depends on its kind alone. -/
theorem comma?_of_kind {t u : Token} (h : u.kind = t.kind) : comma? u = comma? t := by
  rw [comma?, comma?, h]

/-- Behind a comma, a list ends, or it goes on with one more item. -/
theorem reads_afterComma {stops : TokenKind → Bool} {item : σ → Rule TokenStream σ} {state : σ}
    {out : σ × Bool} :
    (afterComma stops item state).Reads eof ts out ts' ↔
      (stops (eof.next ts).kind = true ∧ out = (state, true) ∧ ts' = ts) ∨
        (stops (eof.next ts).kind = false ∧
          ∃ after, (item state).Reads eof ts after ts' ∧ out = (after, false)) := by
  simp [afterComma]

/-- A list is empty, or it is a first item and more items behind commas. -/
theorem reads_items {stops : TokenKind → Bool} {item : σ → Rule TokenStream σ} {state : σ}
    {out : σ × Bool} :
    (items stops item state).Reads eof ts out ts' ↔
      (stops (eof.next ts).kind = true ∧ out = (state, false) ∧ ts' = ts) ∨
        (stops (eof.next ts).kind = false ∧ ∃ first mid, (item state).Reads eof ts first mid ∧
          (moreItems stops item (first, false)).Reads eof mid out ts') := by
  simp [items]

/-- What holds in front of the commas and further items of a list, and what every comma with or
    without an item behind it keeps, holds at the end of the list. -/
theorem Reads.moreItems_induction {stops : TokenKind → Bool} {item : σ → Rule TokenStream σ}
    {start out : σ × Bool} (hcomma : stops (.punct .comma) = false)
    (h : (moreItems stops item start).Reads eof ts out ts')
    (I : σ × Bool → List Token → Prop) (hstart : I start ts)
    (hflag : start.2 = true → stops (eof.next ts).kind = true)
    (hlast : ∀ {t rest state}, t.kind = .punct .comma → stops (eof.next rest).kind = true →
      I (state, false) (t :: rest) → I (state, true) rest)
    (hnext : ∀ {t rest state after mid}, t.kind = .punct .comma →
      (item state).Reads eof rest after mid → I (state, false) (t :: rest) → I (after, false) mid) :
    I out ts' := by
  -- A comma that was read behind the last item is followed by a token that stops the list, which is
  -- no comma: the loop has ended.
  have hloop := h.whileNext_induction
    (fun state ts => I state ts ∧ (state.2 = true → stops (eof.next ts).kind = true))
    ⟨hstart, hflag⟩ ?_
  · exact hloop.1.1
  · intro t rest choice before after mid hselect hbody hbefore
    obtain ⟨state, flag⟩ := before
    obtain ⟨hI, hstop⟩ := hbefore
    have ht := comma?_eq_some.mp hselect
    have hopen : flag = false := by
      cases flag with
      | false => rfl
      | true => simp [ht, hcomma] at hstop
    subst hopen
    obtain ⟨hstops, rfl, rfl⟩ | ⟨_, after, hitem, rfl⟩ := reads_afterComma.mp hbody
    · exact ⟨hlast ht hstops hI, fun _ => hstops⟩
    · exact ⟨hnext ht hitem hI, fun hfalse => absurd hfalse (by simp)⟩

/-- One more element is one more expression. -/
theorem reads_pushExpr {exprs out : Array Expr} :
    (pushExpr full exprs).Reads eof ts out ts' ↔
      ∃ e, full.Reads eof ts e ts' ∧ out = exprs.push e := by
  simp [pushExpr]

/-- A list closes at its mark, which is taken. -/
theorem reads_closeList {closing : Punct} {what : ListItem} {list : Array Expr × Bool}
    {out : CommaList} :
    (closeList closing what list).Reads eof ts out ts' ↔
      ts = out.closing :: ts' ∧ out.closing.kind = .punct closing ∧
        out = ⟨list.1.toList, list.2, out.closing⟩ := by
  cases ts with
  | nil => simp [closeList]
  | cons t rest =>
    by_cases ht : t.kind = .punct closing
    · -- The mark is there: it is taken, and the list is known by it.
      simp only [closeList, reads_nextIs_bind, EndMark.next_cons, ht, beq_self_eq_true, if_true,
        bind_pure_comp, reads_map, reads_pop_cons, and_assoc, exists_eq_left]
      constructor
      · intro h
        obtain ⟨rfl, rfl⟩ := h
        exact ⟨rfl, ht, rfl⟩
      · intro h
        obtain ⟨hcons, -, hout⟩ := h
        cases hcons
        exact ⟨rfl, hout⟩
    · -- The mark is missing: the rule fails.
      simp only [closeList, reads_nextIs_bind, EndMark.next_cons, beq_eq_false_iff_ne.mpr ht,
        Bool.false_eq_true, if_false, reads_peek_bind, reads_fail, false_iff]
      intro h
      obtain ⟨hcons, hclosing, -⟩ := h
      cases hcons
      exact ht hclosing

/-- A closed list is a row of items up to the mark that closes it. -/
theorem reads_commaList {closing : Punct} {what : ListItem} {out : CommaList} :
    (commaList full closing what).Reads eof ts out ts' ↔
      (items (· == .punct closing) (pushExpr full) #[]).Reads eof ts
          (out.exprs.toArray, out.trailingComma) (out.closing :: ts') ∧
        out.closing.kind = .punct closing := by
  rw [commaList, reads_bind]
  constructor
  · intro h
    obtain ⟨list, mid, hitems, hclose⟩ := h
    obtain ⟨rfl, hkind, hout⟩ := reads_closeList.mp hclose
    rw [hout] at hitems ⊢
    exact ⟨hitems, hkind⟩
  · intro h
    obtain ⟨hitems, hkind⟩ := h
    exact ⟨_, _, hitems, reads_closeList.mpr ⟨rfl, hkind, rfl⟩⟩

/-- A function is defined on all elements of a list if no search finds one on which it is not. -/
private theorem map_eq_map_some_iff {α β : Type} {f : α → Option β} {xs : List α} {ys : List β} :
    xs.map f = ys.map some ↔ xs.find? (fun x => (f x).isNone) = none ∧ xs.filterMap f = ys := by
  induction xs generalizing ys with
  | nil => cases ys <;> simp
  | cons x xs ih =>
    -- An element without a value is the one that the search finds.
    cases hx : f x with
    | none => cases ys <;> simp [hx]
    | some y =>
      cases ys with
      | nil => simp [hx]
      | cons y' ys =>
        simp only [List.map_cons, hx, List.cons.injEq, Option.some.injEq, ih, List.find?_cons,
          Option.isNone_some, List.filterMap_cons]
        exact and_left_comm

/-- Parameters are a list of expressions, each of which is a name. -/
theorem reads_parameters {what : ListItem} {out : Parameters} :
    (parameters full what).Reads eof ts out ts' ↔
      ∃ list, (commaList full .parenR what).Reads eof ts list ts' ∧
        list.exprs.map Expr.identifier? = out.names.map some ∧
        out.trailingComma = list.trailingComma := by
  obtain ⟨names, trailingComma⟩ := out
  simp only [parameters, reads_bind, map_eq_map_some_iff]
  constructor
  · intro h
    obtain ⟨list, mid, hlist, hout⟩ := h
    -- The first expression that is no name is a fault; without one, the names are all there.
    split at hout
    · exact absurd hout reads_fail
    · next hnames =>
      obtain ⟨heq, rfl⟩ := reads_pure.mp hout
      cases heq
      exact ⟨list, hlist, ⟨hnames, rfl⟩, rfl⟩
  · intro h
    obtain ⟨list, hlist, ⟨hnames, rfl⟩, rfl⟩ := h
    refine ⟨list, ts', hlist, ?_⟩
    rw [hnames]
    exact reads_pure.mpr ⟨rfl, rfl⟩

/-- Parameters start with a parenthesis; without one, there are none. -/
theorem reads_optionalParameters {what : ListItem} {out : Option Parameters} :
    (optionalParameters full what).Reads eof ts out ts' ↔
      (∃ t rest, ts = t :: rest ∧ t.kind = .punct .parenL ∧
        ∃ p, (parameters full what).Reads eof rest p ts' ∧ out = some p) ∨
      (eof.next ts).kind ≠ .punct .parenL ∧ out = none ∧ ts' = ts := by
  simp [optionalParameters]

/-! ## Bindings -/

/-- A binding is a fresh name, parameters if there are any, an equals sign and a body. -/
theorem reads_binding {taken : String → Bool} {out : Binding Expr} :
    (binding full taken).Reads eof ts out ts' ↔
      ∃ name mid, ts = name :: mid ∧ name.kind = .identifier ∧ taken name.data = false ∧
      ∃ parameters mid',
        (optionalParameters full .functionParameter).Reads eof mid parameters mid' ∧
      ∃ assign rest, mid' = assign :: rest ∧ assign.isOperator "=" = true ∧
      ∃ body, full.Reads eof rest body ts' ∧ out = ⟨name.data, body, parameters⟩ := by
  simp [binding, and_assoc]

/-- One more binding has another name than the bindings in front of it. -/
theorem reads_pushBinding {seen out : Array (Binding Expr)} :
    (pushBinding full seen).Reads eof ts out ts' ↔
      ∃ b, (binding full fun name => seen.any fun b => b.name == name).Reads eof ts b ts' ∧
        out = seen.push b := by
  simp [pushBinding]

/-- Bindings are a first one and more behind commas. -/
theorem reads_bindings {out : List (Binding Expr)} :
    (bindings full).Reads eof ts out ts' ↔
      ∃ first mid, (pushBinding full #[]).Reads eof ts first mid ∧
      ∃ all, (whileNext comma? (fun _ _ seen => pushBinding full seen) first).Reads eof mid all
        ts' ∧
        out = all.toList := by
  simp [bindings]

/-! ## Comprehension clauses -/

/-- A `for` clause is a name, the keyword `in` and a source. -/
theorem reads_loopClause {out : Clause Expr} :
    (loopClause full).Reads eof ts out ts' ↔
      ∃ name mid, ts = name :: mid ∧ name.kind = .identifier ∧
      ∃ among rest, mid = among :: rest ∧ among.kind = .keyword .in ∧
      ∃ source, full.Reads eof rest source ts' ∧ out = .forIn name.data source := by
  simp [loopClause, and_assoc]

/-- Clauses are a `for` clause, any further clauses, and the mark that closes them. -/
theorem reads_clauses {closing : Punct} {out : List (Clause Expr) × Span} :
    (clauses full closing).Reads eof ts out ts' ↔
      ∃ first mid, (loopClause full).Reads eof ts first mid ∧
      ∃ all mid', (whileNext ClauseStart.ofToken?
          (fun _ start seen => return seen.push (← clause full start)) #[first]).Reads eof mid all
            mid' ∧
      ∃ t rest,
        mid' = t :: rest ∧ t.kind = .punct closing ∧ out = (all.toList, t.span) ∧ ts' = rest := by
  simp [clauses, reads_pop_if]

/-- The keyword of a clause. -/
def clauseWord : ClauseStart → Keyword
  | .loop => .for
  | .condition => .if

/-- A clause starts with its keyword and with no other token. -/
theorem ofToken?_eq_clause {t : Token} {start : ClauseStart} :
    ClauseStart.ofToken? t = some start ↔ t.kind = .keyword (clauseWord start) := by
  unfold ClauseStart.ofToken?
  cases start with
  | loop => split <;> simp_all [clauseWord]
  | condition => split <;> simp_all [clauseWord]

/-- Whether a token starts a clause depends on its kind alone. -/
theorem clauseStart_of_kind {t u : Token} (h : u.kind = t.kind) :
    ClauseStart.ofToken? u = ClauseStart.ofToken? t := by
  rw [ClauseStart.ofToken?, ClauseStart.ofToken?, h]

/-- Behind `for` stands what a loop clause is made of. -/
theorem reads_clause_loop {out : Clause Expr} :
    (clause full .loop).Reads eof ts out ts' ↔ (loopClause full).Reads eof ts out ts' := Iff.rfl

/-- Behind `if` stands a condition. -/
theorem reads_clause_condition {out : Clause Expr} :
    (clause full .condition).Reads eof ts out ts' ↔
      ∃ e, full.Reads eof ts e ts' ∧ out = .onlyIf e := by
  simp [clause]

/-! ## Objects -/

/-- A condition may have a message, behind a colon. -/
theorem reads_condition {out : Expr × Option Expr} :
    (condition full).Reads eof ts out ts' ↔
      ∃ cond mid, full.Reads eof ts cond mid ∧
      ((∃ colon rest, mid = colon :: rest ∧ colon.isOperator ":" = true ∧
        ∃ message, full.Reads eof rest message ts' ∧ out = (cond, some message)) ∨
      ((eof.next mid).isOperator ":" = false ∧ out = (cond, none) ∧ ts' = mid)) := by
  -- The end mark is no operator, so a message needs a token of its own.
  have hend : ¬ eof.1.isOperator ":" = true := by simp
  rw [condition, reads_bind]
  refine exists_congr fun cond => exists_congr fun mid => and_congr_right fun _ => ?_
  rw [reads_nextIsOperator_bind, reads_ite,
    reads_pop_of_next (P := fun t => t.isOperator ":" = true) hend]
  simp

/-- The operator of a field is a single token. -/
theorem reads_assignment {out : Visibility × Bool} :
    assignment.Reads eof ts out ts' ↔
      ∃ t, ts = t :: ts' ∧ t.kind = .operator ∧ assignment? t.data = some out := by
  simp only [assignment, reads_bind, ne_eq, reduceCtorEq, not_false_eq_true, reads_expect,
    and_assoc]
  constructor
  · intro h
    -- The text of the operator decides; one that assigns nothing is a fault.
    obtain ⟨t, rest, rfl, ht, hout⟩ := h
    split at hout
    · next result hresult =>
      obtain ⟨rfl, rfl⟩ := reads_pure.mp hout
      exact ⟨t, rfl, ht, hresult⟩
    · exact absurd hout reads_fail
  · intro h
    obtain ⟨t, rfl, ht, hout⟩ := h
    refine ⟨t, ts', rfl, ht, ?_⟩
    rw [hout]
    exact reads_pure.mpr ⟨rfl, rfl⟩

/-- The kinds of tokens that the key of a field starts with. -/
inductive StartsKey : TokenKind → Prop where
  | identifier : StartsKey .identifier
  | string (form : StringForm) : StartsKey (.string form)
  | bracket : StartsKey (.punct .bracketL)

/-- A key is a name, a string, or an expression in brackets. -/
theorem reads_key {t : Token} (ht : StartsKey t.kind) {out : FieldKey Expr} :
    (key full t).Reads eof ts out ts' ↔
      (t.kind = .identifier ∧ out = .identifier t.data ∧ ts' = ts) ∨
      (∃ form,
        t.kind = .string form ∧ out = .string (.node t.span (t.stringShape form)) ∧ ts' = ts) ∨
      (t.kind = .punct .bracketL ∧
        ∃ e mid, full.Reads eof ts e mid ∧
        ∃ closing, mid = closing :: ts' ∧ closing.kind = .punct .bracketR ∧ out = .computed e) := by
  -- Only the kind of the first token matters, and it is one of three.
  unfold key
  generalize t.kind = kind at ht ⊢
  cases ht <;> simp [and_assoc]

/-- A key with a literal name may not repeat the name of an earlier field. -/
theorem reads_freshField {t : Token} {key : FieldKey Expr} {seen : Array (Member Expr)} {u : Unit} :
    (freshField t key seen).Reads eof ts u ts' ↔
      ts' = ts ∧
        ∀ name, key.literalName? = some name → ∀ m ∈ seen.toList, m.fieldName? ≠ some name := by
  unfold freshField
  split
  · next h => simp [h]
  · next name h => simp [h, ← Array.any_toList, and_comm]

/-- A field is a key, parameters if there are any, an operator and a body. -/
theorem reads_field {t : Token} {seen : Array (Member Expr)} {out : Field Expr} :
    (field full t seen).Reads eof ts out ts' ↔
      ∃ k mid, (key full t).Reads eof ts k mid ∧
      ∃ method mid', (optionalParameters full .methodParameter).Reads eof mid method mid' ∧
      ∃ visibility plus mid'', assignment.Reads eof mid' (visibility, plus) mid'' ∧
      (plus = true → method = none) ∧
      (∀ name, k.literalName? = some name → ∀ m ∈ seen.toList, m.fieldName? ≠ some name) ∧
      ∃ body, full.Reads eof mid'' body ts' ∧ out = ⟨k, visibility, plus, method, body⟩ := by
  simp [field, reads_freshField, and_assoc]

/-- Only `local` starts a binding in an object. -/
theorem ofKind?_eq_binding {kind : TokenKind} :
    MemberStart.ofKind? kind = some .binding ↔ kind = .keyword .local := by
  unfold MemberStart.ofKind?
  split <;> simp_all

/-- Only `assert` starts an assertion in an object. -/
theorem ofKind?_eq_assertion {kind : TokenKind} :
    MemberStart.ofKind? kind = some .assertion ↔ kind = .keyword .assert := by
  unfold MemberStart.ofKind?
  split <;> simp_all

/-- The other starts of members are those of keys. -/
theorem startsKey_iff {kind : TokenKind} :
    StartsKey kind ↔
      ∃ start, MemberStart.ofKind? kind = some start ∧ start ≠ .binding ∧ start ≠ .assertion := by
  constructor
  · intro h
    cases h <;> simp [MemberStart.ofKind?]
  · intro h
    obtain ⟨start, hstart, hbinding, hassertion⟩ := h
    unfold MemberStart.ofKind? at hstart
    split at hstart
    · exact .bracket
    · exact .identifier
    · exact .string _
    · exact absurd (Option.some.inj hstart).symm hbinding
    · exact absurd (Option.some.inj hstart).symm hassertion
    · cases hstart

/-- A member is a local binding, an assertion or a field, told apart by its first token. -/
theorem reads_pushMember {seen out : Array (Member Expr)} :
    (pushMember full seen).Reads eof ts out ts' ↔
      ∃ start rest, ts = start :: rest ∧
      ((start.kind = .keyword .local ∧
        ∃ b, (binding full fun name => seen.any fun m => m.localName? == some name).Reads eof rest b
          ts' ∧
          out = seen.push (.binding b)) ∨
      (start.kind = .keyword .assert ∧
        ∃ cond message, (condition full).Reads eof rest (cond, message) ts' ∧
          out = seen.push (.assertion cond message)) ∨
      (StartsKey start.kind ∧
        ∃ f, (field full start seen).Reads eof rest f ts' ∧ out = seen.push (.field f))) := by
  cases ts with
  | nil => simp [pushMember, reads_pop, MemberStart.ofKind?]
  | cons start rest =>
    rw [pushMember, reads_pop_cons_bind, exists_cons_eq]
    constructor
    · intro h
      -- The cases follow the rule: a local binding, an assertion, any other start, no start.
      split at h
      · next hstart =>
        refine .inl ⟨ofKind?_eq_binding.mp hstart, ?_⟩
        simpa using h
      · next hstart =>
        refine .inr (.inl ⟨ofKind?_eq_assertion.mp hstart, ?_⟩)
        simpa using h
      · next first hbinding hassertion hstart =>
        refine .inr (.inr ⟨startsKey_iff.mpr ⟨first, hstart, hbinding, hassertion⟩, ?_⟩)
        simpa using h
      · exact absurd h reads_fail
    · intro h
      obtain ⟨hkind, h⟩ | ⟨hkind, h⟩ | ⟨hkind, h⟩ := h
      · rw [ofKind?_eq_binding.mpr hkind]
        simpa using h
      · rw [ofKind?_eq_assertion.mpr hkind]
        simpa using h
      · obtain ⟨first, hfirst, hbinding, hassertion⟩ := startsKey_iff.mp hkind
        rw [hfirst]
        -- All starts but those two lead to a field.
        cases first with
        | binding => exact absurd rfl hbinding
        | assertion => exact absurd rfl hassertion
        | _ => simpa using h

/-- An object comprehension is made of members that allow it, and of clauses. -/
theorem reads_objectComp {opening start : Span} {members : List (Member Expr)}
    {trailingComma : Bool} {out : Expr} :
    (objectComp full opening start members trailingComma).Reads eof ts out ts' ↔
      comprehensionFault? members = none ∧
      ∃ cs closing, (clauses full .braceR).Reads eof ts (cs, closing) ts' ∧
        out = .node (.between opening closing) (.objectComp members trailingComma cs) := by
  unfold objectComp
  split
  · next fault h => simp [h]
  · next h => simp [h]

/-- An object is its members up to a brace, or a comprehension behind the keyword `for`. -/
theorem reads_object {opening : Span} {out : Expr} :
    (object full opening).Reads eof ts out ts' ↔
      ∃ members trailingComma mid,
        (items endsMembers (pushMember full) #[]).Reads eof ts (members, trailingComma) mid ∧
      ∃ t rest, mid = t :: rest ∧
      ((t.kind = .punct .braceR ∧ ts' = rest ∧
        out = .node (.between opening t.span) (.object members.toList trailingComma)) ∨
      (t.kind = .keyword .for ∧
        (objectComp full opening t.span members.toList trailingComma).Reads eof rest out ts')) := by
  rw [object, reads_bind, Prod.exists]
  -- The members are the same in both directions; only what ends them is told apart.
  refine exists_congr fun members => exists_congr fun trailingComma => exists_congr fun mid =>
    and_congr_right fun _ => ?_
  cases mid with
  | nil => simp [reads_pop]
  | cons t rest =>
    rw [reads_pop_cons_bind, exists_cons_eq]
    constructor
    · intro h
      split at h
      · next ht => exact .inl ⟨ht, (reads_pure.mp h).2, (reads_pure.mp h).1⟩
      · next ht => exact .inr ⟨ht, h⟩
      · exact absurd h reads_fail
    · intro h
      obtain ⟨ht, rfl, rfl⟩ | ⟨ht, h⟩ := h
      · rw [ht]
        exact reads_pure.mpr ⟨rfl, rfl⟩
      · rw [ht]
        exact h

/-! ## Expressions led by a keyword -/

/-- An assertion is a condition, a semicolon and the expression it stands in front of. -/
theorem reads_assertForm {t : Token} {out : Expr} :
    (assertForm full).Reads eof (t :: ts) out ts' ↔
      ∃ cond message mid, (condition full).Reads eof ts (cond, message) mid ∧
      ∃ semicolon mid', mid = semicolon :: mid' ∧ semicolon.kind = .punct .semicolon ∧
      ∃ rest, full.Reads eof mid' rest ts' ∧
        out = .node (.between t.span rest.span) (.assert cond message rest) := by
  simp [assertForm, and_assoc]

/-- An error expression is the keyword and a message. -/
theorem reads_errorForm {t : Token} {out : Expr} :
    (errorForm full).Reads eof (t :: ts) out ts' ↔
      ∃ message, full.Reads eof ts message ts' ∧
        out = .node (.between t.span message.span) (.error message) := by
  simp [errorForm]

/-- A conditional is a condition and one branch or two. -/
theorem reads_conditionalForm {t : Token} {out : Expr} :
    (conditionalForm full).Reads eof (t :: ts) out ts' ↔
      ∃ cond mid, full.Reads eof ts cond mid ∧
      ∃ t' mid', mid = t' :: mid' ∧ t'.kind = .keyword .then ∧
      ∃ whenTrue after, full.Reads eof mid' whenTrue after ∧
      ((∃ t'' rest, after = t'' :: rest ∧ t''.kind = .keyword .else ∧
        ∃ whenFalse, full.Reads eof rest whenFalse ts' ∧
          out = .node (.between t.span whenFalse.span)
            (.conditional cond whenTrue (some whenFalse))) ∨
      ((eof.next after).kind ≠ .keyword .else ∧
        out = .node (.between t.span whenTrue.span) (.conditional cond whenTrue none) ∧
        ts' = after)) := by
  simp [conditionalForm, and_assoc]

/-- A function literal is a list of parameters and a body. -/
theorem reads_functionForm {t : Token} {out : Expr} :
    (functionForm full).Reads eof (t :: ts) out ts' ↔
      ∃ opening mid, ts = opening :: mid ∧ opening.kind = .punct .parenL ∧
      ∃ ps mid', (parameters full .functionParameter).Reads eof mid ps mid' ∧
      ∃ body, full.Reads eof mid' body ts' ∧
        out = .node (.between t.span body.span) (.function ps body) := by
  simp [functionForm, reads_pop_if]

/-- An import is an expression that is a text, which names the file. -/
theorem reads_importForm {shape : String → Shape Expr} {t : Token} {out : Expr} :
    (importForm full shape).Reads eof (t :: ts) out ts' ↔
      ∃ file, full.Reads eof ts file ts' ∧ ∃ name, file.stringValue? = some name ∧
        out = .node (.between t.span file.span) (shape name) := by
  rw [importForm, reads_pop_cons_bind, reads_bind]
  constructor
  · intro h
    obtain ⟨file, mid, hfile, h⟩ := h
    -- The file must be named by a text, which is known once the expression is read.
    split at h
    · next name hname =>
      obtain ⟨rfl, rfl⟩ := reads_pure.mp h
      exact ⟨file, hfile, name, hname, rfl⟩
    · exact absurd h reads_fail
  · intro h
    obtain ⟨file, hfile, name, hname, rfl⟩ := h
    refine ⟨file, ts', hfile, ?_⟩
    rw [hname]
    exact reads_pure.mpr ⟨rfl, rfl⟩

/-- A local expression is a list of bindings, a semicolon and a body. -/
theorem reads_localForm {t : Token} {out : Expr} :
    (localForm full).Reads eof (t :: ts) out ts' ↔
      ∃ bs mid, (bindings full).Reads eof ts bs mid ∧
      ∃ semicolon rest, mid = semicolon :: rest ∧ semicolon.kind = .punct .semicolon ∧
      ∃ body, full.Reads eof rest body ts' ∧
        out = .node (.between t.span body.span) (.local bs body) := by
  simp [localForm, reads_pop_if]

/-- The rule for the expression that a token of a kind leads. -/
def ledBy? (full : Rule TokenStream Expr) : TokenKind → Option (Rule TokenStream Expr)
  | .keyword .assert => some (assertForm full)
  | .keyword .error => some (errorForm full)
  | .keyword .if => some (conditionalForm full)
  | .keyword .function => some (functionForm full)
  | .keyword .import => some (importForm full .import)
  | .keyword .importstr => some (importForm full .importstr)
  | .keyword .local => some (localForm full)
  | _ => none

/-- The next token decides which rule reads a keyword form. -/
theorem keywordForm?_eq (full : Rule TokenStream Expr) :
    keywordForm? full = peek >>= fun t =>
      match ledBy? full t.kind with
      | some form => some <$> form
      | none => pure none := by
  unfold keywordForm?
  congr
  funext t
  generalize t.kind = kind
  unfold ledBy?
  split <;> simp

/-- What follows the look for a keyword form gets the form, or goes on in front of the same
    token. -/
theorem reads_keywordForm?_bind {next : Option Expr → Rule TokenStream Expr} {out : Expr} :
    (keywordForm? full >>= next).Reads eof ts out ts' ↔
      (∃ form, ledBy? full (eof.next ts).kind = some form ∧
        ∃ e mid, form.Reads eof ts e mid ∧ (next (some e)).Reads eof mid out ts') ∨
      (ledBy? full (eof.next ts).kind = none ∧ (next none).Reads eof ts out ts') := by
  rw [keywordForm?_eq, bind_assoc, reads_peek_bind]
  cases h : ledBy? full (eof.next ts).kind with
  | none => simp
  | some form => simp

/-! ## Operands -/

/-- Behind a dot stands a name. -/
theorem reads_fieldSelector {out : Selector Expr × Span} :
    fieldSelector.Reads eof ts out ts' ↔
      ∃ name, ts = name :: ts' ∧ name.kind = .identifier ∧ out = (.field name.data, name.span) := by
  simp [fieldSelector, and_assoc]

/-- Behind an opening bracket stands an index, and the closing one. -/
theorem reads_indexSelector {out : Selector Expr × Span} :
    (indexSelector full).Reads eof ts out ts' ↔
      ∃ index mid, full.Reads eof ts index mid ∧
      ∃ closing, mid = closing :: ts' ∧ closing.kind = .punct .bracketR ∧
        out = (.expr index, closing.span) := by
  simp [indexSelector, and_assoc]

/-- A selector behind a dot or behind an opening bracket. -/
theorem reads_superIndex {start : Span} {out : Expr} :
    (superIndex full start).Reads eof ts out ts' ↔
      ∃ t rest, ts = t :: rest ∧ ∃ selector last,
        (t.kind = .punct .dot ∧ fieldSelector.Reads eof rest (selector, last) ts' ∨
          t.kind = .punct .bracketL ∧ (indexSelector full).Reads eof rest (selector, last) ts') ∧
        out = .node (.between start last) (.superIndex selector) := by
  cases ts with
  | nil => simp [superIndex, reads_pop]
  | cons t rest =>
    rw [superIndex, reads_pop_cons_bind, exists_cons_eq]
    constructor
    -- Behind `super` stands a dot or a bracket; anything else is a fault.
    · intro h
      split at h
      · next ht => simpa [ht] using h
      · next ht => simpa [ht] using h
      · exact absurd h reads_fail
    · intro h
      obtain ⟨selector, last, ⟨ht, h⟩ | ⟨ht, h⟩, rfl⟩ := h
      · rw [ht]
        exact reads_bind.mpr ⟨(selector, last), ts', h, reads_pure.mpr ⟨rfl, rfl⟩⟩
      · rw [ht]
        exact reads_bind.mpr ⟨(selector, last), ts', h, reads_pure.mpr ⟨rfl, rfl⟩⟩

/-- The construct that a token is on its own. -/
def terminalShape? (t : Token) : Option (Shape Expr) :=
  match t.kind with
  | .number => (readFloat? t.data).map fun value => .number value t.data
  | .string form => some (t.stringShape form)
  | .keyword .true => some (.boolean true)
  | .keyword .false => some (.boolean false)
  | .keyword .null => some .null
  | .keyword .self => some .self
  | .punct .dollar => some .dollar
  | .identifier => some (.var t.data t.data)
  | _ => none

/-- The construct that a token is on its own has no sub-expressions. -/
theorem children_of_terminalShape {t : Token} {shape : Shape Expr}
    (h : terminalShape? t = some shape) :
    shape.children = [] := by
  unfold terminalShape? at h
  split at h
  -- A number is read from its text; the other tokens are leaves without a look at theirs.
  · obtain ⟨value, -, rfl⟩ := Option.map_eq_some_iff.mp h
    rfl
  all_goals
    cases h
    try rfl

/-- A token that is an operand on its own starts no construct in another way. -/
theorem kind_of_terminalShape {t : Token} {shape : Shape Expr} (h : terminalShape? t = some shape) :
    t.kind ≠ .operator ∧ ledBy? full t.kind = none ∧ t.kind ≠ .punct .braceL ∧
      t.kind ≠ .punct .bracketL ∧ t.kind ≠ .punct .parenL := by
  unfold terminalShape? at h
  split at h <;> simp_all [ledBy?]

/-- An operand of one token is that token; `super` goes on with a selector. -/
theorem reads_terminal {out : Expr} :
    (terminal full).Reads eof ts out ts' ↔
      ∃ t rest, ts = t :: rest ∧
      ((∃ shape, terminalShape? t = some shape ∧ out = .node t.span shape ∧ ts' = rest) ∨
        t.kind = .keyword .super ∧ (superIndex full t.span).Reads eof rest out ts') := by
  cases ts with
  | nil => simp [terminal, reads_pop]
  | cons t rest =>
    rw [terminal, reads_pop_cons_bind, exists_cons_eq]
    constructor
    · intro h
      unfold terminalShape?
      -- Only the number has two outcomes: its text may be no number.
      split at h
      · split at h <;> simp_all
      all_goals simp_all
    · intro h
      obtain ⟨shape, hshape, rfl, rfl⟩ | ⟨ht, h⟩ := h
      · unfold terminalShape? at hshape
        split at hshape
        · next ht =>
          obtain ⟨value, hvalue, rfl⟩ := Option.map_eq_some_iff.mp hshape
          simp [ht, hvalue]
        all_goals simp_all
      · rw [ht]
        exact h

/-- The rest of an array that is no comprehension, behind the items in `start`. -/
def arrayEnd {S : Type} [TokenSource S] (full : Rule S Expr) (opening : Span)
    (start : Array Expr × Bool) : Rule S Expr := do
  let all ← moreItems (fun kind => kind == .punct .bracketR) (pushExpr full) start
  let list ← closeList .bracketR .element all
  return .node (.between opening list.closing.span) (.array list.exprs list.trailingComma)

/-- The end of an array behind its first element is read like the end of any list: a comma that was
    taken to look for a comprehension belongs to the list. -/
theorem reads_moreItems_bind {β : Type} {stops : TokenKind → Bool} {item : σ → Rule TokenStream σ}
    {state : σ} {comma : Bool} {mid : List Token} {next : σ × Bool → Rule TokenStream β} {out : β}
    (hcomma : (accept (.punct .comma)).Reads eof ts comma mid) :
    (if comma then afterComma stops item state >>= fun start => moreItems stops item start >>= next
      else pure (state, false) >>= fun start => moreItems stops item start >>= next).Reads
        eof mid out ts' ↔
      (moreItems stops item (state, false) >>= next).Reads eof ts out ts' := by
  obtain ⟨t, rfl, ht, rfl⟩ | ⟨_, rfl, rfl⟩ := (reads_accept (by simp)).mp hcomma
  · -- The comma that was accepted is the one that the first round of the loop takes.
    rw [if_pos rfl, reads_bind, reads_bind]
    constructor
    · intro h
      obtain ⟨start, mid₁, hstart, h⟩ := h
      obtain ⟨all, mid₂, hmore, hnext⟩ := reads_bind.mp h
      refine ⟨all, mid₂, reads_whileNext.mpr (.inr ?_), hnext⟩
      exact ⟨t, mid, (), start, mid₁, rfl, comma?_eq_some.mpr ht, hstart, hmore⟩
    · intro h
      obtain ⟨all, mid₂, hmore, hnext⟩ := h
      -- The loop cannot have stopped in front of the comma, and its first round is the one on the
      -- left.
      obtain ⟨-, -, hstop⟩ | ⟨_, _, _, start, mid₁, heq, -, hstart, hmore⟩ :=
        reads_whileNext.mp hmore
      · simp [ht] at hstop
      · cases heq
        exact ⟨start, mid₁, hstart, reads_bind.mpr ⟨all, mid₂, hmore, hnext⟩⟩
  · rw [if_neg (by simp), pure_bind]

/-- An array is a list of expressions up to a bracket, or a comprehension. -/
theorem Reads.array_cases {opening : Span} {out : Expr}
    (h : (array full opening).Reads eof ts out ts') :
    (∃ list, (commaList full .bracketR .element).Reads eof ts list ts' ∧
      out = .node (.between opening list.closing.span) (.array list.exprs list.trailingComma)) ∨
    (∃ first mid, full.Reads eof ts first mid ∧
      ∃ comma mid', (accept (.punct .comma)).Reads eof mid comma mid' ∧
      ∃ t rest, mid' = t :: rest ∧ t.kind = .keyword .for ∧
      ∃ cs closing, (clauses full .bracketR).Reads eof rest (cs, closing) ts' ∧
        out = .node (.between opening closing) (.arrayComp first comma cs)) := by
  -- The end mark is no bracket, so an empty array closes at a token of its own.
  have hend : ¬ eof.1.kind = .punct .bracketR := by simp
  rw [array, reads_nextIs_bind, reads_ite] at h
  simp only [beq_iff_eq] at h
  rw [reads_pop_of_next (P := fun t => t.kind = .punct .bracketR) hend] at h
  obtain ⟨t, rest, rfl, ht, h⟩ | ⟨hopen, h⟩ := h
  · -- Nothing stands between the brackets.
    obtain ⟨rfl, rfl⟩ := reads_pure.mp h
    refine .inl ⟨⟨[], false, t⟩, reads_commaList.mpr ⟨?_, ht⟩, rfl⟩
    exact reads_items.mpr (.inl ⟨by simp [ht], rfl, rfl⟩)
  · obtain ⟨first, mid, hfirst, h⟩ := reads_bind.mp h
    obtain ⟨comma, mid', hcomma, h⟩ := reads_bind.mp h
    rw [reads_accept_bind (by simp)] at h
    obtain ⟨t, rest, rfl, ht, h⟩ | ⟨_, h⟩ := h
    · -- A `for` behind the first element makes a comprehension.
      obtain ⟨⟨cs, closing⟩, rest', hclauses, hout⟩ := reads_bind.mp h
      obtain ⟨rfl, rfl⟩ := reads_pure.mp hout
      exact .inr
        ⟨first, mid, hfirst, comma, _, hcomma, t, rest, rfl, ht, cs, closing, hclauses, rfl⟩
    · -- Otherwise the element is the first of a list.
      rw [if_neg (by simp)] at h
      obtain ⟨all, mid₁, hmore, h⟩ := reads_bind.mp ((reads_moreItems_bind hcomma).mp h)
      obtain ⟨list, mid₂, hclose, hout⟩ := reads_bind.mp h
      obtain ⟨rfl, rfl⟩ := reads_pure.mp hout
      obtain ⟨rfl, hclosing, hlist⟩ := reads_closeList.mp hclose
      have hitems : (items (· == .punct .bracketR) (pushExpr full) #[]).Reads eof ts all
          (list.closing :: ts') :=
        reads_items.mpr (.inr ⟨by simpa using hopen, #[first], mid,
          reads_pushExpr.mpr ⟨first, hfirst, rfl⟩, hmore⟩)
      refine .inl ⟨list, reads_commaList.mpr ⟨?_, hclosing⟩, rfl⟩
      rw [hlist]
      exact hitems

/-- An expression in parentheses ends at the closing one. -/
theorem reads_parenthesised {out : Expr} :
    (parenthesised full).Reads eof ts out ts' ↔
      ∃ mid, full.Reads eof ts out mid ∧
      ∃ closing, mid = closing :: ts' ∧ closing.kind = .punct .parenR := by
  rw [parenthesised, reads_bind]
  constructor
  · intro h
    obtain ⟨inner, mid, hinner, h⟩ := h
    obtain ⟨closing, mid', hclosing, hout⟩ := reads_bind.mp h
    obtain ⟨rfl, hkind⟩ := (reads_expect (by simp)).mp hclosing
    obtain ⟨rfl, rfl⟩ := reads_pure.mp hout
    exact ⟨_, hinner, closing, rfl, hkind⟩
  · intro h
    obtain ⟨mid, hinner, closing, rfl, hkind⟩ := h
    refine ⟨out, _, hinner, reads_bind.mpr ⟨closing, ts', ?_, reads_pure.mpr ⟨rfl, rfl⟩⟩⟩
    exact (reads_expect (by simp)).mpr ⟨rfl, hkind⟩

/-- An operand without suffixes stands in brackets of some kind, or is a terminal. -/
theorem reads_primary {out : Expr} :
    (primary full).Reads eof ts out ts' ↔
      (∃ t rest, ts = t :: rest ∧
        (t.kind = .punct .braceL ∧ (object full t.span).Reads eof rest out ts' ∨
          t.kind = .punct .bracketL ∧ (array full t.span).Reads eof rest out ts' ∨
          t.kind = .punct .parenL ∧ (parenthesised full).Reads eof rest out ts')) ∨
      ((eof.next ts).kind ≠ .punct .braceL ∧ (eof.next ts).kind ≠ .punct .bracketL ∧
        (eof.next ts).kind ≠ .punct .parenL ∧ (terminal full).Reads eof ts out ts') := by
  rw [primary, reads_peek_bind]
  cases ts with
  | nil => simp
  | cons t rest =>
    rw [EndMark.next_cons, exists_cons_eq]
    split
    · next ht => simp [ht]
    · next ht => simp [ht]
    · next ht => simp [ht]
    -- What is none of the three brackets is left to the terminals.
    · next hbrace hbracket hparen =>
      have hbrace : t.kind ≠ .punct .braceL := hbrace
      have hbracket : t.kind ≠ .punct .bracketL := hbracket
      have hparen : t.kind ≠ .punct .parenL := hparen
      simp [hbrace, hbracket, hparen]

/-- The mark that opens a suffix. -/
def suffixMark : Suffix → Punct
  | .field => .dot
  | .index => .bracketL
  | .arguments => .parenL
  | .extension => .braceL

/-- A suffix opens with its mark and with no other token. -/
theorem ofToken?_eq_suffix {t : Token} {kind : Suffix} :
    Suffix.ofToken? t = some kind ↔ t.kind = .punct (suffixMark kind) := by
  unfold Suffix.ofToken?
  cases kind <;> split <;> simp_all [suffixMark]

/-- Whether a token opens a suffix depends on its kind alone. -/
theorem suffix_of_kind {t u : Token} (h : u.kind = t.kind) :
    Suffix.ofToken? u = Suffix.ofToken? t := by
  rw [Suffix.ofToken?, Suffix.ofToken?, h]

/-- A suffix is a selector, an argument list or an object. -/
theorem reads_suffix {start : Span} {opening : Token} {kind : Suffix} {target out : Expr} :
    (suffix full start opening kind target).Reads eof ts out ts' ↔
      (∃ selector last,
        (kind = .field ∧ fieldSelector.Reads eof ts (selector, last) ts' ∨
          kind = .index ∧ (indexSelector full).Reads eof ts (selector, last) ts') ∧
        out = .node (.between start last) (.index target selector)) ∨
      (kind = .arguments ∧ ∃ list mid, (commaList full .parenR .argument).Reads eof ts list mid ∧
        ∃ tailStrict, (accept (.keyword .tailstrict)).Reads eof mid tailStrict ts' ∧
          out = .node
            (.between start (if tailStrict then (eof.next mid).span else list.closing.span))
            (.apply target list.exprs list.trailingComma tailStrict)) ∨
      (kind = .extension ∧ ∃ right, (object full opening.span).Reads eof ts right ts' ∧
        out = .node (.between start right.span) (.applyBrace target right)) := by
  -- Each kind of suffix has a rule of its own, so the other alternatives are empty.
  cases kind with
  | field => simp [suffix]
  | index => simp [suffix]
  | arguments => simp [suffix]
  | extension => simp [suffix]

/-- An operand is a first part and suffixes behind it. -/
theorem reads_operand {out : Expr} :
    (operand full).Reads eof ts out ts' ↔
      ∃ first mid, (primary full).Reads eof ts first mid ∧
        (whileNext Suffix.ofToken? (fun opening kind target =>
          suffix full (eof.next ts).span opening kind target) first).Reads eof mid out ts' := by
  simp [operand]

/-! ## Operators -/

variable {g : Level TokenStream}

/-- Unary operators stand in front of an operand. -/
theorem reads_unary {out : Expr} :
    (unary g).Reads eof ts out ts' ↔
      (∃ t rest, ts = t :: rest ∧ t.kind = .operator ∧
        ∃ op, UnaryOp.ofSymbol? t.data = some op ∧
        ∃ e, g.operand.Reads eof rest e ts' ∧ out = .node (.between t.span e.span) (.unary op e)) ∨
      ((eof.next ts).kind ≠ .operator ∧ (operand g.full).Reads eof ts out ts') := by
  have hend : ¬ eof.1.kind = .operator := by simp
  rw [unary, reads_nextIs_bind, reads_ite, unaryOperation]
  simp only [beq_iff_eq]
  rw [reads_pop_of_next (P := fun t => t.kind = .operator) hend]
  refine or_congr_left (exists_congr fun t => exists_congr fun rest => and_congr_right fun _ =>
    and_congr_right fun _ => ?_)
  split
  · next op hop => simp [hop]
  · next hop => simp [hop]

/-- A chain of operators ends in front of a looser operator or of no operator at all. -/
theorem reads_binaryChain {precedence : Precedence} {start : Span} {left out : Expr} :
    (binaryChain g precedence start left).Reads eof ts out ts' ↔
      (whileNext (binaryOp? precedence) (fun _ op left => do
        let right ← g.expr (op.precedence - 1)
        return .node (.between start right.span) (.binary left op right)) left).Reads eof ts out
          ts' ∧
      isStrayOperator (eof.next ts') = false := by
  rw [binaryChain, reads_bind]
  constructor
  · intro h
    -- The look at the stray operator takes no token, so the loop ends where the chain does.
    obtain ⟨result, mid, hloop, h⟩ := h
    rw [reads_peek_bind, reads_ite] at h
    obtain ⟨_, hfail⟩ | ⟨hstray, hout⟩ := h
    · exact absurd hfail reads_fail
    · obtain ⟨rfl, rfl⟩ := reads_pure.mp hout
      exact ⟨hloop, by simpa using hstray⟩
  · intro h
    obtain ⟨hloop, hstray⟩ := h
    refine ⟨out, ts', hloop, ?_⟩
    rw [reads_peek_bind, reads_ite]
    exact .inr ⟨by simp [hstray], reads_pure.mpr ⟨rfl, rfl⟩⟩

/-- An expression is led by a keyword, or it is an operand with operators. -/
theorem reads_expression {precedence : Precedence} {out : Expr} :
    (expression g precedence).Reads eof ts out ts' ↔
      (∃ form, ledBy? g.full (eof.next ts).kind = some form ∧ form.Reads eof ts out ts') ∨
      (ledBy? g.full (eof.next ts).kind = none ∧
        ∃ left mid, (unary g).Reads eof ts left mid ∧
          (binaryChain g precedence (eof.next ts).span left).Reads eof mid out ts') := by
  rw [expression, reads_keywordForm?_bind]
  simp

/-- The operand of a unary operator is led by a keyword, or it is a unary operation again. -/
theorem reads_unaryOperand {out : Expr} :
    (unaryOperand g).Reads eof ts out ts' ↔
      (∃ form, ledBy? g.full (eof.next ts).kind = some form ∧ form.Reads eof ts out ts') ∨
      (ledBy? g.full (eof.next ts).kind = none ∧ (unary g).Reads eof ts out ts') := by
  rw [unaryOperand, reads_keywordForm?_bind]
  simp

end Rule

/-! ## Levels and programs -/

namespace Level

variable {eof : EndMark} {ts ts' : List Token} {out : Expr}

/-- Where no levels are left, no expression is read. -/
@[simp] theorem reads_exhausted_expr {precedence : Precedence} :
    ¬ (exhausted.expr precedence).Reads eof ts out ts' := by
  simp [exhausted, Rule.tooDeep]

/-- Where no levels are left, no operand is read. -/
@[simp] theorem reads_exhausted_operand : ¬ exhausted.operand.Reads eof ts out ts' := by
  simp [exhausted, Rule.tooDeep]

/-- One level further up, expressions are read with those of the level below. -/
@[simp] theorem reads_deepen_expr {g : Level TokenStream} {precedence : Precedence} :
    (g.deepen.expr precedence).Reads eof ts out ts' ↔
      (Rule.expression g precedence).Reads eof ts out ts' := Iff.rfl

/-- One level further up, operands are read with those of the level below. -/
@[simp] theorem reads_deepen_operand {g : Level TokenStream} :
    g.deepen.operand.Reads eof ts out ts' ↔ (Rule.unaryOperand g).Reads eof ts out ts' := by
  simp [deepen]

/-- What holds of the readings of every level that is built on a level of which it holds, holds of
    the readings of all levels. -/
theorem reads_upTo_induction {P : EndMark → List Token → Expr → List Token → Prop}
    (hexpr : ∀ n,
      (∀ {precedence eof ts e ts'}, ((upTo n).expr precedence).Reads eof ts e ts' →
        P eof ts e ts') →
      (∀ {eof ts e ts'}, (upTo n).operand.Reads eof ts e ts' → P eof ts e ts') →
      ∀ {precedence eof ts e ts'},
        (Rule.expression (upTo n) precedence).Reads eof ts e ts' → P eof ts e ts')
    (hoperand : ∀ n,
      (∀ {precedence eof ts e ts'}, ((upTo n).expr precedence).Reads eof ts e ts' →
        P eof ts e ts') →
      (∀ {eof ts e ts'}, (upTo n).operand.Reads eof ts e ts' → P eof ts e ts') →
      ∀ {eof ts e ts'}, (Rule.unaryOperand (upTo n)).Reads eof ts e ts' → P eof ts e ts')
      (n : Nat) :
    (∀ {precedence eof ts e ts'}, ((upTo n).expr precedence).Reads eof ts e ts' → P eof ts e ts') ∧
      ∀ {eof ts e ts'}, (upTo n).operand.Reads eof ts e ts' → P eof ts e ts' := by
  -- By induction on the number of levels: the lowest one reads nothing at all.
  induction n with
  | zero =>
    exact ⟨fun h => absurd h reads_exhausted_expr, fun h => absurd h reads_exhausted_operand⟩
  | succ n ih =>
    refine ⟨fun h => ?_, fun h => ?_⟩
    · exact hexpr n ih.1 ih.2 (reads_deepen_expr.mp h)
    · exact hoperand n ih.1 ih.2 (reads_deepen_operand.mp h)

end Level

/-- A program is an expression, up to the end mark. -/
theorem Rule.reads_program {g : Level TokenStream} {eof : EndMark} {ts ts' : List Token}
    {out : Expr} :
    (Rule.program g).Reads eof ts out ts' ↔
      g.full.Reads eof ts out ts' ∧ (eof.next ts').kind = .endOfFile := by
  rw [program, reads_bind]
  constructor
  · intro h
    obtain ⟨root, mid, hroot, h⟩ := h
    rw [reads_peek_bind, reads_ite] at h
    obtain ⟨hend, hout⟩ | ⟨_, hfail⟩ := h
    · obtain ⟨rfl, rfl⟩ := reads_pure.mp hout
      exact ⟨hroot, hend⟩
    · exact absurd hfail reads_fail
  · intro h
    obtain ⟨hroot, hend⟩ := h
    refine ⟨out, ts', hroot, ?_⟩
    rw [reads_peek_bind, reads_ite]
    exact .inl ⟨hend, reads_pure.mpr ⟨rfl, rfl⟩⟩

/-- The end mark of the stream that a list of tokens is read as. -/
def EndMark.ofTokens (tokens : List Token) : EndMark where
  val := (TokenStream.ofTokens tokens).eof
  property := by
    -- The end mark that is found, or the one that is made up, is of the right kind.
    unfold TokenStream.ofTokens
    cases h : tokens.find? fun t => t.kind == .endOfFile with
    | none => rfl
    | some t => simpa using List.find?_some h

/-- The tokens in front of the first end mark. -/
def tokensAhead (tokens : List Token) : List Token := tokens.takeWhile fun t => t.kind != .endOfFile

/-- The tokens in front of the end of a file. -/
theorem tokensAhead_concat {tokens : List Token} {eof : Token} (heof : eof.kind = .endOfFile)
    (htokens : ∀ t ∈ tokens, t.kind ≠ .endOfFile) : tokensAhead (tokens ++ [eof]) = tokens := by
  rw [tokensAhead, List.takeWhile_append_of_pos (by simpa using htokens)]
  simp [heof]

/-- Reading tokens that hold no end mark up to the end mark leaves none of them. -/
theorem eq_nil_of_next_kind {eof : EndMark} {tokens ts : List Token}
    (hsuffix : ts <:+ tokensAhead tokens) (hend : (eof.next ts).kind = .endOfFile) : ts = [] := by
  cases ts with
  | nil => rfl
  | cons t rest =>
    -- A token that is left stands in front of the first end mark, and is none itself.
    have hmem : t ∈ tokensAhead tokens := hsuffix.subset (List.mem_cons_self ..)
    have hkind := List.all_eq_true.mp List.all_takeWhile t hmem
    rw [EndMark.next_cons] at hend
    simp [hend] at hkind

/-- A source text that is accepted has tokens and a tree. -/
theorem exists_of_isOk_parseSource {file source : String}
    (h : (parseSource file source).isOk = true) :
    ∃ tokens root, lex file source = .ok tokens ∧ parse tokens = .ok root := by
  cases hlex : lex file source with
  | error e =>
    rw [parseSource, hlex] at h
    cases h
  | ok tokens =>
    have hsource : parseSource file source = parse tokens := by
      rw [parseSource, hlex]
      rfl
    rw [hsource] at h
    cases hparse : parse tokens with
    | error e =>
      rw [hparse] at h
      cases h
    | ok root => exact ⟨tokens, root, rfl, hparse⟩

end JsonnetSyntax
