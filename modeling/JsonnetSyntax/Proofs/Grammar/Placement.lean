import JsonnetSyntax.Proofs.Expr.WellFormed
import JsonnetSyntax.Proofs.Grammar.Counting

/-!
# Which tokens an expression is read from

The span of an expression reaches from the first to the last of the tokens that it owns, and its
sub-expressions own disjoint rows of these tokens, in order.  `Placed` says this of a whole tree.
Parentheses around an expression belong to no one: what a rule takes is more than what the
expression that it reads owns, and the closing parentheses at the end of the last sub-expression are
lost to the expression as well.  `Level.Builds` says how an expression was read, apart from them.

## Key results

- `Holds.append`: what stands one after the other is placed one after the other
- `Framed.of_last_token`, `Framed.of_last_expr`: the two ways in which an expression ends
- `Rule.taken_expression`, `Rule.taken_unaryOperand`: one level of nesting
- `exists_placed_of_parse`: the nodes of an accepted program are placed on its tokens
-/

namespace JsonnetSyntax

/-! ## Rows of tokens -/

/-- The span reaches from the first of some tokens to the last, which is no operator. -/
def Covers (own : List Token) (span : Span) : Prop :=
  ∃ first last, own.head? = some first ∧ own.getLast? = some last ∧ last.kind ≠ .operator ∧
    span = .between first.span last.span

mutual

/-- The expression owns some tokens, in front of the tokens `behind`: they are those from its first
    to its last, and its sub-expressions are placed on them.  `Q` is what is known of every
    expression, of its tokens and of those behind them besides. -/
inductive Placed (Q : List Token → List Token → Expr → Prop) : List Token → List Token → Expr → Prop
  | intro {own behind : List Token} {e : Expr} (covers : Covers own e.span) (known : Q own behind e)
      (children : PlacedIn Q own behind e.children) : Placed Q own behind e

/-- The expressions own disjoint rows of some tokens, in order; other tokens may stand between
    them. -/
inductive PlacedIn (Q : List Token → List Token → Expr → Prop) :
    List Token → List Token → List Expr → Prop
  | nil (tokens behind : List Token) : PlacedIn Q tokens behind []
  | cons (gap : List Token) {own rest behind : List Token} {e : Expr} {es : List Expr}
      (first : Placed Q own (rest ++ behind) e) (others : PlacedIn Q rest behind es) :
      PlacedIn Q (gap ++ own ++ rest) behind (e :: es)

end

section Rows

variable {Q : List Token → List Token → Expr → Prop} {t : Token}
  {own tokens more behind ts mid ts' : List Token} {e : Expr} {es fs : List Expr} {loose : Bool}

/-- An expression covers the tokens that it owns. -/
theorem Placed.covers (h : Placed Q own behind e) : Covers own e.span := by
  obtain ⟨hcovers, -, -⟩ := h
  exact hcovers

/-- What is known of every expression is known of one that is placed. -/
theorem Placed.known (h : Placed Q own behind e) : Q own behind e := by
  obtain ⟨-, hknown, -⟩ := h
  exact hknown

/-- The sub-expressions of an expression are placed on its tokens. -/
theorem Placed.children (h : Placed Q own behind e) : PlacedIn Q own behind e.children := by
  obtain ⟨-, -, hchildren⟩ := h
  exact hchildren

/-- Tokens in front that no expression owns. -/
theorem PlacedIn.gap (front : List Token) (h : PlacedIn Q tokens behind es) :
    PlacedIn Q (front ++ tokens) behind es := by
  cases h with
  | nil => exact .nil ..
  | @cons gap own rest behind e es first others =>
    have hcons := PlacedIn.cons (front ++ gap) first others
    simpa only [List.append_assoc] using hcons

/-- Rows one behind the other. -/
theorem PlacedIn.append :
    ∀ {tokens es}, PlacedIn Q tokens (more ++ behind) es → PlacedIn Q more behind fs →
    PlacedIn Q (tokens ++ more) behind (es ++ fs)
  | _, _, .nil tokens _, h => h.gap tokens
  | _, _, @PlacedIn.cons _ gap own rest _ e es first others, h => by
    rw [← List.append_assoc] at first
    have hcons := PlacedIn.cons gap first (others.append h)
    simpa only [List.append_assoc, List.cons_append] using hcons

/-- One expression between tokens that no expression owns is a row of its own. -/
theorem Placed.placedIn {back : List Token} (h : Placed Q own (back ++ behind) e)
    (front : List Token) :
    PlacedIn Q (front ++ own ++ back) behind [e] := .cons front h (.nil back behind)

/-- Every expression of a row owns tokens of the row. -/
theorem PlacedIn.exists_of_mem : ∀ {tokens es}, PlacedIn Q tokens behind es → e ∈ es →
    ∃ front own back, tokens = front ++ own ++ back ∧ Placed Q own (back ++ behind) e
  | _, _, @PlacedIn.cons _ gap own rest _ e' es first others, h => by
    obtain rfl | hmem := List.mem_cons.mp h
    · exact ⟨gap, own, rest, rfl, first⟩
    · obtain ⟨front, own', back, rfl, hplaced⟩ := others.exists_of_mem hmem
      exact ⟨gap ++ own ++ front, own', back, by simp only [List.append_assoc], hplaced⟩

/-- Every node of a tree owns tokens of the tree. -/
theorem Placed.of_isWithin {n : Expr} (h : Placed Q own behind e) (hn : n.IsWithin e) :
    ∃ front own' behind', own ++ behind = front ++ own' ++ behind' ∧ Placed Q own' behind' n := by
  -- The induction is on the way down to the node, with the tokens of each expression on it.
  induction hn generalizing own behind with
  | refl => exact ⟨[], own, behind, rfl, h⟩
  | child hmem _ ih =>
    obtain ⟨front, own₁, back, rfl, hchild⟩ := h.children.exists_of_mem hmem
    obtain ⟨front', own₂, behind', hbehind, hplaced⟩ := ih hchild
    refine ⟨front ++ front', own₂, behind', ?_, hplaced⟩
    simp only [List.append_assoc] at hbehind ⊢
    rw [hbehind]

/-! ## What a rule takes -/

/-- The tokens in front of the end `ts'` of `ts` hold some expressions. -/
def Holds (Q : List Token → List Token → Expr → Prop) (ts : List Token) (es : List Expr)
    (ts' : List Token) : Prop :=
  ∃ taken, ts = taken ++ ts' ∧ PlacedIn Q taken ts' es

/-- Whether an expression of some shape ends with its last part, not with a token of its own. -/
def Shape.endsWithPart {ε : Type} : Shape ε → Bool
  | .assert .. | .binary .. | .conditional .. | .error .. | .function .. | .import ..
  | .importstr .. | .local .. | .unary .. => true
  | _ => false

/-- Whether an expression ends with its last part. -/
def Expr.endsWithPart (e : Expr) : Bool := e.shape.endsWithPart

/-- These tokens are closing parentheses, and there are none if the end is tight. -/
structure Closers (loose : Bool) (ts : List Token) : Prop where
  kind : ∀ t ∈ ts, t.kind = .punct .parenR
  tight : loose = false → ts = []

/-- The tokens in front of the end `ts'` of `ts` hold an expression, behind which only closing
    parentheses stand. -/
def Taken (Q : List Token → List Token → Expr → Prop) (loose : Bool) (ts : List Token) (e : Expr)
    (ts' : List Token) : Prop :=
  ∃ front own back,
    ts = front ++ own ++ back ++ ts' ∧ Closers loose back ∧ Placed Q own (back ++ ts') e

/-- The tokens in front of the end `ts'` of `ts` are those that an expression covers, and its
    sub-expressions are placed on them.  Behind them only closing parentheses stand, and only if
    they close its last part. -/
def Framed (Q : List Token → List Token → Expr → Prop) (ts : List Token) (e : Expr)
    (ts' : List Token) : Prop :=
  ∃ own back, ts = own ++ back ++ ts' ∧ Closers e.endsWithPart back ∧ Covers own e.span ∧
    PlacedIn Q own (back ++ ts') e.children

/-- No tokens are closing parentheses, even at a tight end. -/
theorem Closers.nil (loose : Bool) : Closers loose [] where
  kind _ ht := absurd ht List.not_mem_nil
  tight _ := rfl

/-- Nothing needs to be known of a loose end. -/
theorem Closers.loosen {loose loose' : Bool} {ts : List Token} (h : Closers loose ts)
    (hloose : loose = true → loose' = true) : Closers loose' ts where
  kind := h.kind
  tight hfalse := h.tight (Bool.eq_false_iff.mpr fun htrue => by simp [hloose htrue] at hfalse)

/-- Where nothing is taken, no expressions are held. -/
theorem Holds.nil (ts : List Token) : Holds Q ts [] ts := ⟨[], rfl, .nil ..⟩

/-- What was taken may hold no expressions at all. -/
theorem Holds.of_suffix (h : ts' <:+ ts) : Holds Q ts [] ts' := by
  obtain ⟨taken, rfl⟩ := h
  exact ⟨taken, rfl, .nil ..⟩

/-- What holds expressions leaves an end of the tokens. -/
theorem Holds.suffix (h : Holds Q ts es ts') : ts' <:+ ts := by
  obtain ⟨taken, rfl, -⟩ := h
  exact List.suffix_append ..

/-- What stands one after the other is placed one after the other. -/
theorem Holds.append (hfirst : Holds Q ts es mid) (hsecond : Holds Q mid fs ts') :
    Holds Q ts (es ++ fs) ts' := by
  obtain ⟨front, rfl, hfront⟩ := hfirst
  obtain ⟨back, rfl, hback⟩ := hsecond
  exact ⟨front ++ back, (List.append_assoc ..).symm, hfront.append hback⟩

/-- A token in front. -/
theorem Holds.cons (t : Token) (h : Holds Q ts es ts') : Holds Q (t :: ts) es ts' := by
  obtain ⟨taken, rfl, hplaced⟩ := h
  exact ⟨t :: taken, rfl, hplaced.gap [t]⟩

/-- Tokens behind. -/
theorem Holds.skip (h : Holds Q ts es mid) (hrest : ts' <:+ mid) : Holds Q ts es ts' := by
  simpa using h.append (Holds.of_suffix hrest)

/-- A token behind that no expression owns. -/
theorem Holds.tail (h : Holds Q ts es (t :: ts')) : Holds Q ts es ts' :=
  h.skip (List.suffix_cons ..)

/-- An expression that was taken is held by what was taken. -/
theorem Taken.holds (h : Taken Q loose ts e ts') : Holds Q ts [e] ts' := by
  obtain ⟨front, own, back, rfl, -, hplaced⟩ := h
  exact ⟨front ++ own ++ back, rfl, hplaced.placedIn front⟩

/-- An expression owns a token at least, so the first token is taken. -/
theorem Taken.exists_cons (h : Taken Q loose ts e ts') :
    ∃ t rest, ts = t :: rest ∧ ts' <:+ rest := by
  obtain ⟨front, own, back, rfl, -, hplaced⟩ := h
  obtain ⟨first, last, hfirst, -⟩ := hplaced.covers
  cases own with
  -- The row of the expression is not empty, so it or what stands in front of it has a first token.
  | nil => cases hfirst
  | cons u own =>
    cases front with
    | nil => exact ⟨u, own ++ back ++ ts', rfl, List.suffix_append ..⟩
    | cons v front => exact ⟨v, front ++ u :: own ++ back ++ ts', rfl, List.suffix_append ..⟩

/-- What is left of tokens is left behind the first of them. -/
theorem Taken.suffix_tail (h : Taken Q loose (t :: ts) e ts') : ts' <:+ ts := by
  obtain ⟨first, rest, hcons, hsuffix⟩ := h.exists_cons
  cases hcons
  exact hsuffix

/-- Parentheses around an expression. -/
theorem Taken.parenthesised {closing : Token} (t : Token) (h : Taken Q loose ts e (closing :: ts'))
    (hclosing : closing.kind = .punct .parenR) : Taken Q true (t :: ts) e ts' := by
  obtain ⟨front, own, back, rfl, hback, hplaced⟩ := h
  refine ⟨t :: front, own, back ++ [closing], by simp, ⟨?_, by simp⟩, by simpa using hplaced⟩
  intro u hu
  -- The closing parenthesis joins those that stood behind the expression already.
  rw [List.mem_append, List.mem_singleton] at hu
  obtain hu | rfl := hu
  · exact hback.kind u hu
  · exact hclosing

/-- A tight end is a loose one. -/
theorem Taken.loosen (h : Taken Q loose ts e ts') : Taken Q true ts e ts' := by
  obtain ⟨front, own, back, hts, hback, hplaced⟩ := h
  exact ⟨front, own, back, hts, hback.loosen fun _ => rfl, hplaced⟩

/-- A frame is all that is needed to place an expression of which the rest is known. -/
theorem Framed.taken (h : Framed Q ts e ts')
    (hknown : ∀ {own back}, ts = own ++ back ++ ts' → Closers e.endsWithPart back →
      Q own (back ++ ts') e) : Taken Q e.endsWithPart ts e ts' := by
  obtain ⟨own, back, hts, hback, hcovers, hchildren⟩ := h
  exact ⟨[], own, back, hts, hback, .intro hcovers (hknown hts hback) hchildren⟩

/-- An expression that ends with a token. -/
theorem Framed.of_last_token {last : Token} {shape : Shape Expr} (hlast : last.kind ≠ .operator)
    (h : Holds Q (t :: ts) shape.children (last :: ts')) :
    Framed Q (t :: ts) (.node (.between t.span last.span) shape) ts' := by
  obtain ⟨taken, htaken, hplaced⟩ := h
  refine ⟨taken ++ [last], [], by simpa using htaken, .nil _, ⟨t, last, ?_, by simp, hlast, rfl⟩,
    ?_⟩
  · -- The first token is among those taken, or it is the last one.
    cases taken with
    | nil =>
      cases htaken
      rfl
    | cons first taken =>
      cases htaken
      rfl
  · show PlacedIn Q (taken ++ [last]) ts' shape.children
    simpa using PlacedIn.append hplaced (PlacedIn.nil [last] ts')

/-- An expression that ends with its last part, which is one of its sub-expressions or the name of a
    file. -/
theorem Framed.of_last_expr {shape : Shape Expr} (h : Holds Q (t :: ts) es mid)
    (hlast : Taken Q loose mid e ts') (hloose : loose = true → shape.endsWithPart = true)
    (hfirst : mid <:+ ts) (hchildren : shape.children = es ++ [e] ∨ shape.children = es) :
    Framed Q (t :: ts) (.node (.between t.span e.span) shape) ts' := by
  obtain ⟨taken, hts, hplaced⟩ := h
  obtain ⟨front, own, back, rfl, hback, hown⟩ := hlast
  obtain ⟨first, last, -, hlast, hkind, hspan⟩ := hown.covers
  -- The expression ends where its last part ends; the parentheses behind that part stay outside.
  refine ⟨taken ++ front ++ own, back, by simpa using hts, hback.loosen hloose,
    ⟨t, last, ?_, ?_, hkind, ?_⟩, ?_⟩
  · cases taken with
    | nil =>
      -- The first token was taken, since it is not among those left.
      have hlength := hfirst.length_le
      rw [List.nil_append] at hts
      rw [← hts, List.length_cons] at hlength
      omega
    | cons first taken =>
      cases hts
      rfl
  · rw [List.getLast?_append, hlast]
    rfl
  · show Span.between t.span e.span = _
    rw [hspan]
    rfl
  · show PlacedIn Q _ _ shape.children
    rw [List.append_assoc (front ++ own)] at hplaced
    rw [List.append_assoc taken]
    obtain hchildren | hchildren := hchildren
    · rw [hchildren]
      have hrow : PlacedIn Q (front ++ own ++ []) (back ++ ts') [e] := .cons front hown (.nil [] _)
      rw [List.append_nil] at hrow
      exact hplaced.append hrow
    · rw [hchildren]
      simpa using hplaced.append (PlacedIn.nil (front ++ own) _)

end Rows

/-! ## How expressions are read -/

namespace Rule

variable {β σ : Type}

/-- Some rounds of a loop lead from one state to another. -/
inductive Rounds (select : Token → Option β) (body : Token → β → σ → Rule TokenStream σ)
    (eof : EndMark) (state : σ) (ts : List Token) : σ → List Token → Prop
  | start : Rounds select body eof state ts state ts
  | round {before after : σ} {t : Token} {choice : β} {rest mid : List Token}
      (hbefore : Rounds select body eof state ts before (t :: rest))
        (hselect : select t = some choice)
      (hbody : (body t choice before).Reads eof rest after mid) :
      Rounds select body eof state ts after mid

/-- Rounds leave an end of the tokens. -/
theorem Rounds.suffix {select : Token → Option β} {body : Token → β → σ → Rule TokenStream σ}
    {eof : EndMark} {state out : σ} {ts ts' : List Token}
    (h : Rounds select body eof state ts out ts') : ts' <:+ ts := by
  induction h with
  | start => exact List.suffix_refl _
  | round _ _ hbody ih => exact (hbody.suffix.trans (List.suffix_cons ..)).trans ih

/-- One round of a chain of binary operators. -/
def chainRound (g : Level TokenStream) (start : Span) (_ : Token) (op : BinaryOp) (left : Expr) :
    Rule TokenStream Expr := do
  let right ← g.expr (op.precedence - 1)
  return .node (.between start right.span) (.binary left op right)

/-- A round of a chain reads the right operand of its operator. -/
theorem reads_chainRound {g : Level TokenStream} {start : Span} {t : Token} {op : BinaryOp}
    {left out : Expr} {eof : EndMark} {ts ts' : List Token} :
    (chainRound g start t op left).Reads eof ts out ts' ↔
      ∃ right, (g.expr (op.precedence - 1)).Reads eof ts right ts' ∧
        out = .node (.between start right.span) (.binary left op right) := by
  simp [chainRound]

end Rule

/-- How an expression is read, apart from parentheses around it: it is led by a keyword, it is an
    operand with some of the suffixes behind it, or a left operand with some of the operators behind
    it. -/
inductive Level.Builds (g : Level TokenStream) (eof : EndMark) (ts : List Token) :
    Expr → List Token → Prop
  | form {form : Rule TokenStream Expr} {e : Expr} {ts' : List Token}
      (hform : Rule.ledBy? g.full (eof.next ts).kind = some form)
        (hread : form.Reads eof ts e ts') :
      Builds g eof ts e ts'
  | operand {first e : Expr} {mid ts' : List Token}
    (hfirst : (Rule.primary g.full).Reads eof ts first mid)
      (hrounds :
        Rule.Rounds Suffix.ofToken? (Rule.suffix g.full (eof.next ts).span) eof first mid e ts') :
      Builds g eof ts e ts'
  | chain {precedence : Precedence} {left e : Expr} {mid ts' : List Token}
      (hleft : (Rule.unary g).Reads eof ts left mid)
      (hrounds :
        Rule.Rounds (Rule.binaryOp? precedence) (Rule.chainRound g (eof.next ts).span) eof left
        mid e ts') :
      Builds g eof ts e ts'

/-- What a level reads is placed on the tokens that it takes, and what is read from it is known. -/
structure Level.Places (g : Level TokenStream) (Q : List Token → List Token → Expr → Prop) :
    Prop where
  expr : ∀ {precedence eof ts e ts'}, (g.expr precedence).Reads eof ts e ts' → Taken Q true ts e ts'
  operand : ∀ {eof ts e ts'}, g.operand.Reads eof ts e ts' → Taken Q true ts e ts'
  known : ∀ {eof own back ts' e}, Closers e.endsWithPart back →
    g.Builds eof (own ++ back ++ ts') e ts' → Q own (back ++ ts') e

/-- What is built from tokens is placed on them once it is framed by them. -/
theorem Framed.taken_of_builds {Q : List Token → List Token → Expr → Prop} {g : Level TokenStream}
    {eof : EndMark} {ts ts' : List Token} {e : Expr} (h : Framed Q ts e ts') (hg : g.Places Q)
    (hbuilds : g.Builds eof ts e ts') : Taken Q e.endsWithPart ts e ts' := by
  refine h.taken fun {own back} hts hback => ?_
  rw [hts] at hbuilds
  exact hg.known hback hbuilds

namespace Rule

variable {σ : Type} {Q : List Token → List Token → Expr → Prop} {g : Level TokenStream}
  {eof : EndMark} {ts ts' : List Token}

/-! ## Lists -/

/-- A whole expression is held by the tokens that it is read from. -/
theorem holds_full (hg : g.Places Q) {e : Expr} (h : g.full.Reads eof ts e ts') :
    Holds Q ts [e] ts' :=
  (hg.expr h).holds

/-- A list of items with commas holds what its items hold. -/
theorem holds_items (children : σ → List Expr) {stops : TokenKind → Bool}
    {item : σ → Rule TokenStream σ} (hcomma : stops (.punct .comma) = false)
    (hitem : ∀ {state after ts ts'}, (item state).Reads eof ts after ts' →
      ∃ es, children after = children state ++ es ∧ Holds Q ts es ts')
    {start : σ} (hstart : children start = []) {out : σ × Bool}
    (h : (items stops item start).Reads eof ts out ts') : Holds Q ts (children out.1) ts' := by
  obtain ⟨-, rfl, rfl⟩ | ⟨-, first, mid, hfirst, hmore⟩ := reads_items.mp h
  · rw [hstart]
    exact .nil _
  -- The invariant of the list: the items so far are held by the tokens so far.
  · refine hmore.moreItems_induction hcomma (fun state mid => Holds Q ts (children state.1) mid) ?_
      (by simp) ?_ ?_
    · obtain ⟨es, hes, hholds⟩ := hitem hfirst
      rw [hes, hstart]
      exact hholds
    · intro t rest state _ _ hstate
      exact hstate.tail
    · intro t rest state after mid _ hread hstate
      obtain ⟨es, hes, hholds⟩ := hitem hread
      rw [hes]
      exact hstate.tail.append hholds

/-- A list of expressions holds them, in front of the mark that closes it. -/
theorem holds_commaList (hg : g.Places Q) {closing : Punct} {what : ListItem}
    (hclosing : closing ≠ .comma) {list : CommaList}
    (h : (commaList g.full closing what).Reads eof ts list ts') :
    Holds Q ts list.exprs (list.closing :: ts') := by
  obtain ⟨hitems, -⟩ := reads_commaList.mp h
  refine holds_items (fun exprs : Array Expr => exprs.toList) (by simp [hclosing.symm]) ?_ rfl
    hitems
  intro state after ts ts' hread
  obtain ⟨e, he, rfl⟩ := reads_pushExpr.mp hread
  exact ⟨[e], by simp, holds_full hg he⟩

/-! ## Bindings and clauses -/

/-- A binding holds its body. -/
theorem holds_binding (hg : g.Places Q) {taken : String → Bool} {b : Binding Expr}
    (h : (binding g.full taken).Reads eof ts b ts') : Holds Q ts [b.body] ts' := by
  obtain ⟨name, mid, rfl, -, -, ps, mid', hps, assign, rest, rfl, -, body, hbody, rfl⟩ :=
    reads_binding.mp h
  -- The parameters were read as expressions, but they are names.
  have hparameters : Holds Q mid [] (assign :: rest) := .of_suffix hps.suffix
  exact (hparameters.append ((holds_full hg hbody).cons assign)).cons name

/-- Bindings hold their bodies, in order. -/
theorem holds_bindings (hg : g.Places Q) {bs : List (Binding Expr)}
    (h : (bindings g.full).Reads eof ts bs ts') : Holds Q ts (bs.map Binding.body) ts' := by
  obtain ⟨first, mid, hfirst, all, hall, rfl⟩ := reads_bindings.mp h
  -- The same invariant for bindings, where each round adds the body of one.
  have hloop := hall.whileNext_induction
    (fun seen mid => Holds Q ts (seen.toList.map Binding.body) mid) ?_ ?_
  · exact hloop.1
  · obtain ⟨b, hb, rfl⟩ := reads_pushBinding.mp hfirst
    exact holds_binding hg hb
  · intro t rest choice before after mid _ hround hbefore
    obtain ⟨b, hb, rfl⟩ := reads_pushBinding.mp hround
    rw [Array.toList_push, List.map_append]
    exact hbefore.tail.append (holds_binding hg hb)

/-- A `for` clause holds its source. -/
theorem holds_loopClause (hg : g.Places Q) {c : Clause Expr}
    (h : (loopClause g.full).Reads eof ts c ts') :
    Holds Q ts [c.expr] ts' := by
  obtain ⟨name, mid, rfl, -, among, rest, rfl, -, source, hsource, rfl⟩ := reads_loopClause.mp h
  exact ((holds_full hg hsource).cons among).cons name

/-- A clause holds its expression. -/
theorem holds_clause (hg : g.Places Q) {start : ClauseStart} {c : Clause Expr}
    (h : (clause g.full start).Reads eof ts c ts') : Holds Q ts [c.expr] ts' := by
  cases start with
  | loop => exact holds_loopClause hg (reads_clause_loop.mp h)
  | condition =>
    obtain ⟨e, he, rfl⟩ := reads_clause_condition.mp h
    exact holds_full hg he

/-- Clauses end in front of the token that closes them. -/
theorem holds_clauses (hg : g.Places Q) {closing : Punct} {cs : List (Clause Expr)} {last : Span}
    (h : (clauses g.full closing).Reads eof ts (cs, last) ts') :
    ∃ t, t.span = last ∧ t.kind ≠ .operator ∧ Holds Q ts (cs.map Clause.expr) (t :: ts') := by
  obtain ⟨first, mid, hfirst, all, mid', hall, t, rest, rfl, ht, hout, rfl⟩ := reads_clauses.mp h
  cases hout
  have hloop := hall.whileNext_induction
    (fun seen mid => Holds Q ts (seen.toList.map Clause.expr) mid) ?_ ?_
  · exact ⟨t, rfl, by simp [ht], hloop.1⟩
  · exact holds_loopClause hg hfirst
  · intro t' rest' start before after mid _ hround hbefore
    simp only [bind_pure_comp, reads_map] at hround
    obtain ⟨c, hc, rfl⟩ := hround
    rw [Array.toList_push, List.map_append]
    exact hbefore.tail.append (holds_clause hg hc)

/-! ## Objects -/

/-- A condition holds itself and its message. -/
theorem holds_condition (hg : g.Places Q) {out : Expr × Option Expr}
    (h : (condition g.full).Reads eof ts out ts') : Holds Q ts (out.1 :: out.2.toList) ts' := by
  obtain ⟨cond, mid, hcond, hmessage⟩ := reads_condition.mp h
  obtain ⟨colon, rest, rfl, -, message, hread, rfl⟩ | ⟨-, rfl, rfl⟩ := hmessage
  · exact (holds_full hg hcond).append ((holds_full hg hread).cons colon)
  · exact holds_full hg hcond

/-- A token that is an expression on its own. -/
theorem reads_primary_of_terminalShape {t : Token} {shape : Shape Expr}
    (h : terminalShape? t = some shape) (full : Rule TokenStream Expr) (eof : EndMark)
    (ts : List Token) :
    (primary full).Reads eof (t :: ts) (.node t.span shape) ts := by
  obtain ⟨-, -, hbrace, hbracket, hparen⟩ := @kind_of_terminalShape full t shape h
  refine reads_primary.mpr (.inr ⟨hbrace, hbracket, hparen, reads_terminal.mpr ?_⟩)
  exact ⟨t, ts, rfl, .inl ⟨shape, h, rfl, rfl⟩⟩

/-- A token that is an expression on its own frames it. -/
theorem framed_of_terminalShape {t : Token} {shape : Shape Expr} (h : terminalShape? t = some shape)
    (ts : List Token) : Framed Q (t :: ts) (.node t.span shape) ts := by
  have hholds : Holds Q (t :: ts) shape.children (t :: ts) := by
    rw [children_of_terminalShape h]
    exact .nil _
  exact .of_last_token (@kind_of_terminalShape .tooDeep t shape h).1 hholds

/-- A key holds the expression that it is computed from, or the string that it is. -/
theorem holds_key (hg : g.Places Q) {t : Token} (ht : StartsKey t.kind) {k : FieldKey Expr}
    (h : (key g.full t).Reads eof ts k ts') : Holds Q (t :: ts) k.children ts' := by
  -- Only a computed key has a sub-expression that is read by the level below.
  obtain ⟨-, rfl, rfl⟩ | ⟨form, hkind, rfl, rfl⟩ | ⟨-, e, mid, he, closing, rfl, -, rfl⟩ :=
    (reads_key ht).mp h
  · exact (Holds.nil _).cons t
  · -- A literal key is an expression of one token.
    have hshape : terminalShape? t = some (t.stringShape form) := by simp [terminalShape?, hkind]
    have hprimary := reads_primary_of_terminalShape hshape g.full eof ts'
    exact ((framed_of_terminalShape hshape ts').taken_of_builds hg (.operand hprimary .start)).holds
  · exact (holds_full hg he).tail.cons t

/-- A field holds the expressions of its key and its body. -/
theorem holds_field (hg : g.Places Q) {t : Token} (ht : StartsKey t.kind)
    {seen : Array (Member Expr)} {f : Field Expr} (h : (field g.full t seen).Reads eof ts f ts') :
    Holds Q (t :: ts) f.children ts' := by
  obtain ⟨k, mid, hk, method, mid', hmethod, visibility, plus, mid'', hassign, -, -, body, hbody,
      rfl⟩ :=
    reads_field.mp h
  -- Parameters and the operator stand between the key and the body, and hold nothing.
  have hkey := (holds_key hg ht hk).skip (hassign.suffix.trans hmethod.suffix)
  exact hkey.append (holds_full hg hbody)

/-- One more member holds its expressions. -/
theorem holds_pushMember (hg : g.Places Q) {seen out : Array (Member Expr)}
    (h : (pushMember g.full seen).Reads eof ts out ts') :
    ∃ m : Member Expr, out = seen.push m ∧ Holds Q ts m.children ts' := by
  obtain ⟨start, rest, rfl,
      ⟨-, b, hb, rfl⟩ | ⟨-, cond, message, hcond, rfl⟩ | ⟨hkind, f, hf, rfl⟩⟩ :=
    reads_pushMember.mp h
  · exact ⟨.binding b, rfl, (holds_binding hg hb).cons start⟩
  · exact ⟨.assertion cond message, rfl, (holds_condition hg hcond).cons start⟩
  · exact ⟨.field f, rfl, holds_field hg hkind hf⟩

/-- An object with the brace that opens it. -/
theorem framed_object (hg : g.Places Q) (t : Token) {out : Expr}
    (h : (object g.full t.span).Reads eof ts out ts') : Framed Q (t :: ts) out ts' := by
  obtain ⟨members, trailingComma, mid, hitems, last, rest, rfl, hend⟩ := reads_object.mp h
  -- The members, whatever ends them.
  have hmembers : Holds Q ts (members.toList.flatMap Member.children) (last :: rest) := by
    refine holds_items (fun seen : Array (Member Expr) => seen.toList.flatMap Member.children)
      (by rfl)
      ?_ rfl hitems
    intro state after ts ts' hread
    obtain ⟨m, rfl, hm⟩ := holds_pushMember hg hread
    exact ⟨m.children, by simp, hm⟩
  obtain ⟨hlast, rfl, rfl⟩ | ⟨-, hcomp⟩ := hend
  · exact .of_last_token (by simp [hlast]) (hmembers.cons t)
  · obtain ⟨-, cs, closing, hcs, rfl⟩ := reads_objectComp.mp hcomp
    obtain ⟨found, rfl, hfound, hclauses⟩ := holds_clauses hg hcs
    exact .of_last_token hfound ((hmembers.tail.append hclauses).cons t)

/-- An object ends with a brace. -/
theorem endsWithPart_of_object {full : Rule TokenStream Expr} {opening : Span} {out : Expr}
    (h : (object full opening).Reads eof ts out ts') : out.endsWithPart = false := by
  obtain ⟨members, trailingComma, mid, -, last, rest, -, hend⟩ := reads_object.mp h
  obtain ⟨-, rfl, rfl⟩ | ⟨-, hcomp⟩ := hend
  · rfl
  · obtain ⟨-, cs, closing, -, rfl⟩ := reads_objectComp.mp hcomp
    rfl

/-! ## Expressions led by a keyword -/

/-- An expression that starts with a token of its own and ends with its last part. -/
theorem framed_of_parts (hg : g.Places Q) {t : Token} {mid : List Token} {es : List Expr} {e : Expr}
    {shape : Shape Expr} (hends : shape.endsWithPart = true) (hparts : Holds Q ts es mid)
    (hlast : g.full.Reads eof mid e ts')
    (hchildren : shape.children = es ++ [e] ∨ shape.children = es) :
    Framed Q (t :: ts) (.node (.between t.span e.span) shape) ts' :=
  .of_last_expr (hparts.cons t) (hg.expr hlast) (fun _ => hends) hparts.suffix hchildren

/-- A conditional is framed by its keyword and its last branch. -/
theorem framed_conditionalForm (hg : g.Places Q) {t : Token} {out : Expr}
    (h : (conditionalForm g.full).Reads eof (t :: ts) out ts') : Framed Q (t :: ts) out ts' := by
  obtain ⟨cond, mid, hcond, t', mid', rfl, -, whenTrue, after, htrue, hend⟩ :=
    reads_conditionalForm.mp h
  -- The branches stand behind keywords of their own.
  have hcondition : Holds Q ts [cond] mid' := (holds_full hg hcond).tail
  obtain ⟨t'', rest, rfl, -, whenFalse, hfalse, rfl⟩ | ⟨-, rfl, rfl⟩ := hend
  · have hboth := hcondition.append (holds_full hg htrue).tail
    exact framed_of_parts hg rfl hboth hfalse (.inl rfl)
  · exact framed_of_parts hg rfl hcondition htrue (.inl rfl)

/-- An expression that is led by a keyword is framed by the keyword and its last part. -/
theorem framed_ledBy (hg : g.Places Q) {form : Rule TokenStream Expr} {out : Expr}
    (hform : ledBy? g.full (eof.next ts).kind = some form) (h : form.Reads eof ts out ts') :
    Framed Q ts out ts' := by
  cases ts with
  | nil => simp [ledBy?] at hform
  | cons t ts =>
    rw [EndMark.next_cons] at hform
    -- One case for each keyword, in the order of `ledBy?`.
    unfold ledBy? at hform
    split at hform
    · cases hform
      obtain ⟨cond, message, mid, hcond, semicolon, mid', rfl, -, rest, hrest, rfl⟩ :=
        reads_assertForm.mp h
      exact framed_of_parts hg rfl (holds_condition hg hcond).tail hrest (.inl rfl)
    · cases hform
      obtain ⟨message, hmessage, rfl⟩ := reads_errorForm.mp h
      exact framed_of_parts hg rfl (.nil _) hmessage (.inl rfl)
    · cases hform
      exact framed_conditionalForm hg h
    · cases hform
      obtain ⟨opening, mid, rfl, -, ps, mid', hps, body, hbody, rfl⟩ := reads_functionForm.mp h
      have hparameters : Holds Q (opening :: mid) [] mid' :=
        (Holds.of_suffix hps.suffix).cons opening
      exact framed_of_parts hg rfl hparameters hbody (.inl rfl)
    · cases hform
      obtain ⟨file, hfile, name, -, rfl⟩ := reads_importForm.mp h
      exact framed_of_parts hg rfl (.nil _) hfile (.inr rfl)
    · cases hform
      obtain ⟨file, hfile, name, -, rfl⟩ := reads_importForm.mp h
      exact framed_of_parts hg rfl (.nil _) hfile (.inr rfl)
    · cases hform
      obtain ⟨bs, mid, hbs, semicolon, rest, rfl, -, body, hbody, rfl⟩ := reads_localForm.mp h
      exact framed_of_parts hg rfl (holds_bindings hg hbs).tail hbody (.inl rfl)
    · cases hform

/-! ## Operands -/

/-- A selector ends with a token. -/
theorem holds_selector (hg : g.Places Q) {selector : Selector Expr} {last : Span}
    (h : fieldSelector.Reads eof ts (selector, last) ts' ∨
      (indexSelector g.full).Reads eof ts (selector, last) ts') :
    ∃ t, t.span = last ∧ t.kind ≠ .operator ∧ Holds Q ts selector.children (t :: ts') := by
  -- A field name is its own last token; an index ends with its bracket.
  obtain hfield | hindex := h
  · obtain ⟨name, rfl, hname, hout⟩ := reads_fieldSelector.mp hfield
    cases hout
    exact ⟨name, rfl, by simp [hname], .nil _⟩
  · obtain ⟨index, mid, hread, closing, rfl, hclosing, hout⟩ := reads_indexSelector.mp hindex
    cases hout
    exact ⟨closing, rfl, by simp [hclosing], holds_full hg hread⟩

/-- An operand of one token is framed by it; a selection from `super` ends with a token. -/
theorem framed_terminal (hg : g.Places Q) {out : Expr}
    (h : (terminal g.full).Reads eof ts out ts') :
    Framed Q ts out ts' := by
  obtain ⟨t, rest, rfl, ⟨shape, hshape, rfl, rfl⟩ | ⟨-, hsuper⟩⟩ := reads_terminal.mp h
  · exact framed_of_terminalShape hshape _
  · obtain ⟨t', rest', rfl, selector, last, hselector, rfl⟩ := reads_superIndex.mp hsuper
    obtain ⟨found, rfl, hfound, hholds⟩ := holds_selector hg (hselector.imp And.right And.right)
    exact .of_last_token hfound ((hholds.cons t').cons t)

/-- An array with the bracket that opens it. -/
theorem framed_array (hg : g.Places Q) (t : Token) {out : Expr}
    (h : (array g.full t.span).Reads eof ts out ts') : Framed Q (t :: ts) out ts' := by
  obtain ⟨list, hlist, rfl⟩ |
    ⟨first, mid, hfirst, comma, mid', hcomma, found, rest, rfl, -, cs, closing, hcs, rfl⟩ :=
      h.array_cases
  · have hclosing := (reads_commaList.mp hlist).2
    exact .of_last_token (by simp [hclosing]) ((holds_commaList hg (by simp) hlist).cons t)
  · obtain ⟨last, rfl, hlast, hclauses⟩ := holds_clauses hg hcs
    have hbody := ((holds_full hg hfirst).skip hcomma.suffix).tail
    exact .of_last_token hlast ((hbody.append hclauses).cons t)

/-- An operand without suffixes is placed on the tokens that it is read from. -/
theorem taken_primary (hg : g.Places Q) {out : Expr} (h : (primary g.full).Reads eof ts out ts') :
    Taken Q true ts out ts' := by
  -- An operand without suffixes is what no rounds of suffixes are built on.
  have hbuilds : g.Builds eof ts out ts' := .operand h .start
  obtain ⟨t, rest, rfl, ⟨-, hobject⟩ | ⟨-, harray⟩ | ⟨-, hparen⟩⟩ | ⟨-, -, -, hterminal⟩ :=
    reads_primary.mp h
  · exact ((framed_object hg t hobject).taken_of_builds hg hbuilds).loosen
  · exact ((framed_array hg t harray).taken_of_builds hg hbuilds).loosen
  · -- Parentheses are taken, but the expression inside does not own them.
    obtain ⟨mid, hinner, closing, rfl, hclosing⟩ := reads_parenthesised.mp hparen
    exact (hg.expr hinner).parenthesised t hclosing
  · exact ((framed_terminal hg hterminal).taken_of_builds hg hbuilds).loosen

/-- A suffix with the token that opens it, behind its target. -/
theorem framed_suffix (hg : g.Places Q) {first opening : Token} {kind : Suffix} {target out : Expr}
    {rest : List Token} (hkind : opening.kind = .punct (suffixMark kind))
    (htarget : Taken Q true (first :: ts) target (opening :: rest))
    (h : (suffix g.full first.span opening kind target).Reads eof rest out ts') :
    Framed Q (first :: ts) out ts' := by
  have hbehind : Holds Q (first :: ts) [target] rest := htarget.holds.tail
  obtain ⟨selector, last, hselector, rfl⟩ | ⟨rfl, list, mid, hlist, tailStrict, htail, rfl⟩ |
    ⟨rfl, right, hright, rfl⟩ := reads_suffix.mp h
  · obtain ⟨found, rfl, hfound, hholds⟩ := holds_selector hg (hselector.imp And.right And.right)
    exact .of_last_token hfound (hbehind.append hholds)
  · have hclosing := (reads_commaList.mp hlist).2
    have harguments := hbehind.append (holds_commaList hg (by simp) hlist)
    -- The call ends with `tailstrict`, or with the parenthesis that closes its arguments.
    obtain ⟨t, rfl, ht, rfl⟩ | ⟨-, rfl, rfl⟩ := (reads_accept (by simp)).mp htail
    · exact .of_last_token (by simp [ht]) harguments.tail
    · exact .of_last_token (by simp [hclosing]) harguments
  · -- The object on the right starts with the token that opens the suffix.
    have hobject : (primary g.full).Reads eof (opening :: rest) right ts' :=
      reads_primary.mpr (.inl ⟨opening, rest, rfl, .inl ⟨hkind, hright⟩⟩)
    have htaken := (framed_object hg opening hright).taken_of_builds hg (.operand hobject .start)
    refine .of_last_expr htarget.holds htaken ?_ htarget.suffix_tail (.inl rfl)
    simp [endsWithPart_of_object hright]

/-- An operand with its suffixes is placed on the tokens that it is read from. -/
theorem taken_operand (hg : g.Places Q) {out : Expr} (h : (operand g.full).Reads eof ts out ts') :
    Taken Q true ts out ts' := by
  obtain ⟨target, mid, hfirst, hsuffixes⟩ := reads_operand.mp h
  have htaken := taken_primary hg hfirst
  obtain ⟨first, ts, rfl, -⟩ := htaken.exists_cons
  -- The invariant: the operand so far is placed on what was taken, and is read by the rounds so
  -- far.
  have hloop :=
    hsuffixes.whileNext_induction (fun before rest => Taken Q true (first :: ts) before rest ∧
    Rounds Suffix.ofToken? (suffix g.full first.span) eof target mid before rest) ?_ ?_
  · exact hloop.1.1
  · exact ⟨htaken, .start⟩
  · intro opening rest kind before after mid' hopening hround hbefore
    have hrounds := hbefore.2.round hopening hround
    have hframed := framed_suffix hg (ofToken?_eq_suffix.mp hopening) hbefore.1 hround
    exact ⟨(hframed.taken_of_builds hg (.operand hfirst hrounds)).loosen, hrounds⟩

/-! ## Operators -/

/-- A unary operation is placed on the tokens that it is read from. -/
theorem taken_unary (hg : g.Places Q) {out : Expr} (h : (unary g).Reads eof ts out ts') :
    Taken Q true ts out ts' := by
  have hbuilds : g.Builds eof ts out ts' :=
    .chain h (.start : Rounds (binaryOp? .loosest) _ _ _ _ _ _)
  obtain ⟨t, rest, rfl, -, op, -, e, he, rfl⟩ | ⟨-, hplain⟩ := reads_unary.mp h
  · have hframed : Framed Q (t :: rest) (.node (.between t.span e.span) (.unary op e)) ts' :=
      .of_last_expr ((Holds.nil _).cons t) (hg.operand he) (fun _ => rfl) (List.suffix_refl _)
        (.inl rfl)
    exact (hframed.taken_of_builds hg hbuilds).loosen
  · exact taken_operand hg hplain

/-- An operator with its right operand, behind the left one. -/
theorem framed_chainRound (hg : g.Places Q) {first t : Token} {op : BinaryOp} {left out : Expr}
    {rest : List Token} (hleft : Taken Q true (first :: ts) left (t :: rest))
    (h : (chainRound g first.span t op left).Reads eof rest out ts') :
    Framed Q (first :: ts) out ts' := by
  obtain ⟨right, hright, rfl⟩ := reads_chainRound.mp h
  have hrest : rest <:+ ts := (List.suffix_cons ..).trans hleft.suffix_tail
  exact .of_last_expr hleft.holds.tail (hg.expr hright) (fun _ => rfl) hrest (.inl rfl)

/-- A chain of operators is placed on the tokens that it and its left operand are read from. -/
theorem taken_binaryChain (hg : g.Places Q) {precedence : Precedence} {left out : Expr}
    {mid : List Token} (hleft : (unary g).Reads eof ts left mid)
    (h : (binaryChain g precedence (eof.next ts).span left).Reads eof mid out ts') :
    Taken Q true ts out ts' := by
  obtain ⟨hchain, -⟩ := reads_binaryChain.mp h
  have htaken := taken_unary hg hleft
  obtain ⟨first, ts, rfl, -⟩ := htaken.exists_cons
  -- The same invariant, for the chain of operators so far.
  have hloop :=
    hchain.whileNext_induction (fun before rest => Taken Q true (first :: ts) before rest ∧
    Rounds (binaryOp? precedence) (chainRound g first.span) eof left mid before rest) ?_ ?_
  · exact hloop.1.1
  · exact ⟨htaken, .start⟩
  · intro t rest op before after mid' hop hround hbefore
    have hrounds := hbefore.2.round hop hround
    have hframed := framed_chainRound hg hbefore.1 hround
    exact ⟨(hframed.taken_of_builds hg (.chain hleft hrounds)).loosen, hrounds⟩

/-- Expressions of the next level are placed on the tokens that they are read from. -/
theorem taken_expression (hg : g.Places Q) {precedence : Precedence} {out : Expr}
    (h : (expression g precedence).Reads eof ts out ts') : Taken Q true ts out ts' := by
  obtain ⟨form, hform, hread⟩ | ⟨-, left, mid, hleft, hchain⟩ := reads_expression.mp h
  · exact ((framed_ledBy hg hform hread).taken_of_builds hg (.form hform hread)).loosen
  · exact taken_binaryChain hg hleft hchain

/-- Operands of unary operators on the next level are placed on their tokens. -/
theorem taken_unaryOperand (hg : g.Places Q) {out : Expr}
    (h : (unaryOperand g).Reads eof ts out ts') :
    Taken Q true ts out ts' := by
  obtain ⟨form, hform, hread⟩ | ⟨-, hunary⟩ := reads_unaryOperand.mp h
  · exact ((framed_ledBy hg hform hread).taken_of_builds hg (.form hform hread)).loosen
  · exact taken_unary hg hunary

end Rule

/-! ## Levels and programs -/

/-- The expression is what its own tokens are read as, up to closing parentheses behind them, with
    less than the greatest nesting. -/
def ReadFrom (own behind : List Token) (e : Expr) : Prop :=
  ∃ n < maxNesting, ∃ eof back ts', behind = back ++ ts' ∧ Closers e.endsWithPart back ∧
    (Level.upTo n).Builds eof (own ++ back ++ ts') e ts'

/-- What every level below the greatest nesting reads is placed on the tokens that it takes. -/
theorem Level.places_upTo {n : Nat} (hn : n < maxNesting) : (upTo n).Places ReadFrom := by
  -- What is known at each level is how the level builds an expression.
  induction n with
  | zero =>
    exact ⟨fun h => absurd h reads_exhausted_expr, fun h => absurd h reads_exhausted_operand,
      fun hback h => ⟨0, hn, _, _, _, rfl, hback, h⟩⟩
  | succ n ih =>
    have hg := ih (Nat.lt_of_succ_lt hn)
    exact ⟨fun h => Rule.taken_expression hg (reads_deepen_expr.mp h),
      fun h => Rule.taken_unaryOperand hg (reads_deepen_operand.mp h),
      fun hback h => ⟨n + 1, hn, _, _, _, rfl, hback, h⟩⟩

/-- Every node of the tree of a program is placed on tokens of the program. -/
theorem exists_placed_of_parse {tokens : List Token} {root n : Expr} (h : parse tokens = .ok root)
    (hn : n.IsWithin root) :
    ∃ front own behind,
      tokensAhead tokens = front ++ own ++ behind ∧ Placed ReadFrom own behind n := by
  have hread := parse_eq_ok_iff.mp h
  -- A program is read one level below the greatest nesting.
  have hg : (Level.upTo (maxNesting - 1)).Places ReadFrom := Level.places_upTo (by decide)
  obtain ⟨front, own, back, htokens, -, hroot⟩ :=
    Rule.taken_expression hg (Level.reads_deepen_expr.mp hread)
  obtain ⟨front', own', behind, hbehind, hplaced⟩ := hroot.of_isWithin hn
  refine ⟨front ++ front', own', behind, ?_, hplaced⟩
  simp only [List.append_assoc] at hbehind htokens ⊢
  rw [htokens, hbehind]

end JsonnetSyntax
