import JsonnetSyntax.Proofs.Grammar.Refitting

/-!
# Array elements and call arguments

The elements of an array and the arguments of a call are the same lists.  The two are read by
different rules: an array looks for a comprehension behind its first element, and the arguments are
closed by another mark.  But every expression in such a list ends in the same way in front of either
mark, and no expression starts with a token that a comprehension goes on with.

## Key results

- `Rule.reads_commaList_of_closing`: a list can be closed by another mark
- `Rule.Reads.whileNext_eq_start`: a result that no round of a loop gives is the one it started from
- `Rule.reads_expression_array`, `Rule.reads_expression_apply`: programs that are one array or one
  call
- `parse_array_iff_parse_apply`: arrays have the elements that calls have arguments
-/

namespace JsonnetSyntax

/-! ## Closing marks -/

/-- The marks that close a list of expressions. -/
def Punct.closesList : Punct → Bool
  | .bracketR | .parenR => true
  | _ => false

/-- A mark that closes a list ends everything that is open before it. -/
theorem Token.endsAll_of_closesList {t : Token} {closing : Punct} (ht : t.kind = .punct closing)
    (hclosing : closing.closesList = true) : t.EndsAll := by
  cases closing <;> cases hclosing <;>
    exact ⟨by rw [ht]; rfl, by simp [ht], by simp [ht]⟩

/-- No expression starts with a mark that closes a list. -/
theorem opensExpr_of_closesList {closing : Punct} (hclosing : closing.closesList = true) :
    (TokenKind.punct closing).opensExpr = false := by
  cases closing <;> cases hclosing <;> rfl

/-- A comma closes no list. -/
theorem closesList_ne_comma {closing : Punct} (hclosing : closing.closesList = true) :
    closing ≠ .comma := by
  intro h
  simp [h, Punct.closesList] at hclosing

namespace Rule

section Lists

variable {full : Rule TokenStream Expr} {eof eof' : EndMark} {closing closing' : Punct}
  {mark mark' : Token} {taken r r' : List Token}

/-- No expression starts with a mark that closes a list. -/
theorem next_ne_closing (hopens : full.OpensExpr) (hclosing : closing.closesList = true)
    {ts ts' : List Token} {e : Expr} (h : full.Reads eof ts e ts') :
    ((eof.next ts).kind == .punct closing) = false := by
  have hopen := hopens eof ts e ts' h
  rw [beq_eq_false_iff_ne]
  intro hkind
  rw [hkind, opensExpr_of_closesList hclosing] at hopen
  cases hopen

/-- The items behind the first one go on in the same way up to another mark. -/
theorem reads_moreItems_of_closing (hfull : full.ReadsExprs) (hclosing : closing.closesList = true)
    (hclosing' : closing'.closesList = true) (hmark' : mark'.kind = .punct closing')
    {start out : Array Expr × Bool}
    (h : (moreItems (· == .punct closing) (pushExpr full) start).Reads eof (taken ++ mark :: r) out
      (mark :: r)) :
    (moreItems (· == .punct closing') (pushExpr full) start).Reads eof' (taken ++ mark' :: r') out
      (mark' :: r') := by
  -- Neither closing mark is a comma, so the loop stops in front of either.
  have hnoComma : comma? mark' = none := by
    rw [comma?_eq_none, hmark']
    simpa using closesList_ne_comma hclosing'
  -- Every round takes a comma, so the tokens that are left get fewer.
  induction hn : taken.length using Nat.strongRecOn generalizing start taken with
  | ind n ih =>
    obtain ⟨rfl, hr, -⟩ | ⟨t, rest, _, after, mid, hcons, ht, hround, hloop⟩ := reads_whileNext.mp h
    · obtain rfl : taken = [] := List.append_left_eq_self.mp hr.symm
      exact reads_whileNext_stop hnoComma
    · obtain ⟨taken, rfl, rfl⟩ := exists_cons_of_append hcons (hloop.suffix.trans hround.suffix)
      obtain ⟨hstop, rfl, rfl⟩ | ⟨-, exprs, hitem, rfl⟩ := reads_afterComma.mp hround
      · -- The comma is the last token: the mark stands behind it, so the loop has ended.
        obtain ⟨rfl, hr, -⟩ | ⟨u, _, _, _, _, hcons, hu, -, -⟩ := reads_whileNext.mp hloop
        · obtain rfl : taken = [] := List.append_left_eq_self.mp hr.symm
          refine reads_whileNext.mpr
            (.inr ⟨t, _, (), (start.1, true), mark' :: r', rfl, ht, ?_, ?_⟩)
          · exact reads_afterComma.mpr (.inl ⟨by simp [hmark'], rfl, rfl⟩)
          · exact reads_whileNext_stop hnoComma
        · rw [hcons, EndMark.next_cons, comma?_eq_some.mp hu] at hstop
          exact absurd (TokenKind.punct.inj (beq_iff_eq.mp hstop)).symm
            (closesList_ne_comma hclosing)
      · obtain ⟨e, he, rfl⟩ := reads_pushExpr.mp hitem
        -- What the item was read from is followed by either mark in the same way.
        have hfollow : CanFollow Token.EndsAll eof' (mark :: r) (mark' :: r') :=
          .inl (Token.endsAll_of_closesList hmark' hclosing')
        obtain ⟨back, rfl, he'⟩ := hfull.refits.step hfollow he hloop.suffix
        have hshorter : back.length < n := by
          have hlength := he.suffix.length_le
          simp only [List.length_append] at hlength
          rw [← hn, List.length_cons]
          omega
        refine reads_whileNext.mpr
          (.inr ⟨t, _, (), (start.1.push e, false), back ++ mark' :: r', rfl, ht, ?_,
          ih back.length hshorter hloop rfl⟩)
        exact reads_afterComma.mpr (.inr ⟨next_ne_closing hfull.opens hclosing' he', _,
          reads_pushExpr.mpr ⟨e, he', rfl⟩, rfl⟩)

/-- A list of expressions can be closed by another mark. -/
theorem reads_commaList_of_closing (hfull : full.ReadsExprs) (hclosing : closing.closesList = true)
    (hclosing' : closing'.closesList = true) (hmark' : mark'.kind = .punct closing')
    {what : ListItem} (what' : ListItem) {exprs : List Expr} {trailingComma : Bool}
    (h : (commaList full closing what).Reads eof (taken ++ mark :: r) ⟨exprs, trailingComma, mark⟩
      r) :
    (commaList full closing' what').Reads eof' (taken ++ mark' :: r') ⟨exprs, trailingComma, mark'⟩
      r' := by
  obtain ⟨hitems, -⟩ := reads_commaList.mp h
  refine reads_commaList.mpr ⟨?_, hmark'⟩
  obtain ⟨-, hlist, hr⟩ | ⟨-, firsts, mid, hitem, hmore⟩ := reads_items.mp hitems
  · obtain rfl : taken = [] := List.append_left_eq_self.mp hr.symm
    exact reads_items.mpr (.inl ⟨by simp [hmark'], hlist, rfl⟩)
  · -- The list has a first item, and the loop reads the others behind it.
    obtain ⟨first, hfirst, rfl⟩ := reads_pushExpr.mp hitem
    have hfollow : CanFollow Token.EndsAll eof' (mark :: r) (mark' :: r') :=
      .inl (Token.endsAll_of_closesList hmark' hclosing')
    obtain ⟨back, rfl, hfirst'⟩ := hfull.refits.step hfollow hfirst hmore.suffix
    exact reads_items.mpr
      (.inr ⟨next_ne_closing hfull.opens hclosing' hfirst', _, back ++ mark' :: r',
      reads_pushExpr.mpr ⟨first, hfirst', rfl⟩,
      reads_moreItems_of_closing hfull hclosing hclosing' hmark' hmore⟩)

/-- The mark that closes a list at the end of the tokens is the last of them. -/
theorem closing_eq_of_reads_commaList {what : ListItem} {list : CommaList}
    (h : (commaList full closing what).Reads eof (taken ++ [mark]) list []) :
    list.closing = mark := by
  obtain ⟨hitems, -⟩ := reads_commaList.mp h
  obtain ⟨front, hfront⟩ := hitems.suffix
  exact List.singleton_inj.mp (List.append_inj_right' hfront rfl)

end Lists

/-! ## Programs that are one array or one call -/

section Roots

variable {β σ : Type} {g : Level TokenStream} {eof : EndMark} {ts ts' : List Token}

/-- A result that no round of a loop gives is the state that the loop started from.  The states keep
    the property `J`. -/
theorem Reads.whileNext_eq_start {select : Token → Option β}
    {body : Token → β → σ → Rule TokenStream σ} {state out : σ} (J Q : σ → Prop)
    (h : (whileNext select body state).Reads eof ts out ts') (hstart : J state)
    (hround : ∀ {t rest choice before after mid}, J before →
      (body t choice before).Reads eof rest after mid → J after ∧ ¬ Q after) (hout : Q out) :
    out = state ∧ ts' = ts := by
  have hloop :=
    h.whileNext_induction (fun after mid => J after ∧ (after = state ∧ mid = ts ∨ ¬ Q after))
    ⟨hstart, .inl ⟨rfl, rfl⟩⟩ ?_
  · obtain ⟨-, hsame | hnot⟩ := hloop.1
    · exact hsame
    · exact absurd hout hnot
  · intro t rest choice before after mid _ hbody hbefore
    obtain ⟨hafter, hnot⟩ := hround hbefore.1 hbody
    exact ⟨hafter, .inr hnot⟩

/-- What a suffix gives is a lookup, a call or an extension of its target. -/
theorem shape_of_reads_suffix {full : Rule TokenStream Expr} {start : Span} {opening : Token}
    {kind : Suffix} {target out : Expr}
    (h : (suffix full start opening kind target).Reads eof ts out ts') :
    (∃ span selector, out = .node span (.index target selector)) ∨
    (∃ span arguments comma tailStrict,
      out = .node span (.apply target arguments comma tailStrict)) ∨
    ∃ span right, out = .node span (.applyBrace target right) := by
  obtain ⟨selector, last, -, rfl⟩ | ⟨-, list, mid, -, tailStrict, -, rfl⟩ | ⟨-, right, -, rfl⟩ :=
    reads_suffix.mp h
  · exact .inl ⟨_, selector, rfl⟩
  · exact .inr (.inl ⟨_, _, _, _, rfl⟩)
  · exact .inr (.inr ⟨_, right, rfl⟩)

/-- Behind anything but a variable, no suffixes give a call of a variable. -/
theorem call_eq_of_reads_suffixes {full : Rule TokenStream Expr} {start span : Span}
    {state target : Expr} {arguments : List Expr} {comma tailStrict : Bool}
    (h : (whileNext Suffix.ofToken?
      (fun opening kind target => suffix full start opening kind target)
      state).Reads eof ts (.node span (.apply target arguments comma tailStrict)) ts')
    (hstate : state.identifier? = none) (htarget : target.identifier? ≠ none) :
    .node span (.apply target arguments comma tailStrict) = state ∧ ts' = ts := by
  refine h.whileNext_eq_start (fun e => e.identifier? = none)
    (fun e => ∃ span target arguments comma tailStrict, target.identifier? ≠ none ∧
      e = .node span (.apply target arguments comma tailStrict)) hstate ?_
    ⟨span, target, arguments, comma, tailStrict, htarget, rfl⟩
  intro t rest choice before after mid hbefore hround
  obtain ⟨_, _, rfl⟩ | ⟨_, _, _, _, rfl⟩ | ⟨_, _, rfl⟩ := shape_of_reads_suffix hround
  · exact ⟨rfl, by simp⟩
  · -- A call made by this round has the state as its target, which is no variable.
    refine ⟨rfl, fun hcall => ?_⟩
    obtain ⟨_, _, _, _, _, htarget, heq⟩ := hcall
    cases heq
    exact htarget hbefore
  · exact ⟨rfl, by simp⟩

/-- An expression that starts with a mark or a name and is no operation is an operand. -/
theorem reads_operand_of_expression {t : Token} {span : Span} {shape : Shape Expr}
    (hoperator : t.kind ≠ .operator) (hled : ledBy? g.full t.kind = none)
    (hshape : ∀ left op right, shape ≠ .binary left op right)
    (h : (expression g .loosest).Reads eof (t :: ts) (.node span shape) ts') :
    (operand g.full).Reads eof (t :: ts) (.node span shape) ts' := by
  obtain ⟨form, hform, -⟩ | ⟨-, left, mid, hleft, hchain⟩ := reads_expression.mp h
  · rw [EndMark.next_cons, hled] at hform
    cases hform
  · -- The chain made no round: a round gives an operation, which the shape is not.
    obtain ⟨hloop, -⟩ := reads_binaryChain.mp hchain
    obtain ⟨rfl, rfl⟩ := hloop.whileNext_eq_start (fun _ => True)
      (fun e => ∀ span left op right, e ≠ .node span (.binary left op right)) trivial
      (fun _ hround => by
        obtain ⟨right, mid', -, hout⟩ := reads_bind.mp hround
        obtain ⟨rfl, -⟩ := reads_pure.mp hout
        exact ⟨trivial, fun hnot => hnot _ _ _ _ rfl⟩)
      (by
        intro span' left op right heq
        cases heq
        exact hshape left op right rfl)
    obtain ⟨_, _, hcons, ht, -⟩ | ⟨-, hoperand⟩ := reads_unary.mp hleft
    · cases hcons
      exact absurd ht hoperator
    · exact hoperand

/-- A program that is one array. -/
theorem reads_expression_array {opening : Token} (hopening : opening.kind = .punct .bracketL)
    (hopens : g.full.OpensExpr) {elements : List Expr} {comma : Bool} :
    (∃ span,
      (expression g .loosest).Reads eof (opening :: ts) (.node span (.array elements comma)) []) ↔
      ∃ list, (commaList g.full .bracketR .element).Reads eof ts list [] ∧
        list.exprs = elements ∧ list.trailingComma = comma := by
  constructor
  · intro h
    obtain ⟨span, h⟩ := h
    -- The root is an array, so neither a keyword form nor an operation: it is an operand.
    have hoperand := reads_operand_of_expression (by simp [hopening]) (by simp [hopening, ledBy?])
      (by simp) h
    obtain ⟨first, mid, hfirst, hsuffixes⟩ := reads_operand.mp hoperand
    -- No suffix gives an array, so there is none.
    obtain ⟨rfl, rfl⟩ := hsuffixes.whileNext_eq_start (fun _ => True)
      (fun e => ∃ span elements comma, e = .node span (.array elements comma)) trivial
      (fun _ hround => ⟨trivial, by
        obtain ⟨_, _, rfl⟩ | ⟨_, _, _, _, rfl⟩ | ⟨_, _, rfl⟩ :=
          shape_of_reads_suffix hround <;> simp⟩)
      ⟨span, elements, comma, rfl⟩
    obtain ⟨_, _, hcons, ⟨ht, -⟩ | ⟨-, harray⟩ | ⟨ht, -⟩⟩ | ⟨-, hbracket, -⟩ :=
      reads_primary.mp hfirst
    · cases hcons
      simp [hopening] at ht
    · cases hcons
      obtain ⟨list, hlist, heq⟩ | hloop := (reads_array hopens).mp harray
      · cases heq
        exact ⟨list, hlist, rfl, rfl⟩
      · simp [arrayLoop] at hloop
    · cases hcons
      simp [hopening] at ht
    · exact absurd hopening hbracket
  · intro h
    obtain ⟨list, hlist, rfl, rfl⟩ := h
    have hprimary : (primary g.full).Reads eof (opening :: ts)
        (.node (.between opening.span list.closing.span) (.array list.exprs list.trailingComma))
          [] :=
      reads_primary.mpr
        (.inl ⟨opening, ts, rfl, .inr (.inl ⟨hopening, reads_array_of_commaList hopens hlist⟩)⟩)
    exact ⟨_,
      reads_expression_of_primary hopening hprimary (.inl (by simp [TokenKind.endsOperand]))⟩

/-- A program that is one call of a variable. -/
theorem reads_expression_apply {name opening : Token} (hname : name.kind = .identifier)
    (hopening : opening.kind = .punct .parenL) {arguments : List Expr} {comma : Bool} :
    (∃ span at', (expression g .loosest).Reads eof (name :: opening :: ts)
        (.node span (.apply (.node at' (.var name.data name.data)) arguments comma false)) []) ↔
      ∃ list, (commaList g.full .parenR .argument).Reads eof ts list [] ∧
        list.exprs = arguments ∧ list.trailingComma = comma := by
  -- The name alone is the first part of the operand.
  have hvar : (primary g.full).Reads eof (name :: opening :: ts)
      (.node name.span (.var name.data name.data)) (opening :: ts) := by
    refine reads_primary.mpr (.inr ⟨by simp [hname], by simp [hname], by simp [hname], ?_⟩)
    exact reads_terminal.mpr ⟨name, _, rfl, .inl ⟨_, by simp [terminalShape?, hname], rfl, rfl⟩⟩
  have hselect : Suffix.ofToken? opening = some .arguments := ofToken?_eq_suffix.mpr hopening
  constructor
  · intro h
    obtain ⟨span, at', h⟩ := h
    have hoperand :=
      reads_operand_of_expression (by simp [hname]) (by simp [hname, ledBy?]) (by simp) h
    obtain ⟨first, mid, hfirst, hsuffixes⟩ := reads_operand.mp hoperand
    cases (show Outcome.done _ _ = Outcome.done _ _ from hfirst.symm.trans hvar)
    -- The parenthesis behind the name opens the first suffix.
    obtain ⟨heq, -⟩ | ⟨_, _, _, after, mid, hcons, hkind, hround, hloop⟩ :=
      reads_whileNext.mp hsuffixes
    · cases heq
    · cases hcons
      cases hselect.symm.trans hkind
      obtain ⟨_, _, ⟨hfield, -⟩ | ⟨hindex, -⟩, -⟩ |
        ⟨-, list, mid', hlist, tailStrict, haccept, rfl⟩ | ⟨hextension, -⟩ :=
          reads_suffix.mp hround
      · cases hfield
      · cases hindex
      · -- Only the arguments open with a parenthesis; no later suffix gives this call again.
        obtain ⟨heq, rfl⟩ := call_eq_of_reads_suffixes hloop rfl (Option.some_ne_none name.data)
        cases heq
        obtain ⟨_, -, -, hfalse⟩ | ⟨-, rfl, -⟩ := (reads_accept (by simp)).mp haccept
        · cases hfalse
        · exact ⟨list, hlist, rfl, rfl⟩
      · cases hextension
  · intro h
    obtain ⟨list, hlist, rfl, rfl⟩ := h
    have hsuffix :
        (suffix g.full name.span opening .arguments
          (.node name.span (.var name.data name.data))).Reads
        eof ts (.node (.between name.span list.closing.span)
          (.apply (.node name.span (.var name.data name.data)) list.exprs list.trailingComma false))
            [] :=
      reads_suffix.mpr (.inr (.inl ⟨rfl, list, [], hlist, false,
        (reads_accept (by simp)).mpr (.inr ⟨by simp, rfl, rfl⟩), rfl⟩))
    have hends : (eof.next []).EndsExpr := .inl (by simp [TokenKind.endsOperand])
    have hoperand := reads_operand_of_suffix .arguments hvar hopening hsuffix hends
    exact ⟨_, _,
      reads_expression_of_operand (by simp [hname]) (by simp [hname, ledBy?]) hoperand hends⟩

end Roots

end Rule

/-! ## Arrays and calls -/

/-- A program that is one expression of the outermost level. -/
theorem parse_concat_eq_ok_iff {tokens : List Token} {eof : Token} {root : Expr}
    (htokens : ∀ t ∈ tokens, t.kind ≠ .endOfFile) (heof : eof.kind = .endOfFile) :
    parse (tokens ++ [eof]) = .ok root ↔
      (Rule.expression (.upTo (maxNesting - 1)) .loosest).Reads (.ofTokens (tokens ++ [eof])) tokens
        root [] := by
  rw [parse_eq_ok_iff, tokensAhead_concat heof htokens]
  exact Level.reads_deepen_expr

/-- The elements of an array and the arguments of a call are the same lists: between brackets, some
    tokens are the elements of an array just if between parentheses, behind a name, they are the
    arguments of a call of that variable. -/
theorem parse_array_iff_parse_apply {bracketL bracketR name parenL parenR eof eof' : Token}
    {list : List Token} (hbracketL : bracketL.kind = .punct .bracketL)
    (hbracketR : bracketR.kind = .punct .bracketR) (hname : name.kind = .identifier)
    (hparenL : parenL.kind = .punct .parenL) (hparenR : parenR.kind = .punct .parenR)
    (heof : eof.kind = .endOfFile) (heof' : eof'.kind = .endOfFile)
    (hlist : ∀ t ∈ list, t.kind ≠ .endOfFile) (exprs : List Expr) (comma : Bool) :
    (∃ span,
      parse (bracketL :: list ++ [bracketR] ++ [eof]) = .ok (.node span (.array exprs comma))) ↔
      ∃ span place, parse (name :: parenL :: list ++ [parenR] ++ [eof']) =
        .ok (.node span (.apply (.node place (.var name.data name.data)) exprs comma false)) := by
  -- The end of the tokens is the mark behind them, in both programs.
  have harray : ∀ t ∈ bracketL :: list ++ [bracketR], t.kind ≠ .endOfFile := by
    simpa [hbracketL, hbracketR, or_imp, forall_and] using hlist
  have happly : ∀ t ∈ name :: parenL :: list ++ [parenR], t.kind ≠ .endOfFile := by
    simpa [hname, hparenL, hparenR, or_imp, forall_and] using hlist
  have hfull := (Level.refits_upTo (maxNesting - 1)).full
  simp only [parse_concat_eq_ok_iff harray heof, parse_concat_eq_ok_iff happly heof']
  simp only [List.cons_append]
  rw [Rule.reads_expression_array hbracketL hfull.opens, Rule.reads_expression_apply hname hparenL]
  constructor
  · intro h
    obtain ⟨elements, hread, rfl, rfl⟩ := h
    obtain rfl := Rule.closing_eq_of_reads_commaList hread
    exact ⟨_, Rule.reads_commaList_of_closing hfull rfl rfl hparenR .argument hread, rfl, rfl⟩
  · intro h
    obtain ⟨arguments, hread, rfl, rfl⟩ := h
    obtain rfl := Rule.closing_eq_of_reads_commaList hread
    exact ⟨_, Rule.reads_commaList_of_closing hfull rfl rfl hbracketR .element hread, rfl, rfl⟩

namespace SampleLists

/-- A token without a place. -/
def token (kind : TokenKind) (data : String) : Token :=
  { kind := kind, data := data, span := .unset "sample" }

/-- The tokens of `a + b, if a then b,`. -/
def list : List Token :=
  [token .identifier "a", token .operator "+", token .identifier "b", token (.punct .comma) ",",
    token (.keyword .if) "if", token .identifier "a",
    token (.keyword .then) "then", token .identifier "b", token (.punct .comma) ","]

/-- The tokens in brackets. -/
def asArray : List Token :=
  token (.punct .bracketL) "[" :: list ++ [token (.punct .bracketR) "]"] ++ [token .endOfFile ""]

/-- The tokens in parentheses, behind a name. -/
def asCall : List Token :=
  token .identifier "f" :: token (.punct .parenL) "(" :: list ++ [token (.punct .parenR) ")"] ++
    [token .endOfFile ""]

/-- Two elements and a comma behind them. -/
def isPair : Except Error Expr → Bool
  | .ok (.node _ (.array [_, _] true)) => true
  | _ => false

end SampleLists

/-- The same two elements in brackets and behind a name in parentheses, with a comma at the end. -/
theorem parse_array_iff_parse_apply_sample :
    ∃ first second,
      (∃ span, parse SampleLists.asArray = .ok (.node span (.array [first, second] true))) ∧
      ∃ span place, parse SampleLists.asCall =
        .ok (.node span (.apply (.node place (.var "f" "f")) [first, second] true false)) := by
  have hpair : SampleLists.isPair (parse SampleLists.asArray) = true := by decide +kernel
  unfold SampleLists.isPair at hpair
  split at hpair
  · next span first second harray =>
    exact ⟨first, second, ⟨span, harray⟩,
      (parse_array_iff_parse_apply rfl rfl rfl rfl rfl rfl rfl (by decide) _ _).mp ⟨span, harray⟩⟩
  · cases hpair

end JsonnetSyntax
