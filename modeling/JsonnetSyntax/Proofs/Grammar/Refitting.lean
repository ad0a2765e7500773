import JsonnetSyntax.Proofs.Grammar.Lookahead
import JsonnetSyntax.Proofs.Grammar.Relocation
import JsonnetSyntax.Proofs.Grammar.RoundTrip

/-!
# What may follow an expression

An expression is read in the same way wherever it ends: the tokens behind it can be replaced by
others, as long as the first of these cannot go on with the expression.  `Rule.Refits` says so of a
rule, for the tokens with a property.  Rules that end in a token of their own refit in front of any
token, and all rules refit in front of the token that stood there before, since no rule looks
further than to the next token.

## Key results

- `Rule.Refits.of_inStep`: no rule depends on what stands behind the next token
- `Rule.Refits.bind_of_takes`, `Rule.Refits.whileNext`: sequences and loops
- `Rule.refits_primary`, `Rule.refits_suffix`: operands
- `Level.refits_upTo`: expressions of every depth, in front of all tokens that end expressions
-/

namespace JsonnetSyntax

/-! ## Tokens behind a reading -/

/-- The tokens `r'` can stand in the place of `r`: they start with the same token, or with one that
    has the property `P`. -/
def CanFollow (P : Token → Prop) (eof' : EndMark) (r r' : List Token) : Prop :=
  P (eof'.next r') ∨ ∃ t more more', r = t :: more ∧ r' = t :: more'

section CanFollow

variable {P Q : Token → Prop} {eof' : EndMark} {t : Token} {taken mid rest r r' : List Token}

/-- A weaker property lets more tokens follow. -/
theorem CanFollow.mono (h : CanFollow P eof' r r') (hPQ : ∀ t, P t → Q t) : CanFollow Q eof' r r' :=
  h.imp_left (hPQ _)

/-- Tokens that start with the same token can follow. -/
theorem canFollow_cons : CanFollow P eof' (t :: r) (t :: r') := .inr ⟨t, r, r', rfl, rfl⟩

/-- Tokens that stay in front do no harm. -/
theorem CanFollow.append (h : CanFollow P eof' r r') : CanFollow P eof' (mid ++ r) (mid ++ r') := by
  cases mid with
  | nil => exact h
  | cons t mid => exact canFollow_cons

/-- What a rule leaves of tokens, in front of the rest that is left in the end. -/
theorem exists_taken_append (hmid : mid <:+ taken ++ r) (hr : r <:+ mid) :
    ∃ front back, taken = front ++ back ∧ mid = back ++ r := by
  obtain ⟨front, hfront⟩ := hmid
  obtain ⟨back, rfl⟩ := hr
  rw [← List.append_assoc] at hfront
  exact ⟨front, back, (List.append_cancel_right hfront).symm, rfl⟩

/-- A first token that is taken is one of those that are not left. -/
theorem exists_cons_of_append (h : taken ++ r = t :: rest) (hr : r <:+ rest) :
    ∃ taken', taken = t :: taken' ∧ rest = taken' ++ r := by
  cases taken with
  | nil =>
    -- The rest that is left would be longer than the tokens behind the first one.
    have hlength := hr.length_le
    rw [show r = t :: rest from h, List.length_cons] at hlength
    omega
  | cons u taken =>
    cases h
    exact ⟨taken, rfl, rfl⟩

end CanFollow

namespace Rule

section Combinators

variable {α β σ : Type} {P Q : Token → Prop} {rule : Rule TokenStream α}
  {next : α → Rule TokenStream β} {eof eof' : EndMark}
  {t : Token} {taken mid r r' : List Token} {value : α}

/-- Whatever the rule reads in front of some tokens, it reads in front of others that can follow. -/
structure Refits (P : Token → Prop) (rule : Rule TokenStream α) : Prop where
  read : ∀ {eof eof' : EndMark} {taken r r' : List Token} {value : α}, CanFollow P eof' r r' →
    rule.Reads eof (taken ++ r) value r → rule.Reads eof' (taken ++ r') value r'

/-- A rule that refits in front of tokens with a property does so for a stronger one. -/
theorem Refits.mono (h : rule.Refits P) (hPQ : ∀ t, Q t → P t) : rule.Refits Q :=
  ⟨fun hfollow hread => h.read (hfollow.mono hPQ) hread⟩

/-- One part of a reading, and what is left of the tokens that are taken later. -/
theorem Refits.step (h : rule.Refits P) (hfollow : CanFollow P eof' r r')
    (hread : rule.Reads eof (taken ++ r) value mid) (hr : r <:+ mid) :
    ∃ back, mid = back ++ r ∧ rule.Reads eof' (taken ++ r') value (back ++ r') := by
  obtain ⟨front, back, rfl, rfl⟩ := exists_taken_append hread.suffix hr
  rw [List.append_assoc] at hread ⊢
  exact ⟨back, rfl, h.read hfollow.append hread⟩

/-! ## Sequences -/

/-- A rule that reads nothing refits in front of every token. -/
theorem Refits.pure : (pure value : Rule TokenStream α).Refits P := by
  constructor
  intro eof eof' taken r r' out _ hread
  obtain ⟨rfl, hr⟩ := reads_pure.mp hread
  obtain rfl : taken = [] := List.append_left_eq_self.mp hr.symm
  exact reads_pure.mpr ⟨rfl, rfl⟩

/-- A rule that fails reads nothing, so there is nothing to refit. -/
theorem Refits.fail {fault : GrammarFault} {span : Span} :
    (fail fault span : Rule TokenStream α).Refits P :=
  ⟨fun _ hread => absurd hread reads_fail⟩

/-- A sequence of rules that refit does so too. -/
theorem Refits.bind (h : rule.Refits P) (hnext : ∀ value, (next value).Refits P) :
    (rule >>= next).Refits P := by
  constructor
  intro eof eof' taken r r' out hfollow hread
  -- What the first rule leaves is split where the second one ends.
  obtain ⟨value, mid, hfirst, hsecond⟩ := reads_bind.mp hread
  obtain ⟨back, rfl, hfirst'⟩ := h.step hfollow hfirst hsecond.suffix
  exact reads_bind.mpr ⟨value, _, hfirst', (hnext value).read hfollow hsecond⟩

/-- A rule whose reading is followed by a token that is taken later stays in front of that token. -/
theorem Refits.bind_of_takes (h : rule.Refits Q) (hnext : ∀ value, (next value).Refits P)
    (htakes : ∀ value, (next value).Takes) : (rule >>= next).Refits P := by
  constructor
  intro eof eof' taken r r' out hfollow hread
  obtain ⟨value, mid, hfirst, hsecond⟩ := reads_bind.mp hread
  -- The second rule takes a token, so the first one ends in front of a token that stays.
  obtain ⟨t, rest, rfl, hrest⟩ := htakes value eof mid out r hsecond
  obtain ⟨front, back, rfl, hback⟩ := exists_taken_append hfirst.suffix hsecond.suffix
  obtain ⟨back', rfl, rfl⟩ := exists_cons_of_append hback.symm hrest
  rw [List.append_assoc] at hfirst ⊢
  exact reads_bind.mpr ⟨value, _, h.read canFollow_cons hfirst, (hnext value).read hfollow hsecond⟩

/-- A run stops in front of the next token, whatever stands behind that one. -/
theorem Refits.of_inStep {R : Comparison TokenStream → α → α → Prop}
    (h : ∀ c, c.Plain → rule.InStep c (R c) rule)
    (hR : ∀ {c value value'}, c.move = id → R c value value' → value' = value) :
    rule.Refits fun _ => False := by
  constructor
  intro eof eof' taken r r' value hfollow hread
  obtain hfalse | ⟨t, more, more', rfl, rfl⟩ := hfollow
  · exact hfalse.elim
  -- The run is compared with the one on the other tokens, which the comparison cuts in front of the
  -- shared token's rest.
  · have hmatches :=
      (h (.untilRests ⟨t :: more, eof.1⟩ ⟨t :: more', eof'.1⟩ rfl (by simp)) Iff.rfl).run
      ⟨taken, rfl, rfl⟩
    rw [show rule.run _ = _ from hread] at hmatches
    unfold Reads
    generalize rule.run ⟨taken ++ t :: more', eof'.1⟩ = o' at hmatches ⊢
    cases hmatches with
    | ignored hignored => exact absurd hignored (Nat.lt_irrefl _)
    | done hvalue hrest =>
      obtain ⟨common, hr, rfl⟩ := hrest
      have hahead : t :: more = common ++ t :: more := congrArg TokenStream.ahead hr
      obtain rfl : common = [] := List.append_left_eq_self.mp hahead.symm
      rw [hR rfl hvalue]
      rfl

/-! ## Tokens -/

/-- The same where a first token is known to be taken. -/
structure RefitsBehind (P : Token → Prop) (rule : Rule TokenStream α) : Prop where
  read : ∀ {eof eof' : EndMark} {t : Token} {taken r r' : List Token} {value : α},
    CanFollow P eof' r r' → rule.Reads eof (t :: (taken ++ r)) value r →
    rule.Reads eof' (t :: (taken ++ r')) value r'

/-- A rule that refits does so behind a first token in particular. -/
theorem Refits.behind (h : rule.Refits P) : rule.RefitsBehind P := by
  constructor
  intro eof eof' t taken r r' value hfollow hread
  rw [← List.cons_append] at hread ⊢
  exact h.read hfollow hread

/-- One part of a reading that takes the first token at least. -/
theorem Refits.step_behind (h : rule.Refits P) (hfollow : CanFollow P eof' r r')
    (hread : rule.Reads eof (t :: (taken ++ r)) value mid) (hr : r <:+ mid) :
    ∃ back, mid = back ++ r ∧ rule.Reads eof' (t :: (taken ++ r')) value (back ++ r') := by
  rw [← List.cons_append] at hread ⊢
  exact h.step hfollow hread hr

/-- A rule that takes a token refits if what it goes on with does. -/
theorem refitsBehind_pop_bind {next : Token → Rule TokenStream α} (hnext : ∀ t, (next t).Refits P) :
    (pop >>= next).RefitsBehind P := by
  constructor
  intro eof eof' t taken r r' value hfollow hread
  rw [reads_pop_cons_bind] at hread ⊢
  exact (hnext t).read hfollow hread

/-- A rule that always takes a token is known to be behind a first token. -/
theorem RefitsBehind.refits (h : rule.RefitsBehind P) (htakes : rule.Takes) : rule.Refits P := by
  constructor
  intro eof eof' taken r r' value hfollow hread
  obtain ⟨t, rest, hcons, hrest⟩ := htakes eof _ value r hread
  obtain ⟨taken, rfl, -⟩ := exists_cons_of_append hcons hrest
  exact h.read hfollow hread

/-- A token is taken by a rule that does not go on at an end mark. -/
theorem takes_pop_bind {next : Token → Rule TokenStream α}
    (hend : ∀ (eof : EndMark) out ts', ¬ (next eof.1).Reads eof [] out ts') :
    (pop >>= next).Takes := by
  intro eof ts out ts' hread
  cases ts with
  | nil =>
    obtain ⟨t, mid, hpop, hread⟩ := reads_bind.mp hread
    obtain hcons | ⟨rfl, -, rfl⟩ := reads_pop.mp hpop
    · cases hcons
    · exact absurd hread (hend eof out ts')
  | cons t rest => exact ⟨t, rest, rfl, (reads_pop_cons_bind.mp hread).suffix⟩

/-- A rule that takes a token, and does not go on at an end mark, refits. -/
theorem refits_pop_bind {next : Token → Rule TokenStream α} (hnext : ∀ t, (next t).Refits P)
    (hend : ∀ (eof : EndMark) out ts', ¬ (next eof.1).Reads eof [] out ts') :
    (pop >>= next).Refits P :=
  (refitsBehind_pop_bind hnext).refits (takes_pop_bind hend)

section Expected

variable {C : Token → Prop} [DecidablePred C] {next : Token → Rule TokenStream α}
  {fault : Token → GrammarFault}
  {span : Token → Span}

/-- A rule that takes one of the tokens `C`, which no end mark is, takes a token. -/
theorem takes_pop_if (hend : ∀ eof : EndMark, ¬ C eof.1) :
    (pop >>= fun found =>
      if C found then next found else Rule.fail (fault found) (span found)).Takes :=
  takes_pop_bind fun eof out ts' hread => by simp [hend eof] at hread

/-- A rule that takes one of the tokens `C`, which no end mark is, refits. -/
theorem refits_pop_if (hend : ∀ eof : EndMark, ¬ C eof.1) (hnext : ∀ t, (next t).Refits P) :
    (pop >>= fun found =>
      if C found then next found else Rule.fail (fault found) (span found)).Refits P := by
  refine (refitsBehind_pop_bind fun t => ?_).refits (takes_pop_if hend)
  split
  · exact hnext t
  · exact .fail

end Expected

/-- A rule that expects a token takes it. -/
theorem takes_expect {kind : TokenKind} (hkind : kind ≠ .endOfFile) : (expect kind).Takes :=
  takes_pop_if fun _ => by simpa using hkind.symm

/-- A rule that expects a token looks no further than to that token. -/
theorem refits_expect {kind : TokenKind} (hkind : kind ≠ .endOfFile) : (expect kind).Refits P :=
  refits_pop_if (fun _ => by simpa using hkind.symm) fun _ => .pure

/-- A token that may be left out must not stand among those that follow. -/
theorem refits_accept {kind : TokenKind} (hkind : kind ≠ .endOfFile)
    (hP : ∀ t, P t → t.kind ≠ kind) :
    (accept kind).Refits P := by
  constructor
  intro eof eof' taken r r' out hfollow hread
  -- The token is taken on both sides, or it is missing on both.
  obtain ⟨t, hcons, ht, rfl⟩ | ⟨ht, hr, rfl⟩ := (reads_accept hkind).mp hread
  · obtain ⟨taken, rfl, hnil⟩ := exists_cons_of_append hcons (List.suffix_refl _)
    obtain rfl : taken = [] := List.append_left_eq_self.mp hnil.symm
    exact (reads_accept hkind).mpr (.inl ⟨t, rfl, ht, rfl⟩)
  · obtain rfl : taken = [] := List.append_left_eq_self.mp hr.symm
    refine (reads_accept hkind).mpr (.inr ⟨?_, rfl, rfl⟩)
    obtain hP' | ⟨t, more, more', rfl, rfl⟩ := hfollow
    · exact hP _ hP'
    · exact ht

/-! ## The loop -/

/-- A loop goes through the same rounds in front of tokens that it does not select. -/
theorem Refits.whileNext {select : Token → Option β} {body : Token → β → σ → Rule TokenStream σ}
    (hselect : ∀ t, P t → select t = none)
    (hbody : ∀ t choice state, (body t choice state).Refits P) (state : σ) :
    (whileNext select body state).Refits P := by
  constructor
  intro eof eof' taken r r' out hfollow hread
  -- Every round takes a token, so the tokens that are left get fewer.
  induction hn : taken.length using Nat.strongRecOn generalizing state taken with
  | ind n ih =>
    obtain ⟨rfl, hr, hstop⟩ | ⟨t, rest, choice, after, mid, hcons, hchoice, hround, hloop⟩ :=
      reads_whileNext.mp hread
    -- The loop ends here, because the next token is not selected; neither is the one that follows
    -- now.
    · obtain rfl : taken = [] := List.append_left_eq_self.mp hr.symm
      refine reads_whileNext_stop ?_
      obtain hP | ⟨t, more, more', rfl, rfl⟩ := hfollow
      · exact hselect _ hP
      · exact hstop
    -- One more round is read, and the loop behind it ends where the whole loop does.
    · obtain ⟨taken, rfl, rfl⟩ :=
        exists_cons_of_append hcons (hloop.suffix.trans hround.suffix)
      obtain ⟨back, rfl, hround'⟩ := (hbody t choice state).step hfollow hround hloop.suffix
      have hshorter : back.length < n := by
        have hlength := hround.suffix.length_le
        simp only [List.length_append] at hlength
        rw [← hn, List.length_cons]
        omega
      exact reads_whileNext.mpr (.inr ⟨t, _, choice, after, _, rfl, hchoice, hround',
        ih back.length hshorter after hloop rfl⟩)

end Combinators

end Rule

/-! ## Tokens that end and that open expressions -/

/-- The token ends every expression in front of it, also one that a conditional or an argument list
    could go on with. -/
structure Token.EndsAll (t : Token) : Prop where
  operand : t.kind.endsOperand = true
  noElse : t.kind ≠ .keyword .else
  noTailstrict : t.kind ≠ .keyword .tailstrict

/-- A token that ends every expression ends operands in particular. -/
theorem Token.EndsAll.endsExpr {t : Token} (h : t.EndsAll) : t.EndsExpr := .inl h.operand

/-- The kinds of tokens that an expression can start with. -/
def TokenKind.opensExpr : TokenKind → Bool
  | .identifier | .number | .string _ | .operator => true
  | .punct .dollar | .punct .braceL | .punct .bracketL | .punct .parenL => true
  | .keyword .assert | .keyword .error | .keyword .function | .keyword .if | .keyword .import
  | .keyword .importstr | .keyword .local => true
  | .keyword .true | .keyword .false | .keyword .null | .keyword .self | .keyword .super => true
  | _ => false

namespace Rule

variable {eof : EndMark} {ts ts' : List Token} {full : Rule TokenStream Expr} {e : Expr}

/-- Every reading with the rule starts with a token that can open an expression. -/
def OpensExpr (rule : Rule TokenStream Expr) : Prop :=
  ∀ eof ts e ts', rule.Reads eof ts e ts' → (eof.next ts).kind.opensExpr = true

/-- A keyword that leads a form opens an expression. -/
theorem opensExpr_of_ledBy {kind : TokenKind} {form : Rule TokenStream Expr}
    (h : ledBy? full kind = some form) :
    kind.opensExpr = true := by
  unfold ledBy? at h
  split at h <;> first | rfl | cases h

/-- An operand without suffixes starts with a token that opens an expression. -/
theorem opensExpr_primary : (primary full).OpensExpr := by
  intro eof ts e ts' h
  -- The cases are the tokens that an operand can start with.
  obtain ⟨t, rest, rfl, ⟨ht, -⟩ | ⟨ht, -⟩ | ⟨ht, -⟩⟩ | ⟨-, -, -, hterminal⟩ := reads_primary.mp h
  · simp [ht, TokenKind.opensExpr]
  · simp [ht, TokenKind.opensExpr]
  · simp [ht, TokenKind.opensExpr]
  · obtain ⟨t, rest, rfl, ⟨shape, hshape, -, -⟩ | ⟨ht, -⟩⟩ := reads_terminal.mp hterminal
    · rw [EndMark.next_cons]
      unfold terminalShape? at hshape
      split at hshape <;> simp_all [TokenKind.opensExpr]
    · simp [ht, TokenKind.opensExpr]

/-- A unary operation starts with a token that opens an expression. -/
theorem opensExpr_unary {g : Level TokenStream} : (unary g).OpensExpr := by
  intro eof ts e ts' h
  obtain ⟨t, rest, rfl, ht, -⟩ | ⟨-, hplain⟩ := reads_unary.mp h
  · simp [ht, TokenKind.opensExpr]
  · obtain ⟨first, mid, hfirst, -⟩ := reads_operand.mp hplain
    exact opensExpr_primary eof ts first mid hfirst

/-- Every expression starts with a token that opens one. -/
theorem opensExpr_expression {g : Level TokenStream} {precedence : Precedence} :
    (expression g precedence).OpensExpr := by
  intro eof ts e ts' h
  obtain ⟨form, hform, -⟩ | ⟨-, left, mid, hleft, -⟩ := reads_expression.mp h
  · exact opensExpr_of_ledBy hform
  · exact opensExpr_unary eof ts left mid hleft

/-! ## Closed lists -/

end Rule

/-- Where no place is moved, trees stay as they are. -/
theorem Comparison.expr_eq_id {c : Comparison TokenStream} (h : c.move = id) : c.expr = id := by
  funext e
  rw [Comparison.expr, h]
  exact e.mapSpan_id

/-- What the rules are given to read sub-expressions with. -/
structure Rule.ReadsExprs (full : Rule TokenStream Expr) : Prop where
  inStep : ∀ c : Comparison TokenStream, c.Plain → full.InStep c (Via c.expr) full
  opens : full.OpensExpr
  refits : full.Refits Token.EndsAll

namespace Rule

section Productions

variable {P Q : Token → Prop} {full : Rule TokenStream Expr}

/-- In front of the token that stands there. -/
theorem ReadsExprs.stays (hfull : full.ReadsExprs) : full.Refits fun _ => False :=
  hfull.refits.mono fun _ h => h.elim

/-- A list closes at a token of its own. -/
theorem refits_closeList {closing : Punct} {what : ListItem} (list : Array Expr × Bool) :
    (closeList closing what list).Refits P := by
  constructor
  intro eof eof' taken r r' out _ hread
  obtain ⟨hcons, hkind, hout⟩ := reads_closeList.mp hread
  obtain ⟨taken, rfl, hnil⟩ := exists_cons_of_append hcons (List.suffix_refl _)
  obtain rfl : taken = [] := List.append_left_eq_self.mp hnil.symm
  exact reads_closeList.mpr ⟨rfl, hkind, hout⟩

/-- The elements of a list stay the same in front of the token that stands there. -/
theorem refits_exprItems (hfull : full.ReadsExprs) {stops : TokenKind → Bool} :
    (items stops (pushExpr full) #[]).Refits fun _ => False := by
  -- Expressions may end in tokens that look ahead, so the list as a whole is compared with itself.
  refine .of_inStep
    (fun c hplain => inStep_items (inStep_pushExpr (hfull.inStep c hplain)) via_empty) ?_
  intro c list list' hmove hlist
  rw [hlist, Comparison.expr_eq_id hmove]
  simp

/-- A list of expressions ends in a token of its own, so anything may follow. -/
theorem refits_commaList (hfull : full.ReadsExprs) {closing : Punct} {what : ListItem} :
    (commaList full closing what).Refits P :=
  (refits_exprItems hfull).bind_of_takes refits_closeList takes_closeList

/-- Parameters end in a token of their own, so anything may follow. -/
theorem refits_parameters (hfull : full.ReadsExprs) {what : ListItem} :
    (parameters full what).Refits P := by
  refine (refits_commaList hfull).bind fun list => ?_
  split
  · exact .fail
  · exact .pure

/-! ## Clauses and objects -/

/-- A `for` clause stays the same in front of the token that stands there. -/
theorem refits_loopClause (hfull : full.ReadsExprs) : (loopClause full).Refits fun _ => False :=
  (refits_expect (by simp)).bind fun _ => (refits_expect (by simp)).bind fun _ =>
    hfull.stays.bind fun _ => .pure

/-- A clause stays the same in front of the token that stands there. -/
theorem refits_clause (hfull : full.ReadsExprs) (start : ClauseStart) :
    (clause full start).Refits fun _ => False := by
  cases start with
  | loop => exact refits_loopClause hfull
  | condition => exact hfull.stays.bind fun _ => .pure

/-- The clauses of a comprehension end in a token of their own. -/
theorem refits_clauses (hfull : full.ReadsExprs) {closing : Punct} :
    (clauses full closing).Refits P := by
  -- Behind the first clause stands a keyword or the closing mark, which is taken.
  refine (refits_loopClause hfull).bind_of_takes (fun first => ?_) fun first =>
    .bind_right fun all =>
    takes_pop_if fun _ => by simp
  refine Refits.bind_of_takes (Refits.whileNext (fun _ h => h.elim)
    (fun _ start seen => (refits_clause hfull start).bind fun _ => .pure) _) (fun all => ?_)
    fun all => takes_pop_if fun _ => by simp
  exact refits_pop_if (fun _ => by simp) fun _ => .pure

/-- The members of an object stay the same in front of the token that stands there. -/
theorem refits_members (hfull : full.ReadsExprs) :
    (items endsMembers (pushMember full) #[]).Refits fun _ => False := by
  refine .of_inStep
    (fun c hplain => inStep_items (inStep_pushMember (hfull.inStep c hplain)) via_empty) ?_
  intro c list list' hmove hlist
  have hmember : Member.map (id : Expr → Expr) = id :=
    funext fun m => Member.map_eq_self fun _ _ => rfl
  rw [hlist, Comparison.expr_eq_id hmove, hmember]
  simp

/-- An object comprehension ends in a token of its own. -/
theorem refits_objectComp (hfull : full.ReadsExprs) {opening start : Span}
    {members : List (Member Expr)} {trailingComma : Bool} :
    (objectComp full opening start members trailingComma).Refits P := by
  unfold objectComp
  split
  · exact .fail
  · exact (refits_clauses hfull).bind fun _ => .pure

/-- An object ends in a brace of its own, so anything may follow. -/
theorem refits_object (hfull : full.ReadsExprs) {opening : Span} :
    (object full opening).Refits P := by
  refine (refits_members hfull).bind_of_takes (fun list => ?_)
    fun list => takes_pop_bind fun eof out ts' => by simp
  refine refits_pop_bind (fun found => ?_) fun eof out ts' => by simp
  split
  · exact .pure
  · exact refits_objectComp hfull
  · exact .fail

/-! ## Operands -/

/-- A name behind a dot is a token of its own. -/
theorem refits_fieldSelector : fieldSelector.Refits P :=
  (refits_expect (by simp)).bind fun _ => .pure

/-- An index ends in a bracket of its own. -/
theorem refits_indexSelector (hfull : full.ReadsExprs) : (indexSelector full).Refits P :=
  hfull.stays.bind_of_takes (fun _ => (refits_expect (by simp)).bind fun _ => .pure)
    fun _ => (takes_expect (by simp)).bind_left

/-- A selection from `super` ends in a token of its own. -/
theorem refits_superIndex (hfull : full.ReadsExprs) {start : Span} :
    (superIndex full start).Refits P := by
  refine refits_pop_bind (fun t => ?_) fun eof out ts' => by simp
  split
  · exact refits_fieldSelector.bind fun _ => .pure
  · exact (refits_indexSelector hfull).bind fun _ => .pure
  · exact .fail

/-- An operand of one token may have anything behind it. -/
theorem refits_terminal (hfull : full.ReadsExprs) : (terminal full).Refits P := by
  refine refits_pop_bind (fun t => ?_) fun eof out ts' => by simp
  split
  · split
    · exact .pure
    · exact .fail
  · exact .pure
  · exact .pure
  · exact .pure
  · exact .pure
  · exact .pure
  · exact .pure
  · exact .pure
  · exact refits_superIndex hfull
  · exact .fail
  · exact .fail

/-- An array comprehension behind its bracket. -/
def arrayLoop (full : Rule TokenStream Expr) (opening : Span) : Rule TokenStream Expr := do
  let first ← full
  let comma ← accept (.punct .comma)
  let _ ← expect (.keyword .for)
  let (cs, closing) ← clauses full .bracketR
  return .node (.between opening closing) (.arrayComp first comma cs)

/-- An array comprehension ends in a bracket of its own. -/
theorem refits_arrayLoop (hfull : full.ReadsExprs) {opening : Span} :
    (arrayLoop full opening).Refits P := by
  have hfor : ∀ next : Token → Rule TokenStream Expr, (expect (.keyword .for) >>= next).Takes :=
    fun next => (takes_expect (by simp)).bind_left
  refine hfull.stays.bind_of_takes (fun first => ?_) fun first => .bind_right fun comma => hfor _
  refine (refits_accept (P := fun _ => False) (by simp) fun _ h => h.elim).bind_of_takes
    (fun comma => ?_)
    fun comma => hfor _
  exact (refits_expect (by simp)).bind fun _ => (refits_clauses hfull).bind fun _ => .pure

/-- A list behind the bracket that opens an array is that array. -/
theorem reads_array_of_commaList (hopens : full.OpensExpr) {eof : EndMark} {ts ts' : List Token}
    {opening : Span} {list : CommaList}
    (h : (commaList full .bracketR .element).Reads eof ts list ts') :
    (array full opening).Reads eof ts
      (.node (.between opening list.closing.span) (.array list.exprs list.trailingComma)) ts' := by
  obtain ⟨hitems, hclosing⟩ := reads_commaList.mp h
  obtain ⟨hstop, hlist, rfl⟩ | ⟨hopen, firsts, mid, hitem, hmore⟩ := reads_items.mp hitems
  · -- Nothing stands between the brackets.
    obtain ⟨exprs, trailingComma, closing⟩ := list
    obtain ⟨hexprs, rfl⟩ := Prod.mk.inj hlist
    obtain rfl : exprs = [] := congrArg Array.toList hexprs
    rw [array, reads_nextIs_bind, reads_ite]
    exact .inl ⟨beq_iff_eq.mpr hclosing, reads_pop_cons_bind.mpr (reads_pure.mpr ⟨rfl, rfl⟩)⟩
  · obtain ⟨first, hfirst, rfl⟩ := reads_pushExpr.mp hitem
    have hopen : (eof.next ts).kind ≠ .punct .bracketR := by simpa using hopen
    -- Behind the first element stands the closing bracket, or a comma that no `for` follows.
    obtain ⟨-, rfl, -⟩ | ⟨t, rest, _, after, mid₁, rfl, ht, hround, -⟩ := reads_whileNext.mp hmore
    · have hcomma :
          (accept (.punct .comma)).Reads eof (list.closing :: ts') false (list.closing :: ts') :=
        (reads_accept (by simp)).mpr (.inr ⟨by simp [hclosing], rfl, rfl⟩)
      exact reads_array_of_moreItems hopen hfirst hcomma (by simp [hclosing]) hmore hclosing
    · have hcomma : (accept (.punct .comma)).Reads eof (t :: rest) true rest :=
        (reads_accept (by simp)).mpr (.inl ⟨t, rfl, comma?_eq_some.mp ht, rfl⟩)
      have hfor : (eof.next rest).kind ≠ .keyword .for := by
        intro hfor
        obtain ⟨hstop, -⟩ | ⟨-, _, hnext, -⟩ := reads_afterComma.mp hround
        · simp [hfor] at hstop
        · obtain ⟨e, he, -⟩ := reads_pushExpr.mp hnext
          simpa [hfor, TokenKind.opensExpr] using hopens eof rest e mid₁ he
      exact reads_array_of_moreItems hopen hfirst hcomma hfor hmore hclosing

/-- An array is a list of expressions up to a bracket, or a comprehension, and nothing else. -/
theorem reads_array (hopens : full.OpensExpr) {eof : EndMark} {ts ts' : List Token} {opening : Span}
    {out : Expr} :
    (array full opening).Reads eof ts out ts' ↔
      (∃ list, (commaList full .bracketR .element).Reads eof ts list ts' ∧
        out = .node (.between opening list.closing.span) (.array list.exprs list.trailingComma)) ∨
      (arrayLoop full opening).Reads eof ts out ts' := by
  constructor
  · intro h
    refine h.array_cases.imp_right fun hloop => ?_
    obtain ⟨first, mid, hfirst, comma, mid', hcomma, t, rest, rfl, ht, cs, closing, hcs, rfl⟩ :=
      hloop
    refine reads_bind.mpr ⟨first, mid, hfirst, reads_bind.mpr ⟨comma, _, hcomma, ?_⟩⟩
    refine reads_bind.mpr ⟨t, rest, (reads_expect (by simp)).mpr ⟨rfl, ht⟩, ?_⟩
    exact reads_bind.mpr ⟨(cs, closing), ts', hcs, reads_pure.mpr ⟨rfl, rfl⟩⟩
  · intro h
    obtain ⟨list, hlist, rfl⟩ | hloop := h
    · exact reads_array_of_commaList hopens hlist
    · obtain ⟨first, mid, hfirst, hbehind⟩ := reads_bind.mp hloop
      obtain ⟨comma, mid', hcomma, hbehind'⟩ := reads_bind.mp hbehind
      obtain ⟨t, rest, hfor, hclauses⟩ := reads_bind.mp hbehind'
      obtain ⟨rfl, ht⟩ := (reads_expect (by simp)).mp hfor
      have hopen := hopens eof ts first mid hfirst
      rw [array, reads_nextIs_bind, reads_ite]
      refine .inr ⟨fun hclosing => ?_, reads_bind.mpr ⟨first, mid, hfirst, ?_⟩⟩
      · simp [beq_iff_eq.mp hclosing, TokenKind.opensExpr] at hopen
      · refine reads_bind.mpr ⟨comma, _, hcomma, ?_⟩
        rw [reads_accept_bind (by simp)]
        exact .inl ⟨t, rest, rfl, ht, hclauses⟩

/-- An array ends in a bracket of its own, so anything may follow. -/
theorem refits_array (hfull : full.ReadsExprs) {opening : Span} :
    (array full opening).Refits P := by
  constructor
  intro eof eof' taken r r' out hfollow hread
  rw [reads_array hfull.opens] at hread ⊢
  -- The two kinds of arrays refit for reasons of their own, so they are told apart first.
  obtain ⟨list, hlist, rfl⟩ | hloop := hread
  · exact .inl ⟨list, (refits_commaList hfull).read hfollow hlist, rfl⟩
  · exact .inr ((refits_arrayLoop hfull).read hfollow hloop)

/-- An expression in parentheses ends in a token of its own. -/
theorem refits_parenthesised (hfull : full.ReadsExprs) : (parenthesised full).Refits P :=
  hfull.stays.bind_of_takes (fun _ => (refits_expect (by simp)).bind fun _ => .pure)
    fun _ => (takes_expect (by simp)).bind_left

/-- An operand without suffixes may have anything behind it. -/
theorem refits_primary (hfull : full.ReadsExprs) : (primary full).Refits P := by
  refine RefitsBehind.refits ⟨fun {eof eof' t taken r r' out} hfollow hread => ?_⟩ takes_primary
  rw [primary, reads_peek_bind, EndMark.next_cons] at hread ⊢
  -- The first token says what kind of operand it is, and is the same on both sides.
  split at hread
  · exact (refitsBehind_pop_bind fun _ => refits_object hfull).read hfollow hread
  · exact (refitsBehind_pop_bind fun _ => refits_array hfull).read hfollow hread
  · exact (refitsBehind_pop_bind fun _ => refits_parenthesised hfull).read hfollow hread
  · exact (refits_terminal hfull).behind.read hfollow hread

/-- The end of a suffix with arguments: `tailstrict` may follow the list. -/
theorem refits_tailstrict (build : Bool → Token → Expr)
    (hbuild : ∀ t u, build false t = build false u) :
    (peek >>= fun next => accept (.keyword .tailstrict) >>= fun tailStrict =>
      pure (build tailStrict next) : Rule TokenStream Expr).Refits Token.EndsAll := by
  constructor
  intro eof eof' taken r r' out hfollow hread
  rw [reads_peek_bind] at hread ⊢
  have haccept : (accept (.keyword .tailstrict)).Refits Token.EndsAll :=
    refits_accept (by simp) fun _ h => h.noTailstrict
  obtain ⟨tailStrict, mid, hmark, hout⟩ := reads_bind.mp hread
  obtain ⟨rfl, rfl⟩ := reads_pure.mp hout
  refine reads_bind.mpr ⟨tailStrict, r', haccept.read hfollow hmark, reads_pure.mpr ⟨?_, rfl⟩⟩
  cases tailStrict with
  | false => exact hbuild _ _
  | true =>
    -- The mark is taken, so it stands on both sides.
    obtain ⟨t, hcons, -, -⟩ | ⟨-, -, hfalse⟩ := (reads_accept (by simp)).mp hmark
    · obtain ⟨taken, rfl, -⟩ := exists_cons_of_append hcons (List.suffix_refl _)
      rfl
    · cases hfalse

/-- A suffix refits; only a call looks at the next token, for `tailstrict`. -/
theorem refits_suffix (hfull : full.ReadsExprs) {start : Span} {opening : Token} (kind : Suffix)
    {target : Expr} : (suffix full start opening kind target).Refits Token.EndsAll := by
  cases kind with
  | field => exact refits_fieldSelector.bind fun _ => .pure
  | index => exact (refits_indexSelector hfull).bind fun _ => .pure
  | arguments =>
    refine (refits_commaList hfull).bind fun list => ?_
    exact refits_tailstrict (fun tailStrict next => .node
      (.between start (if tailStrict then next.span else list.closing.span))
      (.apply target list.exprs list.trailingComma tailStrict)) fun _ _ => rfl
  | extension => exact (refits_object hfull).bind fun _ => .pure

/-- An operand refits in front of tokens that go on with no suffix. -/
theorem refits_operand (hfull : full.ReadsExprs) : (operand full).Refits Token.EndsAll := by
  refine RefitsBehind.refits ⟨fun {eof eof' t taken r r' out} hfollow hread => ?_⟩ takes_operand
  obtain ⟨first, mid, hfirst, hsuffixes⟩ := reads_operand.mp hread
  obtain ⟨back, rfl, hfirst'⟩ :=
    (refits_primary hfull).step_behind hfollow hfirst hsuffixes.suffix
  have hloop := (Refits.whileNext (fun _ h => h.endsExpr.suffix)
    (fun opening kind target => refits_suffix hfull kind) first).read hfollow hsuffixes
  exact reads_operand.mpr ⟨first, back ++ r', hfirst', hloop⟩

/-! ## Expressions led by a keyword -/

/-- A condition stays the same in front of the token that stands there. -/
theorem refits_condition (hfull : full.ReadsExprs) : (condition full).Refits fun _ => False := by
  refine .of_inStep (fun c hplain => inStep_condition (hfull.inStep c hplain)) ?_
  intro c out out' hmove hout
  rw [hout, Comparison.expr_eq_id hmove]
  simp

/-- The bindings of a local expression stay the same in front of the token that stands there. -/
theorem refits_bindings (hfull : full.ReadsExprs) : (bindings full).Refits fun _ => False := by
  refine .of_inStep (fun c hplain => inStep_bindings (hfull.inStep c hplain)) ?_
  intro c out out' hmove hout
  have hbinding : Binding.map (id : Expr → Expr) = id := rfl
  rw [hout, Comparison.expr_eq_id hmove, hbinding]
  simp

/-- A form that a keyword leads stays the same in front of all tokens that end expressions. -/
theorem refitsBehind_ledBy (hfull : full.ReadsExprs) {kind : TokenKind}
    {form : Rule TokenStream Expr} (h : ledBy? full kind = some form) :
    form.RefitsBehind Token.EndsAll := by
  -- The last part of most forms is an expression, which may run up to the tokens that follow.
  have hlast : ∀ build : Expr → Expr, (full >>= fun e => pure (build e)).Refits Token.EndsAll :=
    fun build => hfull.refits.bind fun _ => .pure
  unfold ledBy? at h
  split at h
  -- The cases are those of `ledBy?`, in its order.
  · cases h
    refine refitsBehind_pop_bind fun start => (refits_condition hfull).bind_of_takes (fun out => ?_)
      fun out => (takes_expect (by simp)).bind_left
    exact (refits_expect (by simp)).bind fun _ => hlast _
  · cases h
    exact refitsBehind_pop_bind fun start => hlast _
  · cases h
    refine refitsBehind_pop_bind fun start => hfull.stays.bind_of_takes (fun condition => ?_)
      fun condition => (takes_expect (by simp)).bind_left
    refine (refits_expect (by simp)).bind fun _ => hfull.refits.bind fun whenTrue => ?_
    refine (refits_accept (by simp) fun _ h => h.noElse).bind fun present => ?_
    split
    · exact hlast _
    · exact .pure
  · cases h
    refine refitsBehind_pop_bind fun start => refits_pop_if (fun _ => by simp) fun found => ?_
    exact (refits_parameters hfull).bind fun _ => hlast _
  · cases h
    refine refitsBehind_pop_bind fun start => hfull.refits.bind fun file => ?_
    split
    · exact .pure
    · exact .fail
  · cases h
    refine refitsBehind_pop_bind fun start => hfull.refits.bind fun file => ?_
    split
    · exact .pure
    · exact .fail
  · cases h
    refine refitsBehind_pop_bind fun start => (refits_bindings hfull).bind_of_takes (fun bs => ?_)
      fun bs => takes_pop_if fun _ => by simp
    exact refits_pop_if (fun _ => by simp) fun _ => hlast _
  · cases h

end Productions

/-! ## Operators -/

end Rule

/-- The rules of a level refit in front of all tokens that end expressions. -/
structure Level.Refits (g : Level TokenStream) : Prop where
  full : g.full.ReadsExprs
  expr : ∀ precedence, (g.expr precedence).Refits Token.EndsAll
  operand : g.operand.Refits Token.EndsAll

namespace Rule

variable {g : Level TokenStream}

/-- A unary operation refits in front of all tokens that end expressions. -/
theorem refits_unary (hg : g.Refits) : (unary g).Refits Token.EndsAll := by
  refine RefitsBehind.refits ⟨fun {eof eof' t taken r r' out} hfollow hread => ?_⟩ takes_unary
  obtain ⟨_, _, hcons, ht, op, hop, e, he, rfl⟩ | ⟨ht, hplain⟩ := reads_unary.mp hread
  · cases hcons
    exact reads_unary.mpr (.inl ⟨t, _, rfl, ht, op, hop, e, hg.operand.read hfollow he, rfl⟩)
  · exact reads_unary.mpr (.inr ⟨ht, (refits_operand hg.full).behind.read hfollow hplain⟩)

/-- A chain of operators refits in front of all tokens that end expressions. -/
theorem refits_binaryChain (hg : g.Refits) {precedence : Precedence} {start : Span} {left : Expr} :
    (binaryChain g precedence start left).Refits Token.EndsAll := by
  constructor
  intro eof eof' taken r r' out hfollow hread
  obtain ⟨hloop, hstray⟩ := reads_binaryChain.mp hread
  have hloop' := (Refits.whileNext (fun _ h => h.endsExpr.binaryOp precedence)
    (fun _ op left => (hg.expr (op.precedence - 1)).bind fun _ => .pure) left).read hfollow hloop
  refine reads_binaryChain.mpr ⟨hloop', ?_⟩
  -- Behind the chain stands a token that ends expressions, or the one that stood there.
  obtain hends | ⟨t, more, more', rfl, rfl⟩ := hfollow
  · exact hends.endsExpr.isStrayOperator
  · exact hstray

/-- A form that a keyword leads takes that keyword. -/
theorem takes_ledBy {full form : Rule TokenStream Expr} {eof : EndMark} {ts ts' : List Token}
    {e : Expr} (hform : ledBy? full (eof.next ts).kind = some form) (h : form.Reads eof ts e ts') :
    ∃ t rest, ts = t :: rest ∧ ts' <:+ rest := by
  cases ts with
  | nil => simp [ledBy?] at hform
  | cons t rest => exact ⟨t, rest, rfl, suffix_of_ledBy hform h⟩

/-- An expression takes a token. -/
theorem takes_expression {precedence : Precedence} : (expression g precedence).Takes := by
  intro eof ts out ts' h
  obtain ⟨form, hform, hread⟩ | ⟨-, left, mid, hleft, hchain⟩ := reads_expression.mp h
  · exact takes_ledBy hform hread
  · obtain ⟨t, rest, rfl, hrest⟩ := takes_unary eof ts left mid hleft
    exact ⟨t, rest, rfl, hchain.suffix.trans hrest⟩

/-- The operand of a unary operator takes a token. -/
theorem takes_unaryOperand : (unaryOperand g).Takes := by
  intro eof ts out ts' h
  obtain ⟨form, hform, hread⟩ | ⟨-, hunary⟩ := reads_unaryOperand.mp h
  · exact takes_ledBy hform hread
  · exact takes_unary eof ts out ts' hunary

/-- Expressions refit on the next level, in front of all tokens that end them. -/
theorem refits_expression (hg : g.Refits) {precedence : Precedence} :
    (expression g precedence).Refits Token.EndsAll := by
  refine RefitsBehind.refits ⟨fun {eof eof' t taken r r' out} hfollow hread => ?_⟩ takes_expression
  obtain ⟨form, hform, hread⟩ | ⟨hnone, left, mid, hleft, hchain⟩ := reads_expression.mp hread
  -- The keyword is the same on both sides, and so is the form that it leads.
  · exact reads_expression.mpr
      (.inl ⟨form, hform, (refitsBehind_ledBy hg.full hform).read hfollow hread⟩)
  · obtain ⟨back, rfl, hleft'⟩ := (refits_unary hg).step_behind hfollow hleft hchain.suffix
    exact reads_expression.mpr (.inr ⟨hnone, left, back ++ r', hleft',
      (refits_binaryChain hg).read hfollow hchain⟩)

/-- Operands of unary operators refit on the next level. -/
theorem refits_unaryOperand (hg : g.Refits) : (unaryOperand g).Refits Token.EndsAll := by
  refine RefitsBehind.refits ⟨fun {eof eof' t taken r r' out} hfollow hread => ?_⟩
    takes_unaryOperand
  obtain ⟨form, hform, hread⟩ | ⟨hnone, hunary⟩ := reads_unaryOperand.mp hread
  · exact reads_unaryOperand.mpr
      (.inl ⟨form, hform, (refitsBehind_ledBy hg.full hform).read hfollow hread⟩)
  · exact reads_unaryOperand.mpr
      (.inr ⟨hnone, (refits_unary hg).behind.read hfollow hunary⟩)

end Rule

/-! ## Levels -/

namespace Level

/-- Expressions of every depth stay the same in front of all tokens that end expressions. -/
theorem refits_upTo (n : Nat) : (upTo n).Refits := by
  induction n with
  | zero =>
    have hexpr : ∀ precedence, ((upTo 0).expr precedence).Refits Token.EndsAll :=
      fun precedence => ⟨fun _ hread => absurd hread reads_exhausted_expr⟩
    exact
      { full := ⟨fun _ hplain => (inStep_upTo hplain 0).expr .loosest,
          fun _ _ _ _ h => absurd h reads_exhausted_expr, hexpr .loosest⟩
        expr := hexpr
        operand := ⟨fun _ hread => absurd hread reads_exhausted_operand⟩ }
  | succ n ih =>
    have hexpr : ∀ precedence, ((upTo (n + 1)).expr precedence).Refits Token.EndsAll :=
      fun precedence => Rule.refits_expression ih
    exact
      { full := ⟨fun _ hplain => (inStep_upTo hplain (n + 1)).expr .loosest,
          fun eof ts e ts' h => Rule.opensExpr_expression eof ts e ts' (reads_deepen_expr.mp h),
          hexpr .loosest⟩
        expr := hexpr
        operand := ⟨fun hfollow hread => reads_deepen_operand.mpr
          ((Rule.refits_unaryOperand ih).read hfollow (reads_deepen_operand.mp hread))⟩ }

end Level

end JsonnetSyntax
