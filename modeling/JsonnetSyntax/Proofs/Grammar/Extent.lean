import JsonnetSyntax.Proofs.Grammar.Lockstep
import JsonnetSyntax.Proofs.Grammar.Reread

/-!
# How far expressions reach

An expression extends as far to the right as it can: the token behind it opens no suffix, and if it
is an operator, it is a colon or a binary operator that binds too loosely.  All callers of the rule
for expressions rely on this to find the commas, colons and closing marks behind an expression.  A
form that a keyword leads ends in a whole expression, so it reaches as far as one even where only a
tight operand is asked for.

## Key results

- `Rule.stopsBefore_ledBy`: a form that a keyword leads reaches as far as a whole expression
- `Rule.stopsBefore_operand`, `Rule.bounds_of_reads_binaryChain`: suffixes and operators
- `Level.bounded_upTo`: all levels of nesting
- `Level.endsExpr_of_operand`: unary operators in front of a keyword
- `expr_extendsRight`: what stands behind an expression
-/

namespace JsonnetSyntax

/-! ## Tokens behind an expression -/

/-- A token that ends an expression whose operators bind at least as tightly as `precedence`: it
    ends every expression, or it is a binary operator that binds more loosely. -/
def Token.Bounds (precedence : Precedence) (t : Token) : Prop :=
  t.EndsExpr ∨
    ∃ op, t.kind = .operator ∧ BinaryOp.ofSymbol? t.data = some op ∧ precedence < op.precedence

section Bounds

variable {t : Token} {precedence : Precedence}

/-- A token that bounds an expression opens no suffix. -/
theorem Token.Bounds.suffix (h : t.Bounds precedence) : Suffix.ofToken? t = none := by
  obtain hends | ⟨op, hkind, -, -⟩ := h
  · exact hends.suffix
  · simp [Suffix.ofToken?, hkind]

/-- A token that bounds an expression is no dot and no opening mark. -/
theorem Token.Bounds.kind_not_mem (h : t.Bounds precedence) :
    t.kind ∉ [.punct .dot, .punct .braceL, .punct .parenL, .punct .bracketL] := by
  have hsuffix := h.suffix
  intro hmem
  unfold Suffix.ofToken? at hsuffix
  split at hsuffix <;> simp_all

/-- The only operator that ends every expression is a colon. -/
theorem Token.EndsExpr.data_eq (h : t.EndsExpr) (hkind : t.kind = .operator) : t.data = ":" := by
  obtain hends | hcolon := h
  · simp [hkind, TokenKind.endsOperand] at hends
  · simpa [Token.isOperator, hkind] using hcolon

/-- No operator binds more loosely than the loosest precedence. -/
theorem BinaryOp.precedence_le_loosest (op : BinaryOp) : op.precedence ≤ .loosest := by
  cases op <;> decide

/-- No operator is left behind a whole expression. -/
theorem Token.Bounds.endsExpr (h : t.Bounds .loosest) : t.EndsExpr := by
  obtain hends | ⟨op, -, -, hlooser⟩ := h
  · exact hends
  · exact absurd op.precedence_le_loosest (Nat.not_le_of_lt hlooser)

/-- A token at which the suffixes and the operators end. -/
theorem Token.bounds_of_eq_none (hsuffix : Suffix.ofToken? t = none)
    (hbinary : Rule.binaryOp? precedence t = none) (hstray : Rule.isStrayOperator t = false) :
    t.Bounds precedence := by
  by_cases hkind : t.kind = .operator
  · cases hop : BinaryOp.ofSymbol? t.data with
    | none =>
      -- What is no binary operator is stray, unless it is a colon.
      have hcolon : t.data = ":" := by simpa [Rule.isStrayOperator, hkind, hop] using hstray
      exact .inl (.inr (by simp [Token.isOperator, hkind, hcolon]))
    | some op =>
      have hlooser : precedence < op.precedence := by
        simpa [Rule.binaryOp?, hkind, hop, Option.filter] using hbinary
      exact .inr ⟨op, hkind, hop, hlooser⟩
  · refine .inl (.inl ?_)
    unfold Suffix.ofToken? at hsuffix
    unfold TokenKind.endsOperand
    split <;> simp_all

end Bounds

/-- The keywords that lead an expression. -/
def Keyword.leadsExpr : Keyword → Bool
  | .assert | .error | .function | .if | .import | .importstr | .local => Bool.true
  | _ => Bool.false

/-- The tokens start with the keyword of a form, behind any number of operators. -/
def LedByKeyword (ts : List Token) : Prop :=
  ∃ operators t more word, ts = operators ++ t :: more ∧ (∀ u ∈ operators, u.kind = .operator) ∧
    t.kind = .keyword word ∧ word.leadsExpr = true

namespace Rule

variable {α β σ : Type} {eof : EndMark} {ts ts' : List Token} {full : Rule TokenStream Expr}
  {g : Level TokenStream}

/-- Every reading with the rule stops in front of a token with the property `P`. -/
def StopsBefore (rule : Rule TokenStream α) (P : Token → Prop) : Prop :=
  ∀ {eof : EndMark} {ts ts' : List Token} {value : α}, rule.Reads eof ts value ts' →
    P (eof.next ts')

/-- A loop that no end mark goes on with stops in front of a token that it does not select. -/
theorem select_next_eq_none {select : Token → Option β} (hend : select eof.1 = none)
    (h : ts.head?.bind select = none) : select (eof.next ts) = none := by
  cases ts with
  | nil => exact hend
  | cons t ts => exact h

/-! ## Keyword forms -/

/-- A form that a keyword leads ends in a whole expression. -/
theorem stopsBefore_ledBy (hfull : full.StopsBefore Token.EndsExpr) {form : Rule TokenStream Expr}
    {out : Expr} (hform : ledBy? full (eof.next ts).kind = some form)
    (h : form.Reads eof ts out ts') :
    (eof.next ts').EndsExpr := by
  cases ts with
  | nil => simp [ledBy?] at hform
  | cons t ts =>
    rw [EndMark.next_cons] at hform
    -- One case for each keyword, in the order of `ledBy?`.
    unfold ledBy? at hform
    split at hform
    · cases hform
      obtain ⟨_, _, _, -, _, _, -, -, rest, hrest, -⟩ := reads_assertForm.mp h
      exact hfull hrest
    · cases hform
      obtain ⟨message, hmessage, -⟩ := reads_errorForm.mp h
      exact hfull hmessage
    · cases hform
      obtain ⟨_, _, -, _, _, -, -, whenTrue, after, htrue, hend⟩ := reads_conditionalForm.mp h
      obtain ⟨_, _, -, -, whenFalse, hfalse, -⟩ | ⟨-, -, rfl⟩ := hend
      · exact hfull hfalse
      · exact hfull htrue
    · cases hform
      obtain ⟨_, _, -, -, _, _, -, body, hbody, -⟩ := reads_functionForm.mp h
      exact hfull hbody
    · cases hform
      obtain ⟨file, hfile, -⟩ := reads_importForm.mp h
      exact hfull hfile
    · cases hform
      obtain ⟨file, hfile, -⟩ := reads_importForm.mp h
      exact hfull hfile
    · cases hform
      obtain ⟨_, _, -, _, _, -, -, body, hbody, -⟩ := reads_localForm.mp h
      exact hfull hbody
    · cases hform

/-- Every keyword that leads an expression leads to a rule. -/
theorem exists_ledBy {word : Keyword} (h : word.leadsExpr = true) :
    ∃ form, ledBy? full (.keyword word) = some form := by
  cases word <;> cases h <;> exact ⟨_, rfl⟩

/-- Unary operators in front of a keyword: the first of them is taken. -/
theorem exists_operand_of_unary {out : Expr} (hnone : ledBy? full (eof.next ts).kind = none)
    (h : (unary g).Reads eof ts out ts') (hled : LedByKeyword ts) :
    ∃ t rest e, ts = t :: rest ∧ g.operand.Reads eof rest e ts' ∧ LedByKeyword rest := by
  obtain ⟨operators, t, more, word, rfl, hoperators, ht, hword⟩ := hled
  -- If the keyword were the first token, the form would have been read instead.
  cases operators with
  | nil =>
    obtain ⟨form, hform⟩ := @exists_ledBy full word hword
    rw [List.nil_append, EndMark.next_cons, ht, hform] at hnone
    cases hnone
  | cons u operators =>
    rw [List.forall_mem_cons] at hoperators
    obtain ⟨_, rest, hcons, -, _, -, e, he, -⟩ | ⟨hkind, -⟩ := reads_unary.mp h
    · cases hcons
      exact ⟨u, _, e, rfl, he, operators, t, more, word, rfl, hoperators.2, ht, hword⟩
    · exact absurd hoperators.1 hkind

/-! ## Operands and operators -/

/-- Behind an operand no further suffix follows. -/
theorem stopsBefore_operand : (operand full).StopsBefore fun t => Suffix.ofToken? t = none := by
  intro eof ts ts' out h
  obtain ⟨first, mid, -, hloop⟩ := reads_operand.mp h
  have hstop := (hloop.whileNext_induction (fun _ _ => True) trivial fun _ _ _ => trivial).2
  exact select_next_eq_none (by simp [Suffix.ofToken?]) hstop

/-- Behind unary operators and their operand no further suffix follows. -/
theorem stopsBefore_unary (hoperand : g.operand.StopsBefore fun t => Suffix.ofToken? t = none) :
    (unary g).StopsBefore fun t => Suffix.ofToken? t = none := by
  intro eof ts ts' out h
  obtain ⟨_, _, -, -, _, -, e, he, -⟩ | ⟨-, he⟩ := reads_unary.mp h
  · exact hoperand he
  · exact stopsBefore_operand he

/-- A chain of operators, read behind an operand without further suffixes, ends in front of an
    operator that is too loose or of none at all. -/
theorem bounds_of_reads_binaryChain
    (hexpr : ∀ precedence, (g.expr precedence).StopsBefore (·.Bounds precedence))
    {precedence : Precedence} {start : Span} {left out : Expr}
    (h : (binaryChain g precedence start left).Reads eof ts out ts')
    (hstart : Suffix.ofToken? (eof.next ts) = none) : (eof.next ts').Bounds precedence := by
  obtain ⟨hloop, hstray⟩ := reads_binaryChain.mp h
  -- The right operand of every round takes its own suffixes.
  have hrounds :=
    hloop.whileNext_induction (fun _ ts => Suffix.ofToken? (eof.next ts) = none) hstart ?_
  · obtain ⟨hsuffix, hstop⟩ := hrounds
    have hbinary : binaryOp? precedence (eof.next ts') = none :=
      select_next_eq_none (by simp [binaryOp?]) hstop
    exact Token.bounds_of_eq_none hsuffix hbinary hstray
  · intro t rest op before after mid _ hround _
    obtain ⟨right, mid', hright, hout⟩ := reads_bind.mp hround
    obtain ⟨-, rfl⟩ := reads_pure.mp hout
    exact (hexpr _ hright).suffix

end Rule

/-! ## Levels -/

/-- The readings of a level stop where expressions and operands end. -/
structure Level.Bounded (g : Level TokenStream) : Prop where
  expr : ∀ precedence, (g.expr precedence).StopsBefore (·.Bounds precedence)
  operand : g.operand.StopsBefore fun t => Suffix.ofToken? t = none

namespace Level

variable {g : Level TokenStream} {eof : EndMark} {ts ts' : List Token} {e : Expr}

/-- Whole expressions stop in front of a token that ends every expression. -/
theorem Bounded.full (hg : g.Bounded) : g.full.StopsBefore Token.EndsExpr :=
  fun h => (hg.expr .loosest h).endsExpr

/-- One more level of nesting. -/
theorem Bounded.deepen (hg : g.Bounded) : g.deepen.Bounded where
  expr precedence := by
    intro eof ts ts' e h
    obtain ⟨form, hform, h⟩ | ⟨-, left, mid, hleft, hchain⟩ :=
      Rule.reads_expression.mp (reads_deepen_expr.mp h)
    · exact .inl (Rule.stopsBefore_ledBy hg.full hform h)
    · exact Rule.bounds_of_reads_binaryChain hg.expr hchain
        (Rule.stopsBefore_unary hg.operand hleft)
  operand := by
    intro eof ts ts' e h
    obtain ⟨form, hform, h⟩ | ⟨-, h⟩ := Rule.reads_unaryOperand.mp (reads_deepen_operand.mp h)
    · exact (Rule.stopsBefore_ledBy hg.full hform h).suffix
    · exact Rule.stopsBefore_unary hg.operand h

/-- On every level, readings stop where expressions and operands end. -/
theorem bounded_upTo (n : Nat) : (upTo n).Bounded := by
  induction n with
  | zero => exact ⟨fun _ => fun h => absurd h reads_exhausted_expr,
    fun h => absurd h reads_exhausted_operand⟩
  | succ n ih => exact ih.deepen

/-- Behind the keyword of a form, and unary operators in front of it, stands a whole expression. -/
theorem endsExpr_of_operand {n : Nat} (h : (upTo n).operand.Reads eof ts e ts')
    (hled : LedByKeyword ts) :
    (eof.next ts').EndsExpr := by
  -- Every operator takes one level of nesting.
  induction n generalizing ts e with
  | zero => exact absurd h reads_exhausted_operand
  | succ n ih =>
    obtain ⟨form, hform, h⟩ | ⟨hnone, h⟩ := Rule.reads_unaryOperand.mp (reads_deepen_operand.mp h)
    · exact Rule.stopsBefore_ledBy (bounded_upTo n).full hform h
    · obtain ⟨_, rest, e', rfl, he', hrest⟩ := Rule.exists_operand_of_unary hnone h hled
      exact ih he' hrest

/-- The same holds for expressions, however tightly their operators have to bind. -/
theorem endsExpr_of_expr {n : Nat} {precedence : Precedence}
    (h : ((upTo n).expr precedence).Reads eof ts e ts') (hled : LedByKeyword ts) :
    (eof.next ts').EndsExpr := by
  cases n with
  | zero => exact absurd h reads_exhausted_expr
  | succ n =>
    obtain ⟨form, hform, h⟩ | ⟨hnone, left, mid, hleft, hchain⟩ :=
      Rule.reads_expression.mp (reads_deepen_expr.mp h)
    · exact Rule.stopsBefore_ledBy (bounded_upTo n).full hform h
    · obtain ⟨_, rest, e', rfl, he', hrest⟩ := Rule.exists_operand_of_unary hnone hleft hled
      have hends := endsExpr_of_operand he' hrest
      -- The chain of operators finds nothing to take.
      obtain ⟨hloop, -⟩ := Rule.reads_binaryChain.mp hchain
      obtain ⟨-, rfl, -⟩ | ⟨t, _, op, _, _, rfl, hop, -⟩ := Rule.reads_whileNext.mp hloop
      · exact hends
      · rw [EndMark.next_cons] at hends
        rw [hends.binaryOp] at hop
        cases hop

end Level

/-- An expression extends as far to the right as it can.  The token behind it opens no suffix; if it
    is an operator, it is a colon or a binary operator that binds more loosely than the expression
    may.  Behind a whole expression, and behind a form that a keyword leads with or without unary
    operators in front of it, the only operator that can stand is a colon. -/
theorem expr_extendsRight {n : Nat} {precedence : Precedence} {eof : EndMark} {ts ts' : List Token}
    {e : Expr} (h : ((Level.upTo n).expr precedence).Reads eof ts e ts') :
    (eof.next ts').kind ∉ [.punct .dot, .punct .braceL, .punct .parenL, .punct .bracketL] ∧
    ((eof.next ts').kind = .operator → (eof.next ts').data = ":" ∨
      ∃ op, BinaryOp.ofSymbol? (eof.next ts').data = some op ∧ precedence < op.precedence) ∧
    (precedence = .loosest ∨ LedByKeyword ts →
      (eof.next ts').kind = .operator → (eof.next ts').data = ":") := by
  have hbounds := (Level.bounded_upTo n).expr precedence h
  refine ⟨hbounds.kind_not_mem, fun hkind => ?_, fun hfar hkind => ?_⟩
  · obtain hends | ⟨op, -, hop, hlooser⟩ := hbounds
    · exact .inl (hends.data_eq hkind)
    · exact .inr ⟨op, hop, hlooser⟩
  · obtain rfl | hled := hfar
    · exact hbounds.endsExpr.data_eq hkind
    · exact (Level.endsExpr_of_expr h hled).data_eq hkind

/-- The tokens of `-error a + b : c`. -/
def negatedError : List Token :=
  [(.operator, "-"), (.keyword .error, "error"), (.identifier, "a"), (.operator, "+"),
    (.identifier, "b"), (.operator, ":"), (.identifier, "c")].map fun lexeme =>
      { kind := lexeme.1, data := lexeme.2, span := .unset "sample" }

/-- Where only an operand is asked for, the sum behind the keyword is taken as a whole. -/
theorem expr_extendsRight_sample :
    ∃ e ts', ((Level.upTo 4).expr .unary).Reads (.ofTokens negatedError) negatedError e ts' ∧
      LedByKeyword negatedError ∧ ts'.length = 2 ∧
      ((EndMark.ofTokens negatedError).next ts').kind = .operator ∧
      ((EndMark.ofTokens negatedError).next ts').data = ":" := by
  let run := ((Level.upTo 4).expr .unary).run ⟨negatedError, (EndMark.ofTokens negatedError).1⟩
  have hdone : run.error? = none := by decide +kernel
  have hrest : run.rest.ahead = negatedError.drop 5 := by decide +kernel
  have hled : LedByKeyword negatedError :=
    ⟨negatedError.take 1, _, _, .error, rfl, by decide, rfl, rfl⟩
  cases hrun : run with
  | failed failure rest =>
    rw [hrun] at hdone
    cases hdone
  | done e rest =>
    rw [hrun] at hrest
    have hread := Rule.Reads.of_run hrun
    rw [show rest.ahead = negatedError.drop 5 from hrest] at hread
    exact ⟨e, _, hread, hled, rfl, rfl, (expr_extendsRight hread).2.2 (.inr hled) rfl⟩

end JsonnetSyntax
