import JsonnetSyntax.Proofs.Grammar.Lockstep
import JsonnetSyntax.Proofs.Grammar.Productions

/-!
# Reading gets ahead

Whatever reads an expression takes the next token first.  So it takes a token at least, also if it
fails, unless no token is left; then it fails because the end of the file is unexpected.  A loop
ends there too.

## Key results

- `Rule.TakesNext.bind`, `Rule.takesNext_pop_bind`: sequences that start with a token
- `Rule.takesNext_expression`: expressions
- `Rule.run_expression_end`: expressions where no token is left
- `Rule.endsLoops_end`: loops where no token is left
-/

namespace JsonnetSyntax

namespace TokenStream

/-- At the end there is nothing to skip. -/
theorem skip_nil (eof : Token) : skip ⟨[], eof⟩ = ⟨[], eof⟩ := rfl

/-- Behind the first token, fewer tokens are left. -/
theorem IsRestOf.length_lt {later s : TokenStream} (h : later.IsRestOf s.skip) (hs : s.ahead ≠ []) :
    later.ahead.length < s.ahead.length := by
  have hlength := h.length_le
  have hpos := List.length_pos_iff.mpr hs
  simp only [skip, List.length_drop] at hlength
  omega

end TokenStream

namespace Rule

/-- However the rule ends, the next token is taken. -/
def TakesNext {α : Type} (rule : Rule TokenStream α) : Prop :=
  ∀ s, (rule.run s).rest.IsRestOf s.skip

section Combinators

variable {α β : Type} {rule : Rule TokenStream α}

/-- What starts with taking a token takes the next token. -/
theorem takesNext_pop_bind {next : Token → Rule TokenStream β} : (pop >>= next).TakesNext :=
  fun s => (next s.next).rest_run s.skip

/-- A sequence takes the next token if its first rule does. -/
theorem TakesNext.bind {next : α → Rule TokenStream β} (h : rule.TakesNext) :
    (rule >>= next).TakesNext := by
  intro s
  have hrest := h s
  rw [run_bind]
  -- If the first rule fails, it has taken the token; if not, the second takes no token back.
  cases hrun : rule.run s with
  | failed failure rest => rwa [hrun] at hrest
  | done value mid =>
    rw [hrun, Outcome.rest_done] at hrest
    exact ((next value).rest_run mid).trans hrest

/-- Where the rule is done, what is left is left behind the next token. -/
theorem TakesNext.isRestOf {s mid : TokenStream} {value : α} (h : rule.TakesNext)
    (hrun : rule.run s = .done value mid) : mid.IsRestOf s.skip := by
  have hrest := h s
  rwa [hrun] at hrest

end Combinators

/-! ## Expressions led by a keyword -/

section Expressions

variable {full : Rule TokenStream Expr}

/-- What follows the look for a keyword form runs behind the form, or in front of the same token. -/
theorem run_keywordForm?_bind {α : Type} {next : Option Expr → Rule TokenStream α}
    {s : TokenStream} :
    (keywordForm? full >>= next).run s =
      match ledBy? full s.next.kind with
      | some form => (form >>= fun e => next (some e)).run s
      | none => (next none).run s := by
  rw [keywordForm?_eq, bind_assoc, run_bind, run_peek, Outcome.andThen_done]
  cases ledBy? full s.next.kind with
  | none => simp only [pure_bind]
  | some form => simp only [map_eq_pure_bind, bind_assoc, pure_bind]

/-- An expression that a keyword leads takes the keyword. -/
theorem takesNext_ledBy {kind : TokenKind} {form : Rule TokenStream Expr}
    (h : ledBy? full kind = some form) :
    form.TakesNext := by
  -- All these forms take their keyword first.
  unfold ledBy? at h
  split at h <;> cases h <;> exact takesNext_pop_bind

/-! ## Operands and operators -/

/-- An operand without suffixes takes the next token. -/
theorem takesNext_primary : (primary full).TakesNext := by
  intro s
  rw [primary, run_bind, run_peek, Outcome.andThen_done]
  -- One case for each bracket that opens an operand, and one for the rest: each takes the token.
  split
  · exact takesNext_pop_bind s
  · exact takesNext_pop_bind s
  · exact takesNext_pop_bind s
  · exact takesNext_pop_bind s

/-- An operand takes the next token, whatever suffixes follow. -/
theorem takesNext_operand : (operand full).TakesNext := by
  intro s
  rw [operand, run_bind, run_peek, Outcome.andThen_done]
  exact takesNext_primary.bind s

end Expressions

variable {g : Level TokenStream}

/-- A unary operator is told from an operand by the kind of the next token. -/
theorem run_unary {s : TokenStream} :
    (unary g).run s =
      if s.next.kind = .operator then (unaryOperation g).run s else (operand g.full).run s := by
  rw [unary, nextIs, bind_assoc, run_bind, run_peek, Outcome.andThen_done, pure_bind]
  by_cases h : s.next.kind = .operator
  · simp [h]
  · simp [h]

/-- A unary operation reads its operand behind the operator, or fails at a symbol that is none. -/
theorem run_unaryOperation {s : TokenStream} :
    (unaryOperation g).run s =
      match UnaryOp.ofSymbol? s.next.data with
      | some op => (g.operand.run s.skip).andThen fun operand rest =>
          .done (.node (.between s.next.span operand.span) (.unary op operand)) rest
      | none => .failed { error := ⟨.grammar (.notUnary s.next.data), s.next.span⟩ } s.skip := by
  rw [unaryOperation, run_bind, run_pop, Outcome.andThen_done]
  cases UnaryOp.ofSymbol? s.next.data with
  | none => rfl
  | some op => rfl

/-- An expression with or without unary operators takes the next token. -/
theorem takesNext_unary : (unary g).TakesNext := by
  intro s
  rw [run_unary]
  split
  · exact takesNext_pop_bind s
  · exact takesNext_operand s

/-- Reading an expression takes the next token. -/
theorem takesNext_expression {precedence : Precedence} : (expression g precedence).TakesNext := by
  intro s
  rw [expression, run_keywordForm?_bind]
  split
  · next form hform => exact (takesNext_ledBy hform).bind s
  · rw [run_bind, run_peek, Outcome.andThen_done]
    exact takesNext_unary.bind s

/-! ## Where no token is left -/

section End

variable {eof : Token}

/-- The failure at the end mark where an operand should stand. -/
def endFailure (eof : Token) : Failure := { error := ⟨.grammar .unexpectedEnd, eof.span⟩ }

/-- Where no token is left, reading an operand fails at the end mark. -/
theorem run_unary_end (heof : eof.kind = .endOfFile) :
    (unary g).run ⟨[], eof⟩ = .failed (endFailure eof) ⟨[], eof⟩ := by
  have hnext : TokenStream.next ⟨[], eof⟩ = eof := rfl
  rw [run_unary, hnext, if_neg (by simp [heof])]
  -- No operand looks like the end mark, and taking it leaves the stream as it was.
  simp [operand, primary, terminal, hnext, heof, TokenStream.skip_nil, endFailure]

/-- No keyword stands at the end. -/
theorem ledBy?_end {full : Rule TokenStream Expr} (heof : eof.kind = .endOfFile) :
    ledBy? full (TokenStream.next ⟨[], eof⟩).kind = none := by
  simp [TokenStream.next, heof, ledBy?]

/-- Where no token is left, reading an expression fails at the end mark, at any precedence. -/
theorem run_expression_end {precedence : Precedence} (heof : eof.kind = .endOfFile) :
    (expression g precedence).run ⟨[], eof⟩ = .failed (endFailure eof) ⟨[], eof⟩ := by
  rw [expression, run_keywordForm?_bind, ledBy?_end heof]
  simp [run_unary_end heof]

/-- Where no token is left, reading the operand of a unary operator fails at the end mark. -/
theorem run_unaryOperand_end (heof : eof.kind = .endOfFile) :
    (unaryOperand g).run ⟨[], eof⟩ = .failed (endFailure eof) ⟨[], eof⟩ := by
  rw [unaryOperand, run_keywordForm?_bind, ledBy?_end heof]
  exact run_unary_end heof

/-- Whether no loop of the grammar goes on at a token: not for another item, suffix, clause or
    operator. -/
def EndsLoops (t : Token) : Prop :=
  comma? t = none ∧ Suffix.ofToken? t = none ∧ ClauseStart.ofToken? t = none ∧
    ∀ precedence, binaryOp? precedence t = none

/-- Every loop ends at the end mark. -/
theorem endsLoops_end (heof : eof.kind = .endOfFile) : EndsLoops eof := by
  simp [EndsLoops, comma?, Suffix.ofToken?, ClauseStart.ofToken?, binaryOp?, heof]

end End

end Rule

end JsonnetSyntax
