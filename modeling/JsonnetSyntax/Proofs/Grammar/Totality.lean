import Mathlib.Data.List.TakeWhile
import JsonnetSyntax.Proofs.Grammar.Failures
import JsonnetSyntax.Proofs.Grammar.Nesting

/-!
# Reading always ends

Every program of a session is read to an end: the next token is always one of the tokens, reading
moves ahead and never past the first end mark, and whatever reads an expression moves ahead by a
token at least.  So expressions cannot be nested deeper than there are tokens, and reading would end
without the limit on nesting too.  No operand is looked for at an opening mark, and no suffix behind
a token that opens none.

## Key results

- `TokenStream.At.run`: reading moves from an index to a later one
- `Level.obeys_deepTaken`: nesting is too deep only behind as many tokens as there are levels
- `Level.run_expr_eq`: more levels than tokens make no difference
- `Session.outcomeOr_eq`: what is done at tokens that never come up does not matter
- `reading_advances`: all of this for the programs of a session
-/

namespace JsonnetSyntax

/-! ## Indices -/

/-- The tokens, with an end mark behind them if the last one is none. -/
def withEnd (tokens : List Token) : List Token :=
  if tokens.getLast?.any fun t => t.kind == .endOfFile then tokens
  else tokens ++ [TokenStream.missingEnd tokens]

/-- The index of the first end mark. -/
def firstEnd (tokens : List Token) : Nat := (withEnd tokens).findIdx fun t => t.kind == .endOfFile

namespace TokenStream

variable {tokens : List Token} {s : TokenStream} {i : Nat}

/-- Behind the tokens ahead stands the end mark. -/
theorem exists_withEnd_eq (tokens : List Token) :
    ∃ more, withEnd tokens = (ofTokens tokens).ahead ++ (ofTokens tokens).eof :: more := by
  -- Either there is no end mark, and one is put behind the tokens, or the first one is found.
  cases hfind : tokens.find? fun t => t.kind == .endOfFile with
  | none =>
    have hplain : ∀ t ∈ tokens, (t.kind != .endOfFile) = true := by
      simpa [List.find?_eq_none] using hfind
    have hlast : (tokens.getLast?.any fun t => t.kind == .endOfFile) = false := by
      cases hlast : tokens.getLast? with
      | none => rfl
      | some t => simpa using hplain t (List.mem_of_getLast? hlast)
    refine ⟨[], ?_⟩
    simp [withEnd, hlast, ofTokens, hfind, List.takeWhile_eq_self_iff.mpr hplain]
  | some eof =>
    obtain ⟨heof, before, behind, rfl, hplain⟩ := List.find?_eq_some_iff_append.mp hfind
    have hahead : (ofTokens (before ++ eof :: behind)).ahead = before := by
      rw [ofTokens, List.takeWhile_append_of_pos (by simpa using hplain)]
      simp [bne, heof]
    have hmark : (ofTokens (before ++ eof :: behind)).eof = eof := by
      simp only [ofTokens, hfind, Option.getD_some]
    rw [hahead, hmark, withEnd]
    split
    · -- The last token is an end mark, perhaps another one.
      exact ⟨behind, rfl⟩
    · exact ⟨behind ++ [missingEnd (before ++ eof :: behind)], by simp⟩

/-- The first end mark stands behind the tokens ahead. -/
theorem firstEnd_eq (tokens : List Token) : firstEnd tokens = (ofTokens tokens).ahead.length := by
  obtain ⟨more, hmore⟩ := exists_withEnd_eq tokens
  have heof : (ofTokens tokens).eof.kind = .endOfFile := (EndMark.ofTokens tokens).2
  have hplain : ∀ t ∈ (ofTokens tokens).ahead, ¬ (t.kind == .endOfFile) = true := by
    intro t ht
    have hkind := List.all_eq_true.mp List.all_takeWhile t ht
    simpa using hkind
  rw [firstEnd, hmore, List.findIdx_append, List.findIdx_eq_length.mpr (by simpa using hplain)]
  simp [List.findIdx_cons, heof]

/-- The stream is what is left from an index on: its next token is the token with that index, and
    the tokens ahead are those up to the first end mark. -/
structure At (tokens : List Token) (i : Nat) (s : TokenStream) : Prop where
  isRestOf : s.IsRestOf (ofTokens tokens)
  next : (withEnd tokens)[i]? = some s.next
  length : i + s.ahead.length = firstEnd tokens

/-- The stream ends at an end mark. -/
theorem At.eof_kind (h : s.At tokens i) : s.eof.kind = .endOfFile := by
  rw [h.isRestOf.eof]
  exact (EndMark.ofTokens tokens).2

/-- At the first end mark no token is ahead. -/
theorem At.eq_end (h : s.At tokens i) (hi : i = firstEnd tokens) : ∃ eof, s = ⟨[], eof⟩ := by
  obtain ⟨ahead, eof⟩ := s
  have hlength : i + ahead.length = firstEnd tokens := h.length
  obtain rfl : ahead = [] := List.eq_nil_of_length_eq_zero (by omega)
  exact ⟨eof, rfl⟩

/-- The first end mark is one of the tokens with an end mark behind them. -/
theorem firstEnd_lt (tokens : List Token) : firstEnd tokens < (withEnd tokens).length := by
  obtain ⟨more, hmore⟩ := exists_withEnd_eq tokens
  rw [firstEnd_eq, hmore, List.length_append, List.length_cons]
  omega

/-- What reading leaves stands at an index. -/
theorem IsRestOf.at (h : s.IsRestOf (ofTokens tokens)) :
    s.At tokens (firstEnd tokens - s.ahead.length) := by
  -- What was taken is the front of the tokens, so its length is the index.
  have hlength := h.length_le
  obtain ⟨taken, htaken⟩ := h.ahead
  obtain ⟨more, hmore⟩ := exists_withEnd_eq tokens
  rw [firstEnd_eq]
  refine ⟨h, ?_, by rw [firstEnd_eq]; omega⟩
  have hindex : (ofTokens tokens).ahead.length - s.ahead.length = taken.length := by
    rw [← htaken, List.length_append]
    omega
  rw [hindex, hmore, ← htaken, ← h.eof, List.append_assoc,
    List.getElem?_append_right (Nat.le_refl _)]
  obtain ⟨ahead, eof⟩ := s
  cases ahead with
  | nil => simp [TokenStream.next]
  | cons t ahead => simp [TokenStream.next]

/-- Taking the next token moves to the next index, except at the end mark. -/
theorem At.skip (h : s.At tokens i) :
    s.skip.At tokens (if i < firstEnd tokens then i + 1 else i) := by
  have hskip := (s.skip_isRestOf.trans h.isRestOf).at
  have hlength := h.length
  have hahead : s.skip.ahead.length = s.ahead.length - 1 := List.length_drop
  convert hskip using 1
  split <;> omega

/-- Whatever is read, reading moves from an index to a later one or stays. -/
theorem At.run {α : Type} (h : s.At tokens i) (rule : Rule TokenStream α) :
    ∃ j, i ≤ j ∧ (rule.run s).rest.At tokens j := by
  have hlength := h.length
  have hle := (rule.rest_run s).length_le
  exact ⟨_, by omega, ((rule.rest_run s).trans h.isRestOf).at⟩

/-- Where the next token is taken, reading moves to a later index, unless it starts at the end
    mark. -/
theorem At.run_takesNext {α : Type} (h : s.At tokens i) {rule : Rule TokenStream α}
    (hrule : rule.TakesNext) (hi : i < firstEnd tokens) :
    ∃ j, i < j ∧ (rule.run s).rest.At tokens j := by
  -- In front of the end mark a token is left, and the rule takes it.
  have hlength := h.length
  have hahead : s.ahead ≠ [] := by
    intro hnil
    rw [hnil] at hlength
    simp only [List.length_nil] at hlength
    omega
  have hlt := (hrule s).length_lt hahead
  exact ⟨_, by omega, ((rule.rest_run s).trans h.isRestOf).at⟩

end TokenStream

/-! ## Levels and tokens -/

/-- Where `n` levels are used up, `n` tokens at least were taken. -/
def FailureLaw.deepTaken (n : Nat) : FailureLaw where
  Holds s failure rest :=
    failure.error.IsTooDeep → s.eof.kind = .endOfFile → n + rest.ahead.length ≤ s.ahead.length
  fault := by
    intro s fault span hfault htooDeep
    cases htooDeep
    exact absurd (.tooDeep maxNesting) hfault
  later := by
    intro s mid failure rest hmid hholds htooDeep heof
    have hbound := hholds htooDeep (by rw [hmid.eof]; exact heof)
    have hlength := hmid.length_le
    omega

namespace Rule

/-- A rule that finds no operand at the end mark, and uses up `n` levels behind its first token
    only, takes one token more than there are levels. -/
theorem ObeysBehind.deepTaken_succ {n : Nat} {rule : Rule TokenStream Expr}
    (h : rule.ObeysBehind (.deepTaken n)) (hend : ∀ {eof : Token}, eof.kind = .endOfFile →
      rule.run ⟨[], eof⟩ = .failed (endFailure eof) ⟨[], eof⟩) :
    rule.Obeys (.deepTaken (n + 1)) := by
  constructor
  intro s failure rest hfailed htooDeep heof
  obtain ⟨ahead, eof⟩ := s
  cases ahead with
  | nil =>
    -- What fails at the end mark is not nested too deep.
    rw [hend heof] at hfailed
    cases hfailed
    cases htooDeep
  | cons t ahead =>
    have hbound : n + rest.ahead.length ≤ ahead.length := h.failed hfailed htooDeep heof
    simp only [List.length_cons]
    omega

end Rule

namespace Level

open Rule

/-- Unary operations and operands use up the levels behind their first token. -/
theorem obeysBehind_unary_deepTaken {g : Level TokenStream} {n : Nat}
    (hexpr : ∀ precedence, (g.expr precedence).Obeys (.deepTaken n))
    (hoperand : g.operand.Obeys (.deepTaken n)) : (unary g).ObeysBehind (.deepTaken n) := by
  refine failsIn_unary id (fun _ _ htooDeep => nomatch htooDeep) hexpr ?_
  intro s failure rest op _ _ hfailed
  exact hoperand.failed hfailed

/-- Nesting is too deep for `n` levels only behind `n` tokens. -/
theorem obeys_deepTaken (n : Nat) :
    (∀ precedence, ((upTo n).expr precedence).Obeys (.deepTaken n)) ∧
      (upTo n).operand.Obeys (.deepTaken n) := by
  -- By induction on the levels: each is used up behind a token of its own.
  induction n with
  | zero =>
    have hzero : (tooDeep : Rule TokenStream Expr).Obeys (.deepTaken 0) := by
      constructor
      intro s failure rest hfailed _ _
      obtain ⟨rfl, rfl⟩ := failed_tooDeep hfailed
      exact Nat.le_of_eq (Nat.zero_add _)
    exact ⟨fun _ => hzero, hzero⟩
  | succ n ih =>
    have hunary := obeysBehind_unary_deepTaken ih.1 ih.2
    constructor
    · intro precedence
      exact ObeysBehind.deepTaken_succ (failsIn_expression id ih.1 hunary) run_expression_end
    · constructor
      intro s failure rest hfailed
      obtain ⟨inner, hinner, rfl⟩ := failed_countUnary hfailed
      have hobeys :=
        ObeysBehind.deepTaken_succ (failsIn_unaryOperand id ih.1 hunary) run_unaryOperand_end
      have hbound := hobeys.failed hinner
      exact hbound

/-- With more levels than there are tokens, nesting is never too deep. -/
theorem not_isTooDeep {n : Nat} {precedence : Precedence} {s rest : TokenStream} {failure : Failure}
    (heof : s.eof.kind = .endOfFile) (hn : s.ahead.length < n)
    (h : ((upTo n).expr precedence).run s = .failed failure rest) : ¬ failure.error.IsTooDeep := by
  intro htooDeep
  have hbound := ((obeys_deepTaken n).1 precedence).failed h htooDeep heof
  omega

/-- More levels than there are tokens make no difference. -/
theorem run_expr_eq {n m : Nat} {precedence : Precedence} {s : TokenStream}
    (heof : s.eof.kind = .endOfFile) (hn : s.ahead.length < n) (hm : n ≤ m) :
    ((upTo m).expr precedence).run s = ((upTo n).expr precedence).run s := by
  -- The two runs can differ only where the shallower one is cut off for its nesting.
  have hmatches := ((inStep_upTo_of_le hm).expr precedence).run (s := s) rfl
  refine hmatches.eq_of_cutOff fun e he => ?_
  cases hrun : ((upTo n).expr precedence).run s with
  | done value rest =>
    rw [hrun] at he
    cases he
  | failed failure rest =>
    rw [hrun] at he
    cases he
    exact not_isTooDeep heof hn hrun

end Level

/-! ## Arms that are never taken -/

namespace Rule

section Loops

variable {β γ σ : Type} {select : Token → Option β} {select' : Token → Option γ}
  {body : Token → β → σ → Rule TokenStream σ} {body' : Token → γ → σ → Rule TokenStream σ}

/-- Loops that stop at the same tokens and do the same behind the others are the same. -/
theorem whileNext_congr (hstop : ∀ t, select t = none ↔ select' t = none)
    (hround : ∀ t choice choice', select t = some choice → select' t = some choice' →
      ∀ state, body t choice state = body' t choice' state) (state : σ) :
    whileNext select body state = whileNext select' body' state := by
  ext s
  -- A round may take any number of tokens behind the one it starts with.
  induction hn : s.ahead.length using Nat.strongRecOn generalizing state s with
  | ind n ih =>
    obtain ⟨ahead, eof⟩ := s
    cases ahead with
    | nil => rw [run_whileNext_nil, run_whileNext_nil]
    | cons t ahead =>
      cases ht : select t with
      | none => rw [run_whileNext_stop ht, run_whileNext_stop ((hstop t).mp ht)]
      | some choice =>
        cases ht' : select' t with
        | none =>
          rw [(hstop t).mpr ht'] at ht
          cases ht
        | some choice' =>
          rw [run_whileNext_round ht, run_whileNext_round ht', run_bind, run_bind,
            hround t choice choice' ht ht' state]
          cases hbody : (body' t choice' state).run ⟨ahead, eof⟩ with
          | failed failure rest => rfl
          | done after rest =>
            have hshorter := (isRestOf_of_run hbody).length_le
            simp only [List.length_cons] at hn hshorter
            exact ih rest.ahead.length (by omega) after rest rfl

end Loops

/-- Whether a token opens an operand in brackets, braces or parentheses. -/
def opensOperand (t : Token) : Bool :=
  t.kind == .punct .braceL || t.kind == .punct .bracketL || t.kind == .punct .parenL

/-- Whether a token opens a suffix. -/
def opensSuffix (t : Token) : Bool := t.kind == .punct .dot || opensOperand t

section Or

variable (stuck : Token → Rule TokenStream Expr)

/-- Reads an operand without marks, and gets stuck at an opening mark. -/
def terminalOr (full : Rule TokenStream Expr) : Rule TokenStream Expr := do
  let t ← peek
  if opensOperand t then
    let _ ← pop
    stuck t
  else terminal full

/-- Reads an operand without suffixes. -/
def primaryOr (full : Rule TokenStream Expr) : Rule TokenStream Expr := do
  let start ← peek
  match start.kind with
  | .punct .braceL => do let _ ← pop; object full start.span
  | .punct .bracketL => do let _ ← pop; array full start.span
  | .punct .parenL => do let _ ← pop; parenthesised full
  | _ => terminalOr stuck full

/-- Reads a suffix behind a token, and gets stuck if the token opens none. -/
def suffixOr (full : Rule TokenStream Expr) (start : Span) (opening : Token) (target : Expr) :
    Rule TokenStream Expr :=
  match Suffix.ofToken? opening with
  | some kind => suffix full start opening kind target
  | none => stuck opening

/-- Reads an operand with its suffixes. -/
def operandOr (full : Rule TokenStream Expr) : Rule TokenStream Expr := do
  let start ← peek
  let first ← primaryOr stuck full
  whileNext (fun t => if opensSuffix t then some () else none)
    (fun opening _ target => suffixOr stuck full start.span opening target) first

/-- Reads an operand with the unary operators in front of it. -/
def unaryOr (g : Level TokenStream) : Rule TokenStream Expr := do
  if ← nextIs .operator then unaryOperation g
  else operandOr stuck g.full

/-- Reads an expression whose operators bind at least as tightly as a precedence. -/
def expressionOr (g : Level TokenStream) (precedence : Precedence) : Rule TokenStream Expr := do
  match ← keywordForm? g.full with
  | some e => return e
  | none =>
    let start ← peek
    binaryChain g precedence start.span (← unaryOr stuck g)

/-- Reads the operand of a unary operator. -/
def unaryOperandOr (g : Level TokenStream) : Rule TokenStream Expr := do
  match ← keywordForm? g.full with
  | some e => return e
  | none => unaryOr stuck g

end Or

variable {stuck : Token → Rule TokenStream Expr}

/-- Where no mark opens an operand, the arm for such marks is not taken. -/
theorem run_terminalOr {full : Rule TokenStream Expr} {s : TokenStream}
    (h : opensOperand s.next = false) :
    (terminalOr stuck full).run s = (terminal full).run s := by
  rw [terminalOr, run_bind, run_peek, Outcome.andThen_done, h]
  rfl

/-- The opening marks are told apart before a terminal is looked for. -/
theorem run_primary_terminal {full : Rule TokenStream Expr} {s : TokenStream}
    (h : opensOperand s.next = false) :
    (primary full).run s = (terminal full).run s := by
  simp only [opensOperand, Bool.or_eq_false_iff, beq_eq_false_iff_ne] at h
  -- At a mark that opens an operand, another rule is chosen.
  rw [primary, run_bind, run_peek, Outcome.andThen_done]
  split
  · exact absurd ‹_› h.1.1
  · exact absurd ‹_› h.1.2
  · exact absurd ‹_› h.2
  · rfl

/-- The same holds where the operand may get stuck. -/
theorem run_primaryOr_terminal {full : Rule TokenStream Expr} {s : TokenStream}
    (h : opensOperand s.next = false) :
    (primaryOr stuck full).run s = (terminalOr stuck full).run s := by
  simp only [opensOperand, Bool.or_eq_false_iff, beq_eq_false_iff_ne] at h
  rw [primaryOr, run_bind, run_peek, Outcome.andThen_done]
  split
  · exact absurd ‹_› h.1.1
  · exact absurd ‹_› h.1.2
  · exact absurd ‹_› h.2
  · rfl

/-- Operands without suffixes never get stuck. -/
theorem primaryOr_eq (full : Rule TokenStream Expr) : primaryOr stuck full = primary full := by
  ext s
  -- Either no mark is there, and the same terminal is read, or the mark chooses the same rule.
  cases hopens : opensOperand s.next with
  | false => rw [run_primaryOr_terminal hopens, run_primary_terminal hopens, run_terminalOr hopens]
  | true =>
    have hkind : s.next.kind = .punct .braceL ∨ s.next.kind = .punct .bracketL ∨
        s.next.kind = .punct .parenL := by
      simpa [opensOperand, or_assoc] using hopens
    rcases hkind with hkind | hkind | hkind
    all_goals simp only [primaryOr, primary, run_bind, run_peek, Outcome.andThen_done, hkind]

/-- A token opens a suffix exactly if it opens one of some kind. -/
theorem opensSuffix_iff {t : Token} :
    opensSuffix t = true ↔ ∃ kind, Suffix.ofToken? t = some kind := by
  unfold opensSuffix opensOperand Suffix.ofToken?
  split <;> simp_all

/-- Operands never get stuck. -/
theorem operandOr_eq (full : Rule TokenStream Expr) : operandOr stuck full = operand full := by
  unfold operandOr operand
  rw [primaryOr_eq]
  refine congrArg _ (funext fun start => congrArg _ (funext fun first => ?_))
  -- Both loops stop at the same tokens; at the others, the suffix is one of those that are known.
  refine whileNext_congr (fun t => ?_) (fun t choice kind _ hkind target => ?_) first
  · have hiff := opensSuffix_iff (t := t)
    cases hkind : Suffix.ofToken? t with
    | none => simpa [hkind] using hiff
    | some kind => simpa [hkind] using hiff
  · rw [suffixOr, hkind]

/-- Operands with unary operators never get stuck. -/
theorem unaryOr_eq (g : Level TokenStream) : unaryOr stuck g = unary g := by
  rw [unaryOr, unary, operandOr_eq]

/-- Expressions never get stuck. -/
theorem expressionOr_eq (g : Level TokenStream) (precedence : Precedence) :
    expressionOr stuck g precedence = expression g precedence := by
  unfold expressionOr expression
  refine congrArg _ (funext fun form => ?_)
  cases form with
  | some e => rfl
  | none => simp only [unaryOr_eq]

/-- Operands of unary operators never get stuck. -/
theorem unaryOperandOr_eq (g : Level TokenStream) : unaryOperandOr stuck g = unaryOperand g := by
  unfold unaryOperandOr unaryOperand
  refine congrArg _ (funext fun form => ?_)
  cases form with
  | some e => rfl
  | none => simp only [unaryOr_eq]

end Rule

/-- Expressions with at most `n` levels of nesting, which get stuck at tokens that are not
    expected. -/
def Level.upToOr (stuck : Token → Rule TokenStream Expr) : Nat → Level TokenStream
  | 0 => exhausted
  | n + 1 =>
    { expr := Rule.expressionOr stuck (upToOr stuck n)
      operand := (Rule.unaryOperandOr stuck (upToOr stuck n)).countUnary }

/-- On no level reading gets stuck. -/
theorem Level.upToOr_eq {stuck : Token → Rule TokenStream Expr} (n : Nat) :
    upToOr stuck n = upTo n := by
  -- By induction on the levels: each is made of the one below it in the same way.
  induction n with
  | zero => rfl
  | succ n ih =>
    rw [upToOr, ih, Rule.unaryOperandOr_eq, funext (Rule.expressionOr_eq (upTo n))]
    rfl

/-- The outcome of reading the next program of a session, where `stuck` says what is done with an
    opening mark where an operand without marks is read, and with a token that opens no suffix where
    a suffix is read. -/
def Session.outcomeOr (stuck : Token → Rule TokenStream Expr) (s : Session) :
    Outcome TokenStream Expr :=
  (Rule.program (.upToOr stuck (maxNesting - s.depth))).run s.stream

/-- No program of a session gets stuck. -/
theorem Session.outcomeOr_eq {stuck : Token → Rule TokenStream Expr} (s : Session) :
    s.outcomeOr stuck = s.outcome := by
  rw [outcomeOr, outcome, Level.upToOr_eq]

/-! ## Sessions -/

/-- Reading any number of programs off any tokens.  Every program is read from an index of the
    tokens to one that is not in front of it and not behind the first end mark, and so is everything
    that is read on the way.  With a level left, an expression takes a token at least, also if it
    fails, or it fails because it stands at the end mark, where no loop goes on.  More levels than
    tokens are never used up and make no difference, so reading ends with any number of them.  What
    is done with tokens that are not expected does not matter. -/
theorem reading_advances (tokens : List Token) :
    (∀ n, ∃ i j, i ≤ j ∧ ((Session.ofTokens tokens).after n).stream.At tokens i ∧
      ((Session.ofTokens tokens).after (n + 1)).stream.At tokens j) ∧
    (∀ stuck n, ((Session.ofTokens tokens).after n).outcomeOr stuck =
      ((Session.ofTokens tokens).after n).outcome) ∧
    ∀ i (s : TokenStream), s.At tokens i →
      i ≤ firstEnd tokens ∧ firstEnd tokens < (withEnd tokens).length ∧
      s.skip.At tokens (if i < firstEnd tokens then i + 1 else i) ∧
      (∀ (α : Type) (rule : Rule TokenStream α), ∃ j, i ≤ j ∧ (rule.run s).rest.At tokens j) ∧
      (i = firstEnd tokens → Rule.EndsLoops s.next) ∧
      ∀ n precedence,
        (i < firstEnd tokens →
          ∃ j, i < j ∧ (((Level.upTo (n + 1)).expr precedence).run s).rest.At tokens j) ∧
        (i = firstEnd tokens →
          ((Level.upTo (n + 1)).expr precedence).run s =
            .failed { error := ⟨.grammar .unexpectedEnd, s.next.span⟩ } s) ∧
        (firstEnd tokens - i ≤ n →
          ((Level.upTo (n + 1)).expr precedence).run s =
            ((Level.upTo (firstEnd tokens - i + 1)).expr precedence).run s ∧
          ∀ failure rest, ((Level.upTo (n + 1)).expr precedence).run s = .failed failure rest →
            ¬ failure.error.IsTooDeep) := by
  refine ⟨?_, fun stuck n => Session.outcomeOr_eq _, ?_⟩
  · -- A session stays inside its tokens, so it stands at an index after every program.
    intro n
    have hstart := ((Session.ofTokens tokens).isRestOf_after n).at
    obtain ⟨j, hle, hstop⟩ := hstart.run (Rule.program (.upTo (maxNesting - _)))
    refine ⟨_, j, hle, hstart, ?_⟩
    rw [Session.after, Session.stream_program]
    exact hstop
  -- Everything that is read on the way starts at an index `i`.
  · intro i s hs
    have hlength := hs.length
    refine ⟨by omega, TokenStream.firstEnd_lt tokens, hs.skip, fun α rule => hs.run rule, ?_, ?_⟩
    · intro hi
      obtain ⟨eof, rfl⟩ := hs.eq_end hi
      exact Rule.endsLoops_end hs.eof_kind
    intro n precedence
    refine ⟨hs.run_takesNext Rule.takesNext_expression, ?_, ?_⟩
    · intro hi
      obtain ⟨eof, rfl⟩ := hs.eq_end hi
      exact Rule.run_expression_end hs.eof_kind
    · intro hn
      refine ⟨Level.run_expr_eq hs.eof_kind (by omega) (by omega), ?_⟩
      intro failure rest hfailed
      exact Level.not_isTooDeep hs.eof_kind (by omega) hfailed

/-- An opening parenthesis, and a name that stands behind the end mark. -/
def markInside : List Token :=
  [{ kind := .punct .parenL, data := "(", span := .unset "sample" },
   { kind := .endOfFile, data := "", span := .unset "sample" },
   { kind := .identifier, data := "x", span := .unset "sample" }]

/-- The parenthesis is taken and the expression in it is looked for at the mark, with one level
    left; the name is never read, and the mark that is put behind it is not needed. -/
theorem reading_advances_sample :
    (TokenStream.ofTokens markInside).At markInside 0 ∧
      firstEnd markInside = 1 ∧ (withEnd markInside).length = 4 ∧
      (∃ j, 0 < j ∧ j ≤ 1 ∧
        (((Level.upTo 2).expr .loosest).run (TokenStream.ofTokens markInside)).rest.At markInside
          j) ∧
      ((Level.upTo 9).expr .loosest).run (TokenStream.ofTokens markInside) =
        ((Level.upTo 2).expr .loosest).run (TokenStream.ofTokens markInside) := by
  have hend : firstEnd markInside = 1 := by decide
  have hstart : (TokenStream.ofTokens markInside).At markInside 0 :=
    (TokenStream.IsRestOf.refl _).at
  obtain ⟨-, -, -, -, -, hexpr⟩ := (reading_advances markInside).2.2 0 _ hstart
  obtain ⟨j, hj, hstop⟩ := (hexpr 1 .loosest).1 (by rw [hend]; decide)
  have hsame := ((hexpr 8 .loosest).2.2 (by rw [hend]; decide)).1
  rw [hend] at hsame
  have hle := ((reading_advances markInside).2.2 j _ hstop).1
  exact ⟨hstart, hend, by decide, ⟨j, hj, by omega, hstop⟩, hsame⟩

end JsonnetSyntax
