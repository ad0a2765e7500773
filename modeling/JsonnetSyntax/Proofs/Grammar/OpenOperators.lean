import JsonnetSyntax.Proofs.Grammar.Failures
import JsonnetSyntax.Proofs.Grammar.Lookahead
import JsonnetSyntax.Proofs.Grammar.Nesting

/-!
# Levels that stay in use

A session counts the levels of nesting that are in use.  Reading a program gives back every level
that it takes, except for one: when an error occurs inside the operand of a unary operator, the
level of the operand stays in use, and later programs of the session are read with fewer levels.  So
the count is never greater than the number of unary operators that were read, and it is zero as long
as no program with a unary operator has failed.

## Key results

- `Level.obeys_openUnaryTaken`: every open unary operator was read
- `Level.obeys_openUnaryLe`: fewer unary operators are open than there are levels
- `Rule.run_unary_signs`: a row of unary operators without an operand, all of which stay open
- `depth_after`: the levels in use after any number of programs
- `depth_after_fails`: levels that stay in use make a later program fail
-/

namespace JsonnetSyntax

/-- Whether the token is an operator that can stand in front of an operand. -/
def Token.isUnaryOperator (t : Token) : Bool :=
  t.kind == .operator && (UnaryOp.ofSymbol? t.data).isSome

/-- What such a token is, as the rules ask for it. -/
theorem Token.isUnaryOperator_iff {t : Token} :
    t.isUnaryOperator = true ↔ t.kind = .operator ∧ ∃ op, UnaryOp.ofSymbol? t.data = some op := by
  simp [isUnaryOperator, Option.isSome_iff_exists]

/-- How many of the tokens ahead are unary operators. -/
def TokenStream.unaryOperators (s : TokenStream) : Nat := s.ahead.countP Token.isUnaryOperator

/-- Reading on makes no new unary operators. -/
theorem TokenStream.IsRestOf.unaryOperators_le {later s : TokenStream} (h : later.IsRestOf s) :
    later.unaryOperators ≤ s.unaryOperators :=
  h.ahead.sublist.countP_le

/-- Taking a unary operator leaves one less. -/
theorem TokenStream.unaryOperators_skip {s : TokenStream} (hs : s.next.isUnaryOperator = true)
    (heof : s.eof.kind = .endOfFile) : s.skip.unaryOperators + 1 = s.unaryOperators := by
  obtain ⟨ahead, eof⟩ := s
  cases ahead with
  | nil =>
    -- The end mark is no operator.
    have hkind : eof.kind = .operator := (Token.isUnaryOperator_iff.mp hs).1
    rw [show eof.kind = .endOfFile from heof] at hkind
    cases hkind
  | cons t ahead => exact (List.countP_cons_of_pos hs).symm

/-! ## Laws about open operators -/

/-- The unary operators that are open are among the tokens that were taken. -/
def FailureLaw.openUnaryTaken : FailureLaw where
  Holds s failure rest :=
    s.eof.kind = .endOfFile → failure.openUnary + rest.unaryOperators ≤ s.unaryOperators
  fault := by
    intro s fault span _ _
    exact Nat.le_of_eq (Nat.zero_add _)
  later := by
    intro s mid failure rest hmid hholds heof
    have hbound := hholds (by rw [hmid.eof]; exact heof)
    have hfewer := hmid.unaryOperators_le
    omega

/-- At most `k` unary operators are open. -/
def FailureLaw.openUnaryLe (k : Nat) : FailureLaw where
  Holds _ failure _ := failure.openUnary ≤ k
  fault := by
    intro s fault span _
    exact Nat.zero_le k
  later := by
    intro s mid failure rest _ hholds
    exact hholds

namespace Level

open Rule

/-- Every open unary operator was read, on all levels. -/
theorem obeys_openUnaryTaken (n : Nat) :
    (∀ precedence, ((upTo n).expr precedence).Obeys .openUnaryTaken) ∧
      (unary (upTo n)).Obeys .openUnaryTaken := by
  have hlater : ∀ {s failure rest}, FailureLaw.openUnaryTaken.Holds s.skip failure rest →
      FailureLaw.openUnaryTaken.Holds s failure rest :=
    fun hholds => FailureLaw.later _ (TokenStream.skip_isRestOf _) hholds
  have hnumber : ∀ {s : TokenStream}, s.next.kind = .number → readFloat? s.next.data = none →
      FailureLaw.openUnaryTaken.Holds s { error := ⟨.grammar .badNumber, s.next.span⟩ } s.skip := by
    intro s _ _ _
    have hfewer := (TokenStream.skip_isRestOf s).unaryOperators_le
    show 0 + s.skip.unaryOperators ≤ s.unaryOperators
    omega
  induction n with
  | zero =>
    -- On the lowest level nothing is read.
    have hzero : (tooDeep : Rule TokenStream Expr).Obeys .openUnaryTaken := by
      constructor
      intro s failure rest hfailed _
      obtain ⟨rfl, rfl⟩ := failed_tooDeep hfailed
      exact Nat.le_of_eq (Nat.zero_add _)
    refine ⟨fun _ => hzero, failsIn_unary hlater hnumber (fun _ => hzero) ?_⟩
    intro s failure rest op _ _ hfailed
    have hholds := hzero.failed hfailed
    exact hlater hholds
  | succ n ih =>
    have hexpr : ∀ precedence, ((upTo (n + 1)).expr precedence).Obeys .openUnaryTaken :=
      fun precedence => failsIn_expression hlater ih.1 ih.2
    refine ⟨hexpr, failsIn_unary hlater hnumber hexpr ?_⟩
    -- The operator in front of the operand is the one more that is open.
    intro s failure rest op hkind hop hfailed heof
    obtain ⟨inner, hinner, rfl⟩ := failed_countUnary hfailed
    have hbound : inner.openUnary + rest.unaryOperators ≤ s.skip.unaryOperators :=
      (failsIn_unaryOperand hlater ih.1 ih.2).failed hinner heof
    have hone :=
      TokenStream.unaryOperators_skip (Token.isUnaryOperator_iff.mpr ⟨hkind, op, hop⟩) heof
    show inner.openUnary + 1 + rest.unaryOperators ≤ s.unaryOperators
    omega

/-- Expressions on level `n` leave fewer than `n` unary operators open. -/
theorem obeys_openUnaryLe (n : Nat) :
    (∀ precedence, ((upTo n).expr precedence).Obeys (.openUnaryLe (n - 1))) ∧
      (unary (upTo n)).Obeys (.openUnaryLe n) := by
  induction n with
  | zero =>
    have hzero : (tooDeep : Rule TokenStream Expr).Obeys (.openUnaryLe 0) := by
      constructor
      intro s failure rest hfailed
      obtain ⟨rfl, rfl⟩ := failed_tooDeep hfailed
      exact Nat.le_refl 0
    refine ⟨fun _ => hzero, failsIn_unary id (fun _ _ => Nat.zero_le _) (fun _ => hzero) ?_⟩
    intro s failure rest op _ _ hfailed
    -- With no level left, the operand behind the sign is cut off and no sign is counted.
    have hbound := hzero.failed hfailed
    exact hbound
  | succ n ih =>
    have hbelow : ∀ precedence, ((upTo n).expr precedence).Obeys (.openUnaryLe n) :=
      fun precedence => (ih.1 precedence).mono fun hbound => Nat.le_trans hbound (Nat.sub_le n 1)
    have hexpr : ∀ precedence, ((upTo (n + 1)).expr precedence).Obeys (.openUnaryLe n) :=
      fun precedence => failsIn_expression id hbelow ih.2
    have hmore : ∀ {k : Nat}, k ≤ n → k ≤ n + 1 := fun hbound => Nat.le_trans hbound (Nat.le_succ n)
    refine ⟨hexpr, failsIn_unary hmore (fun _ _ => Nat.zero_le _) hexpr ?_⟩
    intro s failure rest op _ _ hfailed
    obtain ⟨inner, hinner, rfl⟩ := failed_countUnary hfailed
    have hbound : inner.openUnary ≤ n := (failsIn_unaryOperand id hbelow ih.2).failed hinner
    exact Nat.succ_le_succ hbound

end Level

/-! ## Sessions -/

namespace Session

/-- A program leaves a level free. -/
theorem depth_program_lt {s : Session} (h : s.depth < maxNesting) :
    s.program.2.depth < maxNesting := by
  rw [depth_program]
  cases houtcome : s.outcome with
  | done root rest => exact h
  | failed failure rest =>
    have hobeys := Rule.obeys_program (Level.obeys_openUnaryLe (maxNesting - s.depth)).1
    have hbound : failure.openUnary ≤ maxNesting - s.depth - 1 := hobeys.failed houtcome
    show s.depth + failure.openUnary < maxNesting
    omega

/-- A program leaves at most as many levels in use as it reads unary operators. -/
theorem depth_program_le {s : Session} (heof : s.stream.eof.kind = .endOfFile) :
    s.program.2.depth + s.program.2.stream.unaryOperators ≤ s.depth + s.stream.unaryOperators := by
  have hfewer := s.isRestOf_program.unaryOperators_le
  rw [depth_program, stream_program] at *
  cases houtcome : s.outcome with
  | done root rest =>
    rw [houtcome] at hfewer
    exact Nat.add_le_add_left hfewer s.depth
  | failed failure rest =>
    have hobeys := Rule.obeys_program (Level.obeys_openUnaryTaken (maxNesting - s.depth)).1
    have hbound : failure.openUnary + rest.unaryOperators ≤ s.stream.unaryOperators :=
      hobeys.failed houtcome heof
    show s.depth + failure.openUnary + rest.unaryOperators ≤ s.depth + s.stream.unaryOperators
    omega

end Session

/-- The levels in use after `n` programs: they are fewer than the limit, and not more than the unary
    operators that were read.  A program that is accepted keeps their number, and so does one that
    fails without having read a unary operator; if all programs are of these two kinds, no level
    stays in use.  Levels in use change the result of the next program only if nesting is too deep
    for it. -/
theorem depth_after (tokens : List Token) (n : Nat) :
    ((Session.ofTokens tokens).after n).depth < maxNesting ∧
    ((Session.ofTokens tokens).after n).depth +
      ((Session.ofTokens tokens).after n).stream.unaryOperators ≤
      (TokenStream.ofTokens tokens).unaryOperators ∧
    ((∀ k < n, (∃ root, ((Session.ofTokens tokens).after k).program.1 = .ok root) ∨
        ((Session.ofTokens tokens).after (k + 1)).stream.unaryOperators =
          ((Session.ofTokens tokens).after k).stream.unaryOperators) →
      ((Session.ofTokens tokens).after n).depth = 0) ∧
    ((∀ e, ((Session.ofTokens tokens).after n).program.1 = .error e →
        e.fault.message ≠ "Exceeded maximum nesting depth of 2048") →
      ((Session.ofTokens tokens).after n).program.1 =
        (Session.program ⟨((Session.ofTokens tokens).after n).stream, 0⟩).1) := by
  have heof : ∀ k, ((Session.ofTokens tokens).after k).stream.eof.kind = .endOfFile := by
    intro k
    rw [((Session.ofTokens tokens).isRestOf_after k).eof]
    exact (EndMark.ofTokens tokens).2
  refine ⟨?_, ?_, ?_, ?_⟩
  · -- Fewer levels are in use than there are, before and after every program.
    induction n with
    | zero => exact Nat.zero_lt_succ _
    | succ n ih => exact Session.depth_program_lt ih
  · -- What the programs so far have left in use they have taken from the tokens.
    induction n with
    | zero => exact Nat.le_of_eq (Nat.zero_add _)
    | succ n ih => exact (Session.depth_program_le (heof n)).trans ih
  · intro hclean
    induction n with
    | zero => rfl
    | succ n ih =>
      have hzero := ih fun k hk => hclean k (by omega)
      obtain ⟨root, hroot⟩ | hsame := hclean n (Nat.lt_succ_self n)
      · exact (Session.depth_program_of_ok hroot).trans hzero
      · -- No unary operator was read, so none can have stayed open.
        have hbound := Session.depth_program_le (heof n)
        change _ + ((Session.ofTokens tokens).after (n + 1)).stream.unaryOperators ≤ _ at hbound
        show ((Session.ofTokens tokens).after n).program.2.depth = 0
        omega
  · -- Fewer levels in use make no difference to a program that is not cut off.
    intro hmessage
    rw [Session.result_program] at hmessage ⊢
    rw [Session.result_program]
    have hsame :=
      Session.outcome_of_depth_le (Nat.zero_le ((Session.ofTokens tokens).after n).depth)
      fun e he htooDeep => hmessage e he htooDeep.message_eq
    exact congrArg Outcome.result hsame.symm

/-! ## Operators without an operand -/

namespace Rule

variable {g : Level TokenStream} {signs ts : List Token} {t eof : Token}

/-- The failure at a closing parenthesis where an operand should stand, inside `openUnary`
    operands. -/
def missingOperand (t : Token) (openUnary : Nat) : Failure :=
  ⟨⟨.grammar (.noOperand t.toLexeme), t.span⟩, openUnary⟩

/-- At a closing parenthesis the operand is missing, and the parenthesis is taken. -/
theorem run_operand_parenR (full : Rule TokenStream Expr) (ht : t.kind = .punct .parenR) :
    (operand full).run ⟨t :: ts, eof⟩ = .failed (missingOperand t 0) ⟨ts, eof⟩ := by
  simp [operand, primary, terminal, TokenStream.next, TokenStream.skip, ht, missingOperand]

/-- The first of the signs, or the parenthesis behind them, leads no keyword form. -/
theorem ledBy?_signs {full : Rule TokenStream Expr} (hsigns : ∀ u ∈ signs, u.isUnaryOperator = true)
    (ht : t.kind = .punct .parenR) :
    ledBy? full (TokenStream.next ⟨signs ++ t :: ts, eof⟩).kind = none := by
  cases signs with
  | nil => simp [TokenStream.next, ht, ledBy?]
  | cons u signs =>
    have hu := (Token.isUnaryOperator_iff.mp (hsigns u (List.mem_cons_self ..))).1
    simp [TokenStream.next, hu, ledBy?]

/-- Unary operators in front of a closing parenthesis stay open, all of them. -/
theorem run_unary_signs (hsigns : ∀ u ∈ signs, u.isUnaryOperator = true)
    (ht : t.kind = .punct .parenR) {n : Nat} (hn : signs.length ≤ n) :
    (unary (.upTo n)).run ⟨signs ++ t :: ts, eof⟩ =
      .failed (missingOperand t signs.length) ⟨ts, eof⟩ := by
  induction signs generalizing n with
  | nil =>
    have hkind : ¬ (TokenStream.next ⟨t :: ts, eof⟩).kind = .operator := by
      simp [TokenStream.next, ht]
    rw [List.nil_append, run_unary, if_neg hkind]
    exact run_operand_parenR _ ht
  | cons u signs ih =>
    rw [List.forall_mem_cons] at hsigns
    obtain ⟨hkind, op, hop⟩ := Token.isUnaryOperator_iff.mp hsigns.1
    obtain ⟨m, rfl⟩ : ∃ m, n = m + 1 := ⟨n - 1, by rw [List.length_cons] at hn; omega⟩
    -- The operand of the first sign is the row of the others, one level further down.
    have hinner := ih hsigns.2 (Nat.le_of_succ_le_succ hn)
    have hoperand : (unaryOperand (.upTo m)).run ⟨signs ++ t :: ts, eof⟩ =
        .failed (missingOperand t signs.length) ⟨ts, eof⟩ := by
      rw [unaryOperand, run_keywordForm?_bind, ledBy?_signs hsigns.2 ht]
      exact hinner
    have hcounted : (Level.upTo (m + 1)).operand.run ⟨signs ++ t :: ts, eof⟩ =
        .failed (missingOperand t (signs.length + 1)) ⟨ts, eof⟩ := by
      show (unaryOperand (.upTo m)).countUnary.run _ = _
      simp only [countUnary, hoperand, missingOperand]
    have hnext : TokenStream.next ⟨u :: (signs ++ t :: ts), eof⟩ = u := rfl
    have hskip : TokenStream.skip ⟨u :: (signs ++ t :: ts), eof⟩ = ⟨signs ++ t :: ts, eof⟩ := rfl
    rw [List.cons_append, run_unary, hnext, if_pos hkind, run_unaryOperation, hnext, hop, hskip]
    dsimp only
    rw [hcounted, Outcome.andThen_failed, List.length_cons]

/-- The same for whole programs, on one level more. -/
theorem run_program_signs (hsigns : ∀ u ∈ signs, u.isUnaryOperator = true)
    (ht : t.kind = .punct .parenR) {n : Nat} (hn : signs.length ≤ n) :
    (program (.upTo (n + 1))).run ⟨signs ++ t :: ts, eof⟩ =
      .failed (missingOperand t signs.length) ⟨ts, eof⟩ := by
  have hexpr : (Level.upTo (n + 1)).full.run ⟨signs ++ t :: ts, eof⟩ =
      .failed (missingOperand t signs.length) ⟨ts, eof⟩ := by
    show (expression (.upTo n) .loosest).run _ = _
    rw [expression, run_keywordForm?_bind, ledBy?_signs hsigns ht]
    simp [run_unary_signs hsigns ht hn]
  rw [program, run_bind, hexpr, Outcome.andThen_failed]

end Rule

/-- Fewer unary operators than there are levels, in front of a closing parenthesis: all their levels
    stay in use. -/
theorem Session.program_signs {signs ts : List Token} {t eof : Token}
    (hsigns : ∀ u ∈ signs, u.isUnaryOperator = true) (ht : t.kind = .punct .parenR)
    (hlength : signs.length < maxNesting) :
    (Session.mk ⟨signs ++ t :: ts, eof⟩ 0).program.2 = ⟨⟨ts, eof⟩, signs.length⟩ := by
  have houtcome : (Session.mk ⟨signs ++ t :: ts, eof⟩ 0).outcome =
      .failed (Rule.missingOperand t signs.length) ⟨ts, eof⟩ :=
    Rule.run_program_signs hsigns ht (Nat.le_of_lt_succ hlength)
  rw [program_eq, houtcome]
  exact congrArg (Session.mk _) (Nat.zero_add _)

/-- A closing parenthesis. -/
def closingParenthesis : Token := { kind := .punct .parenR, data := ")", span := .unset "sample" }

/-- A minus sign. -/
def minusSign : Token := { kind := .operator, data := "-", span := .unset "sample" }

/-- A name in parentheses, and the end mark. -/
def nameInParentheses : List Token :=
  [{ kind := .punct .parenL, data := "(", span := .unset "sample" },
   { kind := .identifier, data := "x", span := .unset "sample" },
   closingParenthesis,
   { kind := .endOfFile, data := "", span := .unset "sample" }]

/-- As many minus signs as can be nested, a closing parenthesis, and then a name in parentheses. -/
def signsThenName : List Token :=
  List.replicate 2047 minusSign ++ closingParenthesis :: nameInParentheses

/-- What the first program leaves of the session: the name in parentheses and one level. -/
theorem program_signsThenName :
    (Session.ofTokens signsThenName).program.2 = ⟨.ofTokens nameInParentheses, 2047⟩ := by
  have hsigns : ∀ u ∈ List.replicate 2047 minusSign, u.isUnaryOperator = true := by
    intro u hu
    rw [List.eq_of_mem_replicate hu]
    decide
  have hplain : ∀ u ∈ List.replicate 2047 minusSign, u.kind ≠ .endOfFile := by
    intro u hu
    rw [List.eq_of_mem_replicate hu]
    decide
  have hlength : (List.replicate 2047 minusSign).length = 2047 := List.length_replicate
  -- The minus signs and the parenthesis stand in front of the end mark of the name.
  have hsession : Session.ofTokens signsThenName = ⟨⟨List.replicate 2047 minusSign ++
      closingParenthesis :: (TokenStream.ofTokens nameInParentheses).ahead,
      (TokenStream.ofTokens nameInParentheses).eof⟩, 0⟩ :=
    congrArg (Session.mk · 0) (TokenStream.ofTokens_append hplain (List.cons_ne_nil _ _))
  rw [hsession, Session.program_signs hsigns rfl (by rw [hlength]; decide), hlength]

/-- A program that fails behind 2047 minus signs leaves their levels in use.  So the next program of
    the session is nested too deep, although it has two levels only and is accepted on its own. -/
theorem depth_after_fails :
    ((Session.ofTokens signsThenName).after 1).depth = 2047 ∧
      ((Session.ofTokens signsThenName).after 1).program.1 =
        .error ⟨.grammar (.tooDeep maxNesting), .unset "sample"⟩ ∧
      ((Session.ofTokens signsThenName).after 1).stream = .ofTokens nameInParentheses ∧
      (parse nameInParentheses).isOk = true := by
  rw [Session.after_one, program_signsThenName]
  exact ⟨rfl, rfl, rfl, by decide +kernel⟩

/-- Behind a failed program without a unary operator, a program is read with all levels. -/
theorem depth_after_sample :
    (∃ e, (Session.ofTokens (closingParenthesis :: nameInParentheses)).program.1 = .error e) ∧
      ((Session.ofTokens (closingParenthesis :: nameInParentheses)).after 1).depth = 0 := by
  refine ⟨⟨_, rfl⟩, (depth_after (closingParenthesis :: nameInParentheses) 1).2.2.1 ?_⟩
  intro k hk
  obtain rfl : k = 0 := by omega
  exact .inr (by decide +kernel)

end JsonnetSyntax
