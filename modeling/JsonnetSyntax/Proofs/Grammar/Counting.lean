import JsonnetSyntax.Proofs.Grammar.InStep

/-!
# Levels of nesting in use

The rules of a session keep count of the levels of nesting that are in use: `Rule.enter` takes a
level, and `Rule.leave` or `Rule.thenLeave` gives it back.  The rules of `Level.upTo` have no
counter: how many levels are left is part of the rule.  This module shows, rule by rule, that the
two do the same.  Where `d` levels are in use, a session reads what `Level.upTo (maxNesting - d)`
reads.  Whatever is read to its end leaves `d` levels in use again, and what fails leaves one more
for every unary operator whose operand it was in.

## Key results

- `Rule.inStep_countedExpr`, `Rule.inStep_countedOperand`: an expression and an operand on their
  levels
- `Level.inStep_counting`: all levels
- `Level.run_counting_expr`, `Rule.run_program_counting`: expressions and programs of a session
- `Level.depth_of_run_counting`: an expression that is read gives back every level that it takes
- `Session.depth_program_of_ok`: an accepted program does so too
- `Session.program_eq`: a program of a session by its outcome
- `parse_eq_ok_iff`: when a list of tokens is a program
-/

namespace JsonnetSyntax

/-! ## The count -/

/-- A run on a stream and one in a session, where `d` levels are in use.  As long as nothing fails,
    as many are in use whenever the two runs are compared; a failure adds those of the open unary
    operators, which the session does not count in any other way. -/
def Comparison.counted (d : Nat) : Comparison Session where
  move := id
  Streams s s' := s' = ⟨s, d⟩
  Ignores _ _ := False
  Failures count s count' s' := s' = ⟨s, d + count⟩ ∧ count' = 0
  move_between := Span.id_between
  next := by
    rintro s _ rfl
    exact .refl s.next
  ended := by
    rintro s _ rfl
    exact Iff.rfl
  skip := by
    rintro s _ rfl
    exact .inl rfl
  failed := by
    rintro s _ rfl
    exact ⟨rfl, rfl⟩
  ignores_rest h _ := h

namespace Rule

variable {d : Nat} {g : Level TokenStream} {g' : Level Session} {s : TokenStream}

/-- Below the limit, a level is taken. -/
theorem run_enter (hd : d < maxNesting) : enter.run ⟨s, d⟩ = .done () ⟨s, d + 1⟩ :=
  if_neg (Nat.not_le_of_lt hd)

/-- At the limit, nothing is read and no level is taken. -/
theorem run_enter_limit (hd : maxNesting ≤ d) :
    enter.run ⟨s, d⟩ = .failed { error := ⟨.grammar (.tooDeep maxNesting), s.next.span⟩ } ⟨s, d⟩ :=
  if_pos hd

/-- What starts by taking a level fails at the limit, like a rule that has no levels left. -/
theorem inStep_enter_bind {α : Type} {R : α → α → Prop} {rule : Unit → Rule Session α}
    (hd : maxNesting ≤ d) :
    (tooDeep : Rule TokenStream α).InStep (.counted d) R (enter >>= rule) := by
  constructor
  rintro s _ rfl
  rw [run_bind, run_enter_limit hd]
  exact .failed ⟨rfl, rfl⟩

/-- An expression takes a level and gives it back, also if it fails. -/
theorem inStep_countedExpr (hd : d < maxNesting) (hg : g.InStep (.counted (d + 1)) g')
    (precedence : Precedence) :
    (expression g precedence).InStep (.counted d) (Via (Comparison.counted d).expr)
      (countedExpr g' precedence) := by
  constructor
  rintro s _ rfl
  have hinner := (inStep_expression hg precedence).run (s := s) rfl
  rw [countedExpr, run_bind, run_enter hd, Outcome.andThen_done]
  unfold thenLeave
  dsimp only
  generalize (expression g precedence).run s = o at hinner ⊢
  generalize (expression g' precedence).run ⟨s, d + 1⟩ = o' at hinner ⊢
  cases hinner with
  | ignored hignored => exact hignored.elim
  | done hvalue hrest =>
    subst hrest
    exact .done hvalue rfl
  | @failed error count count' rest rest' hfailures =>
    -- The level of the expression itself is given back, those of open operators inside it are not.
    obtain ⟨rfl, rfl⟩ := hfailures
    refine .failed ⟨?_, rfl⟩
    show Session.mk rest (d + 1 + count - 1) = ⟨rest, d + count⟩
    rw [Nat.add_right_comm, Nat.add_sub_cancel]

/-- An operand takes a level and gives it back, unless it fails. -/
theorem inStep_countedOperand (hd : d < maxNesting) (hg : g.InStep (.counted (d + 1)) g') :
    (unaryOperand g).countUnary.InStep (.counted d) (Via (Comparison.counted d).expr)
      (countedOperand g') := by
  constructor
  rintro s _ rfl
  have hinner := (inStep_unaryOperand hg).run (s := s) rfl
  rw [countedOperand, run_bind, run_enter hd, Outcome.andThen_done, run_bind]
  unfold countUnary
  dsimp only
  generalize (unaryOperand g).run s = o at hinner ⊢
  generalize (unaryOperand g').run ⟨s, d + 1⟩ = o' at hinner ⊢
  cases hinner with
  | ignored hignored => exact hignored.elim
  | done hvalue hrest =>
    subst hrest
    exact .done hvalue rfl
  | @failed error count count' rest rest' hfailures =>
    -- The session is left as it is, so the level of this operand is the one more that is counted.
    obtain ⟨rfl, rfl⟩ := hfailures
    refine .failed ⟨?_, rfl⟩
    rw [Nat.add_assoc, Nat.add_comm 1]

end Rule

/-- Where `d` levels are in use, the rules of a session are in step with those for the levels that
    are left, however often they are unrolled beyond these. -/
theorem Level.inStep_counting {d m : Nat} (hm : maxNesting - d < m) :
    (upTo (maxNesting - d)).InStep (.counted d) (counting m) := by
  obtain ⟨m, rfl⟩ : ∃ k, m = k + 1 := ⟨m - 1, by omega⟩
  -- By induction on the levels that are left; one level further down, one more is in use.
  induction hn : maxNesting - d generalizing d m with
  | zero =>
    have hlimit : maxNesting ≤ d := Nat.le_of_sub_eq_zero hn
    exact ⟨fun _ => Rule.inStep_enter_bind hlimit, Rule.inStep_enter_bind hlimit⟩
  | succ n ih =>
    have hd : d < maxNesting := by omega
    obtain ⟨k, rfl⟩ : ∃ k, m = k + 1 := ⟨m - 1, by omega⟩
    have hbelow : (upTo n).InStep (.counted (d + 1)) (counting (k + 1)) :=
      ih k (by omega) (by omega)
    exact ⟨Rule.inStep_countedExpr hd hbelow, Rule.inStep_countedOperand hd hbelow⟩

/-! ## Outcomes -/

namespace Outcome

variable {α : Type}

/-- The number of unary operators whose operand was being read when reading failed. -/
def openUnary : Outcome TokenStream α → Nat
  | done _ _ => 0
  | failed failure _ => failure.openUnary

/-- The outcome of a session that starts with `d` levels in use. -/
def atDepth (d : Nat) : Outcome TokenStream α → Outcome Session α
  | done value rest => .done value ⟨rest, d⟩
  | failed failure rest => .failed { error := failure.error } ⟨rest, d + failure.openUnary⟩

/-- The value or the error does not depend on the levels in use. -/
theorem result_atDepth (o : Outcome TokenStream α) (d : Nat) : (o.atDepth d).result = o.result := by
  cases o with
  | done value rest => rfl
  | failed failure rest => rfl

/-- The session is where the reading stopped, and open unary operators have kept their levels. -/
theorem rest_atDepth (o : Outcome TokenStream α) (d : Nat) :
    (o.atDepth d).rest = ⟨o.rest, d + o.openUnary⟩ := by
  cases o with
  | done value rest => rfl
  | failed failure rest => rfl

/-- A result that is a value is that of an outcome that is done. -/
theorem eq_done_of_result {S : Type} {o : Outcome S α} {value : α} (h : o.result = .ok value) :
    o = .done value o.rest := by
  cases o with
  | done value' rest =>
    cases h
    rfl
  | failed failure rest => cases h

/-- The levels in use are those from before, if a value was read. -/
theorem depth_of_atDepth_eq_done {o : Outcome TokenStream α} {d : Nat} {value : α} {rest : Session}
    (h : o.atDepth d = .done value rest) : rest.depth = d := by
  cases o with
  | done value' rest' =>
    obtain ⟨-, rfl⟩ := Outcome.done.inj h
    rfl
  | failed failure rest' => cases h

/-- The outcome in a session is known from the one on a stream. -/
theorem Matches.eq_atDepth {o : Outcome TokenStream Expr} {o' : Outcome Session Expr} {d : Nat}
    (h : o.Matches (.counted d) (Via (Comparison.counted d).expr) o') : o' = o.atDepth d := by
  cases h with
  | ignored hignored => exact hignored.elim
  | @done value value' rest rest' hvalue hrest =>
    subst hrest
    have hsame : value' = value := hvalue.trans (Expr.mapSpan_id value)
    rw [hsame]
    rfl
  | failed hfailures =>
    obtain ⟨rfl, rfl⟩ := hfailures
    rfl

end Outcome

/-- An expression of a session is what the levels that are left read, and the count of the session
    says nothing else. -/
theorem Level.run_counting_expr {d m : Nat} (hm : maxNesting - d < m) (precedence : Precedence)
    (s : TokenStream) :
    ((counting m).expr precedence).run ⟨s, d⟩ =
      (((upTo (maxNesting - d)).expr precedence).run s).atDepth d :=
  (((inStep_counting hm).expr precedence).run rfl).eq_atDepth

/-- The same for whole programs. -/
theorem Rule.run_program_counting {d m : Nat} (hm : maxNesting - d < m) (s : TokenStream) :
    (program (.counting m)).run ⟨s, d⟩ = ((program (.upTo (maxNesting - d))).run s).atDepth d :=
  ((inStep_program (Level.inStep_counting hm)).run rfl).eq_atDepth

/-- Whatever expression is read to its end, as many levels are in use behind it as in front of
    it. -/
theorem Level.depth_of_run_counting {m : Nat} {s rest : Session} (hm : maxNesting - s.depth < m)
    {precedence : Precedence} {e : Expr} (h : ((counting m).expr precedence).run s = .done e rest) :
    rest.depth = s.depth := by
  -- What is read is the same as on the levels that are left, and that outcome is put at this depth.
  rw [run_counting_expr hm precedence s.stream] at h
  exact Outcome.depth_of_atDepth_eq_done h

/-- A program gives back every level that its expression has taken: the end behind the expression is
    only looked at. -/
theorem Rule.depth_of_run_program {m : Nat} {s rest : Session} (hm : maxNesting - s.depth < m)
    {root : Expr} (h : (program (.counting m)).run s = .done root rest) : rest.depth = s.depth := by
  rw [program, run_bind] at h
  cases hroot : (Level.counting m).full.run s with
  | failed failure mid =>
    rw [hroot] at h
    cases h
  | done e mid =>
    have hdepth : mid.depth = s.depth := Level.depth_of_run_counting hm hroot
    rw [hroot, Outcome.andThen_done, run_bind] at h
    by_cases hend : (TokenSource.stream mid).next.kind = .endOfFile
    · obtain ⟨-, rfl⟩ : e = root ∧ mid = rest := by simpa [peek, hend] using h
      exact hdepth
    · -- A token is left over, which is a failure.
      simp [peek, hend, fail] at h

/-! ## Sessions -/

/-- The outcome of reading a program from the start of a list of tokens. -/
def programOutcome (tokens : List Token) : Outcome TokenStream Expr :=
  (Rule.program (.upTo maxNesting)).run (.ofTokens tokens)

namespace Session

/-- The outcome of reading the next program of a session off its stream, on the levels that are
    left. -/
def outcome (s : Session) : Outcome TokenStream Expr :=
  (Rule.program (.upTo (maxNesting - s.depth))).run s.stream

/-- The session after reading `n` programs. -/
def after (s : Session) : Nat → Session
  | 0 => s
  | n + 1 => (s.after n).program.2

/-- Reading one program is reading the next one. -/
theorem after_one (s : Session) : s.after 1 = s.program.2 := rfl

/-- A program of a session by its outcome. -/
theorem program_eq (s : Session) :
    s.program = (s.outcome.result, ⟨s.outcome.rest, s.depth + s.outcome.openUnary⟩) := by
  -- A session is unrolled more often than it has levels, so the count decides where reading stops.
  have hrun : (Rule.program (.counting (maxNesting + 1))).run s = s.outcome.atDepth s.depth :=
    Rule.run_program_counting (Nat.lt_succ_of_le (Nat.sub_le _ _)) s.stream
  rw [program, hrun, Outcome.result_atDepth, Outcome.rest_atDepth]

/-- A program leaves the levels of open unary operators in use, and no others. -/
theorem depth_program (s : Session) : s.program.2.depth = s.depth + s.outcome.openUnary := by
  rw [program_eq]

/-- The next program is read from where the last one stopped. -/
theorem stream_program (s : Session) : s.program.2.stream = s.outcome.rest := by
  rw [program_eq]

/-- The tree or the error of a program. -/
theorem result_program (s : Session) : s.program.1 = s.outcome.result := by
  rw [program_eq]

/-- Reading a program takes tokens off the front. -/
theorem isRestOf_program (s : Session) : s.program.2.stream.IsRestOf s.stream := by
  rw [stream_program]
  exact Rule.rest_run _ _

/-- Reading any number of programs takes tokens off the front. -/
theorem isRestOf_after (s : Session) (n : Nat) : (s.after n).stream.IsRestOf s.stream := by
  induction n with
  | zero => exact .refl s.stream
  | succ n ih => exact (isRestOf_program _).trans ih

/-- A program that is accepted leaves as many levels in use as there were. -/
theorem depth_program_of_ok {s : Session} {root : Expr} (h : s.program.1 = .ok root) :
    s.program.2.depth = s.depth := by
  have hdone : (Rule.program (.counting (maxNesting + 1))).run s = .done root s.program.2 :=
    Outcome.eq_done_of_result h
  exact Rule.depth_of_run_program (Nat.lt_succ_of_le (Nat.sub_le _ _)) hdone

end Session

/-! ## Lists of tokens -/

/-- The first program of a list of tokens is read with all levels left. -/
theorem program_ofTokens (tokens : List Token) :
    (Session.ofTokens tokens).program.1 = (programOutcome tokens).result ∧
      (Session.ofTokens tokens).program.2.stream = (programOutcome tokens).rest :=
  ⟨Session.result_program _, Session.stream_program _⟩

/-- A rejected list of tokens is one that the outermost level fails on, with the same error. -/
theorem exists_failed_of_parse {tokens : List Token} {e : Error} (h : parse tokens = .error e) :
    ∃ openUnary rest, programOutcome tokens = .failed ⟨e, openUnary⟩ rest := by
  rw [parse, (program_ofTokens tokens).1] at h
  cases hrun : programOutcome tokens with
  | done root rest =>
    rw [hrun] at h
    cases h
  | failed failure rest =>
    rw [hrun] at h
    cases h
    exact ⟨failure.openUnary, rest, rfl⟩

/-- A list of tokens is a program if the outermost level reads everything in front of the end
    mark. -/
theorem parse_eq_ok_iff {tokens : List Token} {root : Expr} :
    parse tokens = .ok root ↔
      (Level.upTo maxNesting).full.Reads (.ofTokens tokens) (tokensAhead tokens) root [] := by
  rw [parse, (program_ofTokens tokens).1]
  constructor
  · intro h
    cases hrun : programOutcome tokens with
    | failed failure rest =>
      rw [hrun] at h
      cases h
    | done out rest =>
      rw [hrun] at h
      cases h
      -- The program ends at an end mark, and the tokens ahead hold none.
      have hread : (Rule.program (.upTo maxNesting)).Reads (.ofTokens tokens) (tokensAhead tokens)
          root rest.ahead := Rule.Reads.of_run hrun
      obtain ⟨hroot, hend⟩ := Rule.reads_program.mp hread
      have hnil := eq_nil_of_next_kind hroot.suffix hend
      rwa [hnil] at hroot
  · -- Behind the tokens ahead stands the end mark, which a program asks for.
    intro h
    have hprogram : programOutcome tokens = .done root ⟨[], (EndMark.ofTokens tokens).1⟩ :=
      Rule.reads_program.mpr ⟨h, EndMark.kind_val _⟩
    rw [hprogram]
    rfl

end JsonnetSyntax
