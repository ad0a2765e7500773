import JsonnetSyntax.Proofs.Grammar.Counting

/-!
# The limit on nesting

How deep expressions may be nested is a cut-off and nothing more: a reading that is not stopped by
it does what every reading with more levels left does.  So the levels that are in use when a program
starts can turn a result into the error that nesting is too deep, but never into another result.

## Key results

- `Level.inStep_upTo_of_le`: more levels do the same as fewer, unless these are used up
- `program_of_depth_le`: programs at two depths
-/

namespace JsonnetSyntax

/-! ## Errors about nesting -/

/-- The error says that expressions are nested too deep. -/
def Error.IsTooDeep (e : Error) : Prop := e.fault = .grammar (.tooDeep maxNesting)

/-- The message of such an error. -/
theorem Error.IsTooDeep.message_eq {e : Error} (h : e.IsTooDeep) :
    e.fault.message = "Exceeded maximum nesting depth of 2048" := by
  have hfault : e.fault = .grammar (.tooDeep maxNesting) := h
  rw [hfault]
  decide

/-! ## Levels -/

/-- Two runs on the same stream.  What the first run does is left aside if nesting is too deep for
    it. -/
def Comparison.cutOff : Comparison TokenStream where
  move := id
  Streams := Eq
  Ignores error _ := ∃ e, error = some e ∧ e.IsTooDeep
  move_between := Span.id_between
  next := by
    rintro s _ rfl
    exact .refl s.next
  ended := by
    rintro s _ rfl
    exact Iff.rfl
  skip := by
    rintro s _ rfl
    exact .inl rfl
  failed h := ⟨rfl, h⟩
  ignores_rest := by
    -- Only errors are left aside, and nothing is read behind an error.
    rintro s later error ⟨e, he, -⟩ -
    cases he

/-- A rule that is cut off at once matches any rule. -/
theorem Rule.inStep_cutOff_tooDeep {α : Type} {R : α → α → Prop} {rule : Rule TokenStream α} :
    (tooDeep : Rule TokenStream α).InStep .cutOff R rule :=
  ⟨fun _ => .ignored ⟨_, rfl, rfl⟩⟩

/-- With more levels, the same is read as with fewer, unless these are used up. -/
theorem Level.inStep_upTo_of_le {n m : Nat} (h : n ≤ m) : (upTo n).InStep .cutOff (upTo m) := by
  -- By induction on the fewer levels: with none left, the first run is cut off.
  induction n generalizing m with
  | zero => exact ⟨fun _ => Rule.inStep_cutOff_tooDeep, Rule.inStep_cutOff_tooDeep⟩
  | succ n ih =>
    cases m with
    | zero => omega
    | succ m => exact (ih (by omega)).deepen Iff.rfl

/-- Outcomes that match in spite of a cut-off are equal, unless the first one is cut off. -/
theorem Outcome.Matches.eq_of_cutOff {o o' : Outcome TokenStream Expr}
    (h : o.Matches .cutOff (Via Comparison.cutOff.expr) o')
    (hdeep : ∀ e, o.error? = some e → ¬ e.IsTooDeep) : o' = o := by
  cases h with
  | ignored h =>
    obtain ⟨e, he, htooDeep⟩ := h
    exact absurd htooDeep (hdeep e he)
  | done hvalue hrest =>
    -- Nothing moves in this comparison, so the trees are the same.
    cases hrest
    rw [hvalue, Comparison.expr]
    exact congrArg (Outcome.done · _) (Expr.mapSpan_id _)
  | failed hfailures =>
    obtain ⟨rfl, rfl⟩ := hfailures
    rfl

/-! ## Sessions -/

/-- The error of an outcome is the one that its result reports. -/
theorem Outcome.error?_eq_some_iff {o : Outcome TokenStream Expr} {e : Error} :
    o.error? = some e ↔ o.result = .error e := by
  cases o with
  | done root rest => simp [error?, result]
  | failed failure rest => simp [error?, result]

/-- With fewer levels in use the outcome is the same, unless nesting is too deep with more. -/
theorem Session.outcome_of_depth_le {stream : TokenStream} {d d' : Nat} (hd : d ≤ d')
    (hdeep : ∀ e, (Session.outcome ⟨stream, d'⟩).result = .error e → ¬ e.IsTooDeep) :
    Session.outcome ⟨stream, d⟩ = Session.outcome ⟨stream, d'⟩ := by
  have hlevels := Level.inStep_upTo_of_le (Nat.sub_le_sub_left hd maxNesting)
  have hmatches := (Rule.inStep_program hlevels).run (s := stream) rfl
  exact hmatches.eq_of_cutOff fun e he => hdeep e (Outcome.error?_eq_some_iff.mp he)

/-- The levels in use when a program starts matter only if nesting gets too deep: otherwise the
    result is the same with fewer levels in use, reading stops at the same place and the levels in
    use have grown by the same number.  After a program that is accepted, as many levels are in use
    as before. -/
theorem program_of_depth_le (stream : TokenStream) {d d' : Nat} (hd : d ≤ d') :
    ((∀ e, (Session.program ⟨stream, d'⟩).1 = .error e →
        e.fault.message ≠ "Exceeded maximum nesting depth of 2048") →
      (Session.program ⟨stream, d⟩).1 = (Session.program ⟨stream, d'⟩).1 ∧
        (Session.program ⟨stream, d⟩).2.stream = (Session.program ⟨stream, d'⟩).2.stream ∧
        (Session.program ⟨stream, d⟩).2.depth + d' = (Session.program ⟨stream, d'⟩).2.depth + d) ∧
    ∀ depth root, (Session.program ⟨stream, depth⟩).1 = .ok root →
      (Session.program ⟨stream, depth⟩).2.depth = depth := by
  constructor
  · -- A run that is not cut off has the outcome of the run with more levels left.
    intro hmessage
    simp only [Session.program_eq] at hmessage ⊢
    have hsame :=
      Session.outcome_of_depth_le hd fun e he htooDeep => hmessage e he htooDeep.message_eq
    rw [hsame]
    refine ⟨rfl, rfl, ?_⟩
    omega
  · intro depth root hroot
    exact Session.depth_program_of_ok hroot

/-- The tokens `- error )`: the parenthesis is met on the third level of nesting, as an operand. -/
def openNegation : TokenStream where
  ahead :=
    [{ kind := .operator, data := "-", span := .unset "sample" },
     { kind := .keyword .error, data := "error", span := .unset "sample" },
     { kind := .punct .parenR, data := ")", span := .unset "sample" }]
  eof := { kind := .endOfFile, data := "", span := .unset "sample" }

/-- The error is found with three levels left, and one level is not given back; with two levels
    left, nesting is too deep. -/
theorem program_of_depth_le_sample :
    (∀ e, (Session.program ⟨openNegation, 2045⟩).1 = .error e →
        e.fault.message ≠ "Exceeded maximum nesting depth of 2048") ∧
      (Session.program ⟨openNegation, 0⟩).1 = (Session.program ⟨openNegation, 2045⟩).1 ∧
      (Session.program ⟨openNegation, 0⟩).2.stream =
        (Session.program ⟨openNegation, 2045⟩).2.stream ∧
      (Session.program ⟨openNegation, 0⟩).2.depth = 1 ∧
      (Session.program ⟨openNegation, 2046⟩).1 =
        .error ⟨.grammar (.tooDeep maxNesting), .unset "sample"⟩ := by
  have hfault : (Session.program ⟨openNegation, 2045⟩).1 =
      .error ⟨.grammar (.noOperand ⟨.punct .parenR, ")"⟩), .unset "sample"⟩ := rfl
  have hmessage : ∀ e, (Session.program ⟨openNegation, 2045⟩).1 = .error e →
      e.fault.message ≠ "Exceeded maximum nesting depth of 2048" := by
    intro e he
    rw [hfault] at he
    cases he
    decide +kernel
  have hdepth : (Session.program ⟨openNegation, 2045⟩).2.depth = 2046 := by decide +kernel
  obtain ⟨hresult, hstream, hgrown⟩ :=
    (program_of_depth_le openNegation (Nat.zero_le 2045)).1 hmessage
  refine ⟨hmessage, hresult, hstream, ?_, rfl⟩
  rw [hdepth] at hgrown
  generalize (Session.program ⟨openNegation, 0⟩).2.depth = depth at hgrown ⊢
  omega

end JsonnetSyntax
