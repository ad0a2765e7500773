import JsonnetSyntax.Grammar.Rule

/-!
# What a successful reading does

`Rule.Reads` says that a rule, run on the tokens `ts` in front of an end mark, is done with a value
and leaves the tokens `ts'`.  For every rule of the grammar a `reads_` lemma says exactly when that
is so, in terms of the tokens taken and of the rules it is made of; all properties of accepted
programs are derived from these lemmas.  This module has the lemmas for the primitive rules, for
sequences and for the loop.

## Key results

- `Rule.reads_bind`: a sequence reads what its parts read one after the other
- `Rule.reads_whileNext`: one round of the loop
- `Rule.Reads.whileNext_induction`: what every round of a loop keeps holds when the loop ends
-/

namespace JsonnetSyntax

/-- A token that marks the end of a file. -/
abbrev EndMark := { t : Token // t.kind = .endOfFile }

namespace EndMark

/-- The first of the tokens `ts`, or the end mark behind them. -/
def next (eof : EndMark) : List Token → Token
  | [] => eof.1
  | t :: _ => t

/-- Behind the tokens stands the end mark. -/
@[simp] theorem next_nil (eof : EndMark) : eof.next [] = eof.1 := rfl

/-- The first token is the next one. -/
@[simp] theorem next_cons (eof : EndMark) (t : Token) (ts : List Token) : eof.next (t :: ts) = t :=
  rfl

/-- An end mark has the kind of the end of a file. -/
@[simp] theorem kind_val (eof : EndMark) : eof.1.kind = .endOfFile := eof.2

/-- The end mark is no operator. -/
@[simp] theorem isOperator_val (eof : EndMark) (symbol : String) :
    eof.1.isOperator symbol = false := by
  simp [Token.isOperator]

end EndMark

/-- Tokens that start with `t` are known once `t` and the tokens behind it are. -/
theorem exists_cons_eq {t : Token} {ts : List Token} {P : Token → List Token → Prop} :
    (∃ t' rest, t :: ts = t' :: rest ∧ P t' rest) ↔ P t ts := by
  constructor
  · intro h
    obtain ⟨t', rest, heq, h⟩ := h
    cases heq
    exact h
  · intro h
    exact ⟨t, ts, rfl, h⟩

namespace Rule

variable {α β σ : Type} {eof : EndMark} {ts ts' : List Token}

/-- Run on the tokens `ts` in front of `eof`, the rule is done with `value` and leaves `ts'`. -/
def Reads (rule : Rule TokenStream α) (eof : EndMark) (ts : List Token) (value : α)
    (ts' : List Token) : Prop :=
  rule.run ⟨ts, eof.1⟩ = .done value ⟨ts', eof.1⟩

/-- A rule that is done leaves tokens in front of the same end mark. -/
theorem Reads.of_run {rule : Rule TokenStream α} {value : α} {s : TokenStream}
    (h : rule.run ⟨ts, eof.1⟩ = .done value s) : rule.Reads eof ts value s.ahead := by
  have hrest := (rule.rest_run ⟨ts, eof.1⟩).eof
  rw [h] at hrest
  obtain ⟨ahead, last⟩ := s
  cases hrest
  exact h

/-- What a rule leaves is an end of the tokens it was run on. -/
theorem Reads.suffix {rule : Rule TokenStream α} {value : α} (h : rule.Reads eof ts value ts') :
    ts' <:+ ts := by
  have hrest := (rule.rest_run ⟨ts, eof.1⟩).ahead
  rw [show rule.run ⟨ts, eof.1⟩ = _ from h] at hrest
  exact hrest

/-- Every value that the rule reads has the property `P`. -/
def Yields (rule : Rule TokenStream α) (P : α → Prop) : Prop :=
  ∀ {eof : EndMark} {ts ts' : List Token} {value : α}, rule.Reads eof ts value ts' → P value

/-! ## Primitive rules and sequences -/

/-- A value that is given is read from no tokens. -/
@[simp] theorem reads_pure {value out : α} :
    (pure value : Rule TokenStream α).Reads eof ts out ts' ↔ out = value ∧ ts' = ts := by
  simp [Reads, eq_comm]

/-- Peeking gives the next token and takes nothing. -/
theorem reads_peek {t : Token} : peek.Reads eof ts t ts' ↔ t = eof.next ts ∧ ts' = ts := by
  cases ts <;> simp [Reads, TokenStream.next, eq_comm]

/-- Popping takes the first token. -/
theorem reads_pop_cons {t found : Token} :
    pop.Reads eof (t :: ts) found ts' ↔ found = t ∧ ts' = ts := by
  simp [Reads, TokenStream.next, TokenStream.skip, eq_comm]

/-- Popping gives the next token; only the end mark stays. -/
theorem reads_pop {t : Token} :
    pop.Reads eof ts t ts' ↔ ts = t :: ts' ∨ t = eof.1 ∧ ts = [] ∧ ts' = [] := by
  cases ts with
  | nil => simp [Reads, TokenStream.next, TokenStream.skip, eq_comm]
  | cons first rest =>
    rw [reads_pop_cons]
    simp only [List.cons.injEq, reduceCtorEq, false_and, and_false, or_false]
    exact and_congr eq_comm eq_comm

/-- A rule that fails reads nothing. -/
@[simp] theorem reads_fail {fault : GrammarFault} {span : Span} {out : α} :
    ¬ (fail fault span : Rule TokenStream α).Reads eof ts out ts' := by
  simp [Reads]

/-- A rule that is delayed reads what it reads at once. -/
@[simp] theorem reads_delay {rule : Unit → Rule TokenStream α} {out : α} :
    (delay rule).Reads eof ts out ts' ↔ (rule ()).Reads eof ts out ts' := Iff.rfl

/-- Counting open operators changes failures only. -/
@[simp] theorem reads_countUnary {rule : Rule TokenStream α} {out : α} :
    rule.countUnary.Reads eof ts out ts' ↔ rule.Reads eof ts out ts' := by
  unfold Reads countUnary
  -- The rule is run all the same; only the failure is another one.
  cases h : rule.run ⟨ts, eof.1⟩ <;> simp [h]

/-- A sequence of two rules reads what the first reads and then what the second reads.  The lemmas
    for sequences that start with a primitive rule come before this one in simplification. -/
@[simp low] theorem reads_bind {rule : Rule TokenStream α} {next : α → Rule TokenStream β}
    {out : β} :
    (rule >>= next).Reads eof ts out ts' ↔
      ∃ value mid, rule.Reads eof ts value mid ∧ (next value).Reads eof mid out ts' := by
  constructor
  · intro h
    unfold Reads at h
    rw [run_bind] at h
    cases hrule : rule.run ⟨ts, eof.1⟩ with
    -- A rule that fails ends the sequence.
    | failed failure rest => simp [hrule] at h
    | done value rest =>
      have hfirst := Reads.of_run hrule
      rw [show rule.run ⟨ts, eof.1⟩ = _ from hfirst, Outcome.andThen_done] at h
      exact ⟨value, rest.ahead, hfirst, h⟩
  · intro h
    obtain ⟨value, mid, hfirst, hnext⟩ := h
    unfold Reads at hfirst hnext ⊢
    rw [run_bind, hfirst, Outcome.andThen_done, hnext]

/-- A value that is changed behind a rule. -/
@[simp] theorem reads_map {rule : Rule TokenStream α} {f : α → β} {out : β} :
    (f <$> rule).Reads eof ts out ts' ↔ ∃ value, rule.Reads eof ts value ts' ∧ out = f value := by
  rw [map_eq_pure_bind, reads_bind]
  constructor
  · intro h
    obtain ⟨value, mid, hvalue, hout⟩ := h
    obtain ⟨rfl, rfl⟩ := reads_pure.mp hout
    exact ⟨value, hvalue, rfl⟩
  · intro h
    obtain ⟨value, hvalue, rfl⟩ := h
    exact ⟨value, ts', hvalue, reads_pure.mpr ⟨rfl, rfl⟩⟩

/-- A choice reads what the chosen rule reads. -/
@[simp] theorem reads_ite {c : Prop} [Decidable c] {first second : Rule TokenStream α} {out : α} :
    (if c then first else second).Reads eof ts out ts' ↔
      c ∧ first.Reads eof ts out ts' ∨ ¬ c ∧ second.Reads eof ts out ts' := by
  by_cases h : c <;> simp [h]

/-! ## Sequences that start with a token -/

/-- What follows a look at the next token is read from the same tokens. -/
@[simp] theorem reads_peek_bind {next : Token → Rule TokenStream α} {out : α} :
    (peek >>= next).Reads eof ts out ts' ↔ (next (eof.next ts)).Reads eof ts out ts' := by
  simp [reads_bind, reads_peek, and_assoc]

/-- What follows the first token is read behind it. -/
@[simp] theorem reads_pop_cons_bind {t : Token} {next : Token → Rule TokenStream α} {out : α} :
    (pop >>= next).Reads eof (t :: ts) out ts' ↔ (next t).Reads eof ts out ts' := by
  simp [reads_bind, reads_pop_cons, and_assoc]

/-- A token is taken off the front if it passes a check that no end mark passes. -/
theorem reads_pop_if {P : Token → Prop} [DecidablePred P] {next : Token → Rule TokenStream α}
    {fault : Token → GrammarFault} {span : Token → Span} {out : α} (hP : ¬ P eof.1) :
    (pop >>= fun found => if P found then next found else fail (fault found) (span found)).Reads
        eof ts out ts' ↔
      ∃ t rest, ts = t :: rest ∧ P t ∧ (next t).Reads eof rest out ts' := by
  constructor
  · intro h
    obtain ⟨found, mid, hpop, h⟩ := reads_bind.mp h
    obtain ⟨hfound, hnext⟩ | ⟨_, hfail⟩ := reads_ite.mp h
    · -- The token that passed the check is not the end mark, so it was taken off the front.
      obtain hcons | ⟨rfl, -, -⟩ := reads_pop.mp hpop
      · exact ⟨found, mid, hcons, hfound, hnext⟩
      · exact absurd hfound hP
    · exact absurd hfail reads_fail
  · intro h
    obtain ⟨t, rest, rfl, ht, hnext⟩ := h
    exact reads_pop_cons_bind.mpr (reads_ite.mpr (.inl ⟨ht, hnext⟩))

/-- An expected token is taken off the front. -/
@[simp] theorem reads_expect {kind : TokenKind} (hkind : kind ≠ .endOfFile) {t : Token} :
    (expect kind).Reads eof ts t ts' ↔ ts = t :: ts' ∧ t.kind = kind := by
  -- The end mark is not the expected token.
  have hend : ¬ eof.1.kind = kind := by simpa using hkind.symm
  rw [expect, reads_pop_if (P := fun found => found.kind = kind) hend]
  constructor
  · intro h
    obtain ⟨found, rest, rfl, hfound, hout⟩ := h
    obtain ⟨rfl, rfl⟩ := reads_pure.mp hout
    exact ⟨rfl, hfound⟩
  · intro h
    obtain ⟨rfl, ht⟩ := h
    exact ⟨t, ts', rfl, ht, reads_pure.mpr ⟨rfl, rfl⟩⟩

/-- An expected operator is taken off the front. -/
@[simp] theorem reads_expectOperator {symbol : String} {t : Token} :
    (expectOperator symbol).Reads eof ts t ts' ↔ ts = t :: ts' ∧ t.isOperator symbol = true := by
  have hend : ¬ eof.1.isOperator symbol = true := by simp
  rw [expectOperator, reads_pop_if (P := fun found => found.isOperator symbol = true) hend]
  constructor
  · intro h
    obtain ⟨found, rest, rfl, hfound, hout⟩ := h
    obtain ⟨rfl, rfl⟩ := reads_pure.mp hout
    exact ⟨rfl, hfound⟩
  · intro h
    obtain ⟨rfl, ht⟩ := h
    exact ⟨t, ts', rfl, ht, reads_pure.mpr ⟨rfl, rfl⟩⟩

/-- What follows a look at the kind of the next token is read from the same tokens. -/
@[simp] theorem reads_nextIs_bind {kind : TokenKind} {next : Bool → Rule TokenStream α} {out : α} :
    (nextIs kind >>= next).Reads eof ts out ts' ↔
      (next ((eof.next ts).kind == kind)).Reads eof ts out ts' := by
  simp only [nextIs, bind_assoc, pure_bind, reads_peek_bind]

/-- What follows a look for an operator is read from the same tokens. -/
@[simp] theorem reads_nextIsOperator_bind {symbol : String} {next : Bool → Rule TokenStream α}
    {out : α} :
    (nextIsOperator symbol >>= next).Reads eof ts out ts' ↔
      (next ((eof.next ts).isOperator symbol)).Reads eof ts out ts' := by
  simp only [nextIsOperator, bind_assoc, pure_bind, reads_peek_bind]

/-- An accepted token is taken off the front; any other token stays. -/
@[simp] theorem reads_accept_bind {kind : TokenKind} (hkind : kind ≠ .endOfFile)
    {next : Bool → Rule TokenStream α} {out : α} :
    (accept kind >>= next).Reads eof ts out ts' ↔
      (∃ t rest, ts = t :: rest ∧ t.kind = kind ∧ (next true).Reads eof rest out ts') ∨
        (eof.next ts).kind ≠ kind ∧ (next false).Reads eof ts out ts' := by
  cases ts with
  | nil => simp [accept, hkind.symm]
  | cons t rest =>
    by_cases h : t.kind = kind
    · simp [accept, h, and_assoc]
    · simp [accept, h, and_assoc]

/-- An accepted token is taken off the front; any other token stays. -/
theorem reads_accept {kind : TokenKind} (hkind : kind ≠ .endOfFile) {out : Bool} :
    (accept kind).Reads eof ts out ts' ↔
      (∃ t, ts = t :: ts' ∧ t.kind = kind ∧ out = true) ∨
        (eof.next ts).kind ≠ kind ∧ ts' = ts ∧ out = false := by
  rw [← bind_pure (accept kind), reads_accept_bind hkind]
  simp only [reads_pure]
  constructor
  · intro h
    obtain ⟨t, rest, rfl, ht, rfl, rfl⟩ | ⟨ht, rfl, rfl⟩ := h
    · exact .inl ⟨t, rfl, ht, rfl⟩
    · exact .inr ⟨ht, rfl, rfl⟩
  · intro h
    obtain ⟨t, rfl, ht, rfl⟩ | ⟨ht, rfl, rfl⟩ := h
    · exact .inl ⟨t, ts', rfl, ht, rfl, rfl⟩
    · exact .inr ⟨ht, rfl, rfl⟩

/-- A token that was seen to pass a check is the one that is popped. -/
theorem reads_pop_of_next {P : Token → Prop} (hP : ¬ P eof.1) {next : Token → Rule TokenStream α}
    {out : α} :
    (P (eof.next ts) ∧ (pop >>= next).Reads eof ts out ts') ↔
      ∃ t rest, ts = t :: rest ∧ P t ∧ (next t).Reads eof rest out ts' := by
  cases ts with
  | nil => simp [hP]
  | cons t rest =>
    rw [EndMark.next_cons, reads_pop_cons_bind, exists_cons_eq]

/-! ## The loop -/

/-- A loop ends in front of a token that it does not select, or at the end mark; otherwise it takes
    the token and goes on behind the body. -/
theorem reads_whileNext {select : Token → Option β} {body : Token → β → σ → Rule TokenStream σ}
    {state out : σ} :
    (whileNext select body state).Reads eof ts out ts' ↔
      (out = state ∧ ts' = ts ∧ ts.head?.bind select = none) ∨
        ∃ t rest choice after mid, ts = t :: rest ∧ select t = some choice ∧
          (body t choice state).Reads eof rest after mid ∧
          (whileNext select body after).Reads eof mid out ts' := by
  -- With no token left the loop is over; otherwise its selection decides.
  cases ts with
  | nil =>
    rw [Reads, run_whileNext_nil]
    simp [eq_comm]
  | cons t rest =>
    cases hselect : select t with
    | none =>
      rw [Reads, run_whileNext_stop hselect]
      simp [hselect, eq_comm]
    | some choice =>
      -- One round is the body, and then the loop from the state that the body gives.
      have hround : (whileNext select body state).Reads eof (t :: rest) out ts' ↔
          (body t choice state >>= whileNext select body).Reads eof rest out ts' := by
        rw [Reads, Reads, run_whileNext_round hselect]
      rw [hround, reads_bind]
      constructor
      · intro h
        obtain ⟨after, mid, hbody, hloop⟩ := h
        exact .inr ⟨t, rest, choice, after, mid, rfl, hselect, hbody, hloop⟩
      · intro h
        -- The same token is not selected in two ways.
        obtain ⟨-, -, hstop⟩ | ⟨t', rest', choice', after, mid, hcons, hchoice, hbody, hloop⟩ := h
        · exact absurd hstop (by simp [hselect])
        · cases hcons
          cases hselect.symm.trans hchoice
          exact ⟨after, mid, hbody, hloop⟩

/-- What holds when a loop starts, and what every round keeps, holds when the loop ends. -/
theorem Reads.whileNext_induction {select : Token → Option β}
    {body : Token → β → σ → Rule TokenStream σ} {state out : σ}
    (h : (whileNext select body state).Reads eof ts out ts')
    (I : σ → List Token → Prop) (hstart : I state ts)
    (hround : ∀ {t rest choice before after mid}, select t = some choice →
      (body t choice before).Reads eof rest after mid → I before (t :: rest) → I after mid) :
    I out ts' ∧ ts'.head?.bind select = none := by
  -- Every round takes a token, so the tokens that are left get fewer.
  induction hn : ts.length using Nat.strongRecOn generalizing state ts with
  | ind n ih =>
    obtain ⟨rfl, rfl, hstop⟩ | ⟨t, rest, choice, after, mid, rfl, hselect, hbody, hloop⟩ :=
      reads_whileNext.mp h
    · exact ⟨hstart, hstop⟩
    · have hlength := hbody.suffix.length_le
      have hshorter : mid.length < n := by
        rw [← hn, List.length_cons]
        omega
      exact ih mid.length hshorter hloop (hround hselect hbody hstart) rfl

end Rule

end JsonnetSyntax
