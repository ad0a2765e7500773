import JsonnetSyntax.Proofs.Expr.Places

/-!
# Two runs in step

A statement about two runs of the grammar compares them rule by rule.  A `Comparison` says which
states the two runs may be at, where the spans of the first run stand in the second, and which
outcomes of the first run are left aside.  `Rule.InStep` then says of two rules that their outcomes
match wherever they are run on such states.  It is kept by all that rules are built with.

The first run is on a bare stream.  The second one may be on any state with tokens to be read, which
is how the rules that keep count of nesting are compared with those that are given a bound.

## Key results

- `Outcome.Matches.andThen`: one outcome after the other
- `Rule.InStep.bind`, `Rule.inStep_peek`, `Rule.inStep_pop`: sequences and tokens
- `Rule.InStep.whileNext`: loops
-/

namespace JsonnetSyntax

/-! ## Tokens at other places -/

/-- The token `u` is `t` at another place.  The fodder in front of a token is free, and of a text
    block only the indent that was taken off its lines has to be the same. -/
structure Token.MovedBy (move : Span → Span) (t u : Token) : Prop where
  kind : u.kind = t.kind
  data : u.data = t.data
  indent : u.block.map TextBlock.indent = t.block.map TextBlock.indent
  span : u.span = move t.span

namespace Token.MovedBy

variable {move : Span → Span} {t u : Token}

/-- What errors quote of a token does not depend on its place. -/
theorem toLexeme (h : t.MovedBy move u) : u.toLexeme = t.toLexeme := by
  rw [Lexeme.mk.injEq]
  exact ⟨h.kind, h.data⟩

/-- Whether a token is some operator does not depend on its place. -/
theorem isOperator (h : t.MovedBy move u) (symbol : String) :
    u.isOperator symbol = t.isOperator symbol := by
  rw [Token.isOperator, Token.isOperator, h.kind, h.data]

/-- A string literal keeps its text and, for a text block, the indent that was taken off. -/
theorem stringShape (h : t.MovedBy move u) (form : StringForm) :
    u.stringShape form = t.stringShape form := by
  rw [Token.stringShape, Token.stringShape, h.data, h.indent]

/-- A token that stays where it is. -/
theorem refl (t : Token) : t.MovedBy id t := ⟨rfl, rfl, rfl, rfl⟩

end Token.MovedBy

/-! ## Streams of tokens -/

/-- Tokens that end in an end mark hold one. -/
theorem exists_mark_of_getLast? {tokens : List Token}
    (hend : ∃ eof ∈ tokens.getLast?, eof.kind = .endOfFile) :
    ∃ eof ∈ tokens, eof.kind = .endOfFile := by
  obtain ⟨eof, hlast, heof⟩ := hend
  exact ⟨eof, List.mem_of_getLast? hlast, heof⟩

namespace TokenStream

variable {t : Token} {ts : List Token}

/-- Nothing is ahead of an end mark that comes first. -/
theorem ofTokens_cons_end (ht : t.kind = .endOfFile) : ofTokens (t :: ts) = ⟨[], t⟩ := by
  simp [ofTokens, ht]

/-- A token that is no end mark stands ahead of the stream of the others. -/
theorem ofTokens_cons (ht : t.kind ≠ .endOfFile) (hts : ts ≠ []) :
    ofTokens (t :: ts) = ⟨t :: (ofTokens ts).ahead, (ofTokens ts).eof⟩ := by
  -- Without any end mark, the one that is made up stands behind the last token: the same token.
  have hlast : (t :: ts).getLast? = ts.getLast? := by
    obtain ⟨u, us, rfl⟩ := List.exists_cons_of_ne_nil hts
    exact List.getLast?_cons_cons
  simp [ofTokens, missingEnd, hlast, ht]

end TokenStream

/-! ## Comparisons -/

/-- Spans that stay where they are still reach from one to the other. -/
theorem Span.id_between (first last : Span) :
    id (Span.between first last) = .between (id first) (id last) := rfl

open TokenSource (stream)

/-- How a run of the grammar on a stream is compared with one on states of a type `S`. -/
structure Comparison (S : Type) [TokenSource S] where
  /-- Where a span of the first run stands in the second. -/
  move : Span → Span
  /-- The states that the two runs may be at. -/
  Streams : TokenStream → S → Prop
  /-- The outcomes of the first run that are left aside, by their error and the rest of the
      stream. -/
  Ignores : Option Error → TokenStream → Prop
  /-- What the two runs may fail with: open unary operators and the states that they leave. -/
  Failures : Nat → TokenStream → Nat → S → Prop := fun count s count' s' =>
    count' = count ∧ Streams s s'
  move_between : ∀ first last, move (.between first last) = .between (move first) (move last)
  next : ∀ {s s'}, Streams s s' → s.next.MovedBy move (stream s').next
  ended : ∀ {s s'}, Streams s s' → (s.ahead = [] ↔ (stream s').ahead = [])
  skip : ∀ {s s'}, Streams s s' → Streams s.skip (TokenSource.skip s') ∨ Ignores none s.skip
  failed : ∀ {s s'}, Streams s s' → Failures 0 s 0 s'
  /-- What is left aside stays so, however the first run goes on. -/
  ignores_rest : ∀ {s later error}, Ignores none s → later.IsRestOf s → Ignores error later

namespace Comparison

variable {S : Type} [TokenSource S]

/-- A tree of the first run, at its places in the second. -/
abbrev expr (c : Comparison S) : Expr → Expr := Expr.mapSpan c.move

/-- The two runs fail where they may be, with the same number of open unary operators. -/
def Plain (c : Comparison S) : Prop :=
  ∀ {count s count' s'}, c.Failures count s count' s' ↔ count' = count ∧ c.Streams s s'

end Comparison

/-- The error of an outcome that failed. -/
def Outcome.error? {S α : Type} : Outcome S α → Option Error
  | done _ _ => none
  | failed failure _ => some failure.error

/-- An outcome of the second run is what the outcome of the first one calls for. -/
inductive Outcome.Matches {S α : Type} [TokenSource S] (c : Comparison S) (R : α → α → Prop) :
    Outcome TokenStream α → Outcome S α → Prop
  | ignored {o : Outcome TokenStream α} {o' : Outcome S α} (h : c.Ignores o.error? o.rest) :
    Matches c R o o'
  | done {value value' : α} {s : TokenStream} {s' : S} (hvalue : R value value')
    (hrest : c.Streams s s') : Matches c R (.done value s) (.done value' s')
  | failed {error : Error} {count count' : Nat} {s : TokenStream} {s' : S}
    (hrest : c.Failures count s count' s') :
    Matches c R (.failed ⟨error, count⟩ s) (.failed ⟨error.mapSpan c.move, count'⟩ s')

/-- Goes on after outcomes that match. -/
theorem Outcome.Matches.andThen {S α β : Type} [TokenSource S] {c : Comparison S}
    {R : α → α → Prop} {Q : β → β → Prop} {o : Outcome TokenStream α} {o' : Outcome S α}
    {next : α → TokenStream → Outcome TokenStream β} {next' : α → S → Outcome S β}
    (h : o.Matches c R o') (hrest : ∀ value s, (next value s).rest.IsRestOf s)
    (hnext : ∀ {value value' s s'}, o = .done value s → R value value' → c.Streams s s' →
      (next value s).Matches c Q (next' value' s')) :
    (o.andThen next).Matches c Q (o'.andThen next') := by
  cases h with
  | ignored hignored =>
    cases o with
    -- The second run is free from here on, whatever the first one still reads.
    | done value s => exact .ignored (c.ignores_rest hignored (hrest value s))
    | failed failure s => exact .ignored hignored
  | done hvalue hstreams => exact hnext rfl hvalue hstreams
  | failed hfailures => exact .failed hfailures

/-- Where the two runs are at states that belong together, the outcomes of the two rules match. -/
structure Rule.InStep {S α : Type} [TokenSource S] (c : Comparison S) (R : α → α → Prop)
    (rule : Rule TokenStream α) (rule' : Rule S α) : Prop where
  run : ∀ {s s'}, c.Streams s s' → (rule.run s).Matches c R (rule'.run s')

/-- The second value is the image of the first. -/
def Via {α : Type} (f : α → α) (value value' : α) : Prop := value' = f value

namespace Rule

section Combinators

variable {S α β σ : Type} [TokenSource S] {c : Comparison S} {R : α → α → Prop} {Q : β → β → Prop}
  {rule : Rule TokenStream α} {rule' : Rule S α} {next : α → Rule TokenStream β}
  {next' : α → Rule S β} {f : α → α}

/-! ## Sequences -/

/-- Values that belong together are in step. -/
theorem InStep.pure {value value' : α} (h : R value value') :
    (pure value : Rule TokenStream α).InStep c R (pure value' : Rule S α) :=
  ⟨fun hs => .done h hs⟩

/-- The same fault, at the place that corresponds to that of the first run. -/
theorem InStep.fail {fault : GrammarFault} {span span' : Span} (h : span' = c.move span) :
    (fail fault span : Rule TokenStream α).InStep c R (fail fault span' : Rule S α) := by
  subst h
  exact ⟨fun hs => .failed (c.failed hs)⟩

/-- Rules in step, one after the other. -/
theorem InStep.bind (h : rule.InStep c R rule')
    (hnext : ∀ value value', R value value' → (next value).InStep c Q (next' value')) :
    (rule >>= next).InStep c Q (rule' >>= next') := by
  constructor
  intro s s' hs
  -- Behind the first rule the two runs are at states that belong together again.
  refine (h.run hs).andThen (fun value rest => (next value).rest_run rest) ?_
  intro value value' rest rest' _ hvalue hrest
  exact (hnext value value' hvalue).run hrest

/-- `InStep.bind`, where the value of the second run is the image of that of the first. -/
theorem InStep.bind_via (h : rule.InStep c (Via f) rule')
    (hnext : ∀ value, (next value).InStep c Q (next' (f value))) :
    (rule >>= next).InStep c Q (rule' >>= next') :=
  h.bind fun value _ hvalue => hvalue ▸ hnext value

/-- `InStep.bind`, where the two runs have the same value. -/
theorem InStep.bind_eq (h : rule.InStep c Eq rule')
    (hnext : ∀ value, (next value).InStep c Q (next' value)) :
    (rule >>= next).InStep c Q (rule' >>= next') :=
  h.bind fun value _ hvalue => hvalue ▸ hnext value

/-- Two runs that fail alike still do so with one more open unary operator on both sides. -/
theorem InStep.countUnary (hplain : c.Plain) (h : rule.InStep c R rule') :
    rule.countUnary.InStep c R rule'.countUnary := by
  constructor
  intro s s' hs
  have houtcome := h.run hs
  unfold Rule.countUnary
  dsimp only
  generalize rule.run s = o at houtcome ⊢
  generalize rule'.run s' = o' at houtcome ⊢
  cases houtcome with
  | ignored hignored =>
    -- The count is not part of what decides whether an outcome is left aside.
    cases o with
    | done value rest => exact .ignored hignored
    | failed failure rest => exact .ignored hignored
  | done hvalue hrest => exact .done hvalue hrest
  | failed hfailures =>
    obtain ⟨rfl, hrest⟩ := hplain.mp hfailures
    exact .failed (hplain.mpr ⟨rfl, hrest⟩)

/-! ## Tokens -/

/-- The next tokens of the two runs are the same, but for their places. -/
theorem inStep_peek : peek.InStep c (Token.MovedBy c.move) peek :=
  ⟨fun hs => .done (c.next hs) hs⟩

/-- Both runs take their next token, unless the first is left aside from there on. -/
theorem inStep_pop : pop.InStep c (Token.MovedBy c.move) pop := by
  constructor
  intro s s' hs
  obtain hskip | hignored := c.skip hs
  · exact .done (c.next hs) hskip
  · exact .ignored hignored

/-- Both runs see the same kind of token. -/
theorem inStep_nextIs {kind : TokenKind} : (nextIs kind).InStep c Eq (nextIs kind) :=
  inStep_peek.bind fun _ _ h => .pure (by rw [h.kind])

/-- Both runs see the same operator. -/
theorem inStep_nextIsOperator {symbol : String} :
    (nextIsOperator symbol).InStep c Eq (nextIsOperator symbol) :=
  inStep_peek.bind fun _ _ h => .pure (h.isOperator symbol).symm

/-- Both runs take the token, or neither does. -/
theorem inStep_accept {kind : TokenKind} : (accept kind).InStep c Eq (accept kind) := by
  refine inStep_nextIs.bind_eq fun present => ?_
  split
  · exact inStep_pop.bind fun _ _ _ => .pure rfl
  · exact .pure rfl

/-- Both runs find the token that they expect, or both report the one that they find instead. -/
theorem inStep_expect {kind : TokenKind} :
    (expect kind).InStep c (Token.MovedBy c.move) (expect kind) := by
  refine inStep_pop.bind fun found found' h => ?_
  rw [h.kind, h.toLexeme]
  split
  · exact .pure h
  · exact .fail h.span

/-- The same for an operator. -/
theorem inStep_expectOperator {symbol : String} :
    (expectOperator symbol).InStep c (Token.MovedBy c.move) (expectOperator symbol) := by
  refine inStep_pop.bind fun found found' h => ?_
  rw [h.isOperator, h.toLexeme]
  split
  · exact .pure h
  · exact .fail h.span

/-! ## The loop -/

/-- Loops whose rounds are in step are in step. -/
theorem InStep.whileNext {R : σ → σ → Prop} {select : Token → Option β}
    {body : Token → β → σ → Rule TokenStream σ} {body' : Token → β → σ → Rule S σ}
    (hselect : ∀ t u, t.MovedBy c.move u → select u = select t)
    (hbody : ∀ t u choice state state', t.MovedBy c.move u → R state state' →
      (body t choice state).InStep c R (body' u choice state'))
    {state state' : σ} (hstate : R state state') :
    (whileNext select body state).InStep c R (whileNext select body' state') := by
  constructor
  intro s s' hs
  -- Every round takes a token, so the tokens that are left get fewer.
  induction hn : s.ahead.length using Nat.strongRecOn generalizing state state' s s' with
  | ind n ih =>
    have hmoved := c.next hs
    have hended := c.ended hs
    have hskip := c.skip hs
    obtain ⟨ahead, eof⟩ := s
    cases ahead with
    | nil =>
      -- The tokens end in both runs at once, so both loops end here.
      rw [run_whileNext_nil, run_whileNext_of_nil (hended.mp rfl)]
      exact .done hstate hs
    | cons t ahead =>
      cases hahead' : (stream s').ahead with
      | nil => exact absurd (hended.mpr hahead') (List.cons_ne_nil t ahead)
      | cons u ahead' =>
        rw [TokenStream.next, TokenStream.next, hahead'] at hmoved
        have hu : select u = select t := hselect t u hmoved
        cases ht : select t with
        | none =>
          rw [run_whileNext_stop ht, run_whileNext_of_stop hahead' (hu.trans ht)]
          exact .done hstate hs
        | some choice =>
          rw [run_whileNext_round ht, run_whileNext_of_round hahead' (hu.trans ht)]
          obtain hstreams | hignored := hskip
          · refine ((hbody t u choice state state' hmoved hstate).run hstreams).andThen
              (fun after rest => (Rule.whileNext select body after).rest_run rest) ?_
            intro after after' rest rest' hround hafter hrest
            -- The body leaves at most the tokens behind the one that the round has taken.
            have hshorter := ((body t choice state).rest_run ⟨ahead, eof⟩).length_le
            rw [TokenStream.skip, List.drop_succ_cons, List.drop_zero] at hround
            rw [hround, Outcome.rest_done] at hshorter
            refine ih rest.ahead.length ?_ hafter hrest rfl
            rw [← hn, List.length_cons]
            exact Nat.lt_succ_of_le hshorter
          · -- The first run is left aside behind the token that this round takes.
            exact .ignored (c.ignores_rest hignored (Rule.rest_run _ _))

end Combinators

end Rule

end JsonnetSyntax
