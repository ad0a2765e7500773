import JsonnetSyntax.Fault
import JsonnetSyntax.Grammar.Stream

/-!
# Grammar rules

A `Rule S α` reads tokens off a state and either is done with a value or fails with an error; both
outcomes leave a state with a rest of the stream, which is part of the type.  Rules form a monad,
and `Rule.whileNext` is their only loop: it takes a token in every round, so it ends.

The rules of the grammar do not look at what the state holds beside its stream, so each of them is a
rule for every `TokenSource`.
-/

namespace JsonnetSyntax

/-- An error, and the number of unary operators whose operand was being read when it occurred.  Only
    the rules that are given a bound on nesting, in place of a counter in the state, count these. -/
structure Failure where
  error : Error
  openUnary : Nat := 0
deriving DecidableEq, Repr

/-- What reading leads to: a value or a failure, and the state that it leaves. -/
inductive Outcome (S α : Type) where
  | done (value : α) (rest : S)
  | failed (failure : Failure) (rest : S)
deriving DecidableEq, Repr

namespace Outcome

variable {S α β : Type}

/-- The state that reading leaves. -/
def rest : Outcome S α → S
  | done _ rest => rest
  | failed _ rest => rest

/-- The value that was read, or the error. -/
def result : Outcome S α → Except Error α
  | done value _ => .ok value
  | failed failure _ => .error failure.error

/-- Goes on with the value of an outcome that is done. -/
@[inline] def andThen (o : Outcome S α) (next : α → S → Outcome S β) : Outcome S β :=
  match o with
  | done value rest => next value rest
  | failed failure rest => failed failure rest

/-- A read value leaves the state behind it. -/
@[simp] theorem rest_done (value : α) (s : S) : (done value s).rest = s := rfl

/-- A failure leaves the state in which it occurred. -/
@[simp] theorem rest_failed (failure : Failure) (s : S) :
    (failed failure s : Outcome S α).rest = s := rfl

/-- After a value, reading goes on behind it. -/
@[simp] theorem andThen_done (value : α) (s : S) (next : α → S → Outcome S β) :
    (done value s).andThen next = next value s := rfl

/-- After a failure, nothing more is read. -/
@[simp] theorem andThen_failed (failure : Failure) (s : S) (next : α → S → Outcome S β) :
    (failed failure s : Outcome S α).andThen next = failed failure s := rfl

end Outcome

open TokenSource (stream skip stream_skip)

/-- A way to read a value off a state, which leaves a rest of its stream. -/
@[ext] structure Rule (S : Type) [TokenSource S] (α : Type) where
  run : S → Outcome S α
  isRestOf_run : ∀ s, (stream (run s).rest).IsRestOf (stream s)

namespace Rule

variable {S α β : Type} [TokenSource S]

/-- Reads nothing. -/
@[inline] protected def pure (value : α) : Rule S α where
  run s := .done value s
  isRestOf_run s := .refl (stream s)

/-- Reads with `rule`, then with the rule that its value leads to. -/
@[inline] protected def bind (rule : Rule S α) (next : α → Rule S β) : Rule S β where
  run s := (rule.run s).andThen fun value rest => (next value).run rest
  isRestOf_run s := by
    have first := rule.isRestOf_run s
    cases h : rule.run s with
    | failed failure rest => simpa [h] using first
    | done value rest =>
      rw [h] at first
      exact ((next value).isRestOf_run rest).trans first

instance : Monad (Rule S) where
  pure := Rule.pure
  bind := Rule.bind

/-- A rule that reads nothing leaves the state as it is. -/
@[simp] theorem run_pure (value : α) (s : S) : (pure value : Rule S α).run s = .done value s := rfl

/-- The second of two rules starts where the first one ends. -/
@[simp] theorem run_bind (rule : Rule S α) (next : α → Rule S β) (s : S) :
    (rule >>= next).run s = (rule.run s).andThen fun value rest => (next value).run rest := rfl

instance : LawfulMonad (Rule S) := LawfulMonad.mk' (Rule S)
  -- Only the right identity and associativity need a look at the outcome: a failure passes through
  -- both.
  (fun rule => by
    ext s
    change (rule.run s).andThen (fun value rest => .done value rest) = rule.run s
    cases rule.run s <;> rfl)
  (fun _ _ => rfl)
  (fun rule _ _ => by
    ext s
    simp only [run_bind]
    cases rule.run s <;> rfl)

/-- Builds the rule only when it is run. -/
@[noinline] def delay (rule : Unit → Rule S α) : Rule S α where
  run s := (rule ()).run s
  isRestOf_run s := (rule ()).isRestOf_run s

/-- The next token, which stays in the stream. -/
def peek : Rule S Token where
  run s := .done (stream s).next s
  isRestOf_run s := .refl (stream s)

/-- Takes the next token off the stream; the end mark stays. -/
def pop : Rule S Token where
  run s := .done (stream s).next (skip s)
  isRestOf_run s := by
    rw [Outcome.rest_done, stream_skip]
    exact (stream s).skip_isRestOf

/-- Fails without reading anything. -/
def fail (fault : GrammarFault) (span : Span) : Rule S α where
  run s := .failed { error := ⟨.grammar fault, span⟩ } s
  isRestOf_run s := .refl (stream s)

/-- Counts one more open unary operator if `rule` fails. -/
def countUnary (rule : Rule S α) : Rule S α where
  run s :=
    match rule.run s with
    | .done value rest => .done value rest
    | .failed failure rest => .failed { failure with openUnary := failure.openUnary + 1 } rest
  isRestOf_run s := by
    have first := rule.isRestOf_run s
    cases h : rule.run s with
    | done value rest => simpa [h] using first
    | failed failure rest => simpa [h] using first

/-- Delaying a rule does not change it. -/
@[simp] theorem delay_eq (rule : Unit → Rule S α) : delay rule = rule () := rfl

/-- A rule that fails at once leaves the state as it is. -/
@[simp] theorem run_fail (fault : GrammarFault) (span : Span) (s : S) :
    (fail fault span : Rule S α).run s = .failed { error := ⟨.grammar fault, span⟩ } s := rfl

/-! ## The loop -/

/-- Behind a token that is no end mark, the stream is shorter. -/
theorem length_stream_skip {s : S} {t : Token} {ahead : List Token}
    (h : (stream s).ahead = t :: ahead) :
    (stream (skip s)).ahead.length < (stream s).ahead.length := by
  rw [stream_skip, TokenStream.skip, h]
  exact Nat.lt_succ_self _

/-- While `select` takes the next token, pops it and goes on with the state that `body` gives.  The
    end mark is never taken. -/
def runWhile {σ : Type} (select : Token → Option β) (body : Token → β → σ → Rule S σ) (state : σ)
    (s : S) : Outcome S σ :=
  match _hahead : (stream s).ahead with
  | [] => .done state s
  | t :: _ =>
    match select t with
    | none => .done state s
    | some choice =>
      match _h : (body t choice state).run (skip s) with
      | .failed failure rest => .failed failure rest
      | .done after rest => runWhile select body after rest
termination_by (stream s).ahead.length
decreasing_by
  -- A round takes one token, and its body never puts any back.
  have shorter := ((body t choice state).isRestOf_run (skip s)).length_le
  rw [_h] at shorter
  exact Nat.lt_of_le_of_lt shorter (length_stream_skip _hahead)

/-- A loop leaves a rest of the stream it starts on, as each of its rounds does. -/
theorem isRestOf_runWhile {σ : Type} (select : Token → Option β) (body : Token → β → σ → Rule S σ)
    (state : σ) (s : S) : (stream (runWhile select body state s).rest).IsRestOf (stream s) := by
  -- The induction is on the rounds; the body of each one starts behind the token it takes.
  have hskip : ∀ s : S, (stream (skip s)).IsRestOf (stream s) := fun s => pop.isRestOf_run s
  fun_induction runWhile select body state s with
  | case1 state s _ => exact .refl _
  | case2 state s t _ _ _ => exact .refl _
  | case3 state s t _ _ choice _ failure rest h =>
    have first := (body t choice state).isRestOf_run (skip s)
    rw [h] at first
    exact first.trans (hskip s)
  | case4 state s t _ _ choice _ next rest h ih =>
    have first := (body t choice state).isRestOf_run (skip s)
    rw [h] at first
    exact (ih.trans first).trans (hskip s)

/-- While `select` takes the next token, pops it and goes on with the state that `body` gives. -/
def whileNext {σ : Type} (select : Token → Option β) (body : Token → β → σ → Rule S σ) (state : σ) :
    Rule S σ where
  run := runWhile select body state
  isRestOf_run := isRestOf_runWhile select body state

section Rounds

variable {σ : Type} {select : Token → Option β} {body : Token → β → σ → Rule S σ} {state : σ}
  {s : S} {t : Token} {ahead : List Token}

/-- A loop ends where no token is ahead. -/
theorem run_whileNext_of_nil (hs : (stream s).ahead = []) :
    (whileNext select body state).run s = .done state s := by
  show runWhile select body state s = _
  rw [runWhile]
  -- The loop matches on the tokens ahead with their equation, so the match has to be split and the
  -- case that contradicts the hypothesis ruled out.
  split
  · rfl
  · next t ahead hcons => exact absurd (hs.symm.trans hcons) (List.cons_ne_nil t ahead).symm

/-- A loop ends in front of a token that it does not select. -/
theorem run_whileNext_of_stop (hs : (stream s).ahead = t :: ahead) (h : select t = none) :
    (whileNext select body state).run s = .done state s := by
  show runWhile select body state s = _
  rw [runWhile]
  split
  · rfl
  · next u rest hcons =>
    obtain ⟨rfl, -⟩ := List.cons.inj (hs.symm.trans hcons)
    rw [h]

/-- A loop takes a token that it selects, runs its body and goes on. -/
theorem run_whileNext_of_round {choice : β} (hs : (stream s).ahead = t :: ahead)
    (h : select t = some choice) :
    (whileNext select body state).run s =
      (body t choice state >>= whileNext select body).run (skip s) := by
  show runWhile select body state s = _
  rw [run_bind, runWhile]
  split
  · next hnil => exact absurd (hs.symm.trans hnil) (List.cons_ne_nil t ahead)
  · next u rest hcons =>
    obtain ⟨rfl, -⟩ := List.cons.inj (hs.symm.trans hcons)
    rw [h]
    dsimp only
    split
    · next failure rest hbody => rw [hbody, Outcome.andThen_failed]
    · next after rest hbody =>
      rw [hbody, Outcome.andThen_done]
      rfl

end Rounds

/-! ## Tokens of a kind -/

/-- Whether the next token has a kind. -/
def nextIs (kind : TokenKind) : Rule S Bool := do return (← peek).kind == kind

/-- Whether the next token is an operator with a symbol. -/
def nextIsOperator (symbol : String) : Rule S Bool := do return (← peek).isOperator symbol

/-- Takes the next token if it has a kind, and says whether it does. -/
def accept (kind : TokenKind) : Rule S Bool := do
  if ← nextIs kind then
    let _ ← pop
    return true
  else return false

/-- Takes a token of a kind; another token is taken too, and is the fault. -/
def expect (kind : TokenKind) : Rule S Token := do
  let found ← pop
  if found.kind = kind then return found
  else fail (.expectedKind kind found.toLexeme) found.span

/-- Takes an operator; another token is taken too, and is the fault. -/
def expectOperator (symbol : String) : Rule S Token := do
  let found ← pop
  if found.isOperator symbol then return found
  else fail (.expectedOperator symbol found.toLexeme) found.span

/-! ## Rules on a stream alone -/

section Stream

variable {σ : Type}

/-- On a bare stream, a rule leaves a rest of that stream. -/
theorem rest_run (rule : Rule TokenStream α) (s : TokenStream) : (rule.run s).rest.IsRestOf s :=
  rule.isRestOf_run s

/-- On a bare stream, looking at the next token leaves the stream as it is. -/
@[simp] theorem run_peek (s : TokenStream) : peek.run s = .done s.next s := rfl

/-- On a bare stream, taking the next token leaves what follows it. -/
@[simp] theorem run_pop (s : TokenStream) : pop.run s = .done s.next s.skip := rfl

variable {select : Token → Option β} {body : Token → β → σ → Rule TokenStream σ} {state : σ}
  {t eof : Token} {ahead : List Token}

/-- On a bare stream, a loop ends where no token is ahead. -/
theorem run_whileNext_nil : (whileNext select body state).run ⟨[], eof⟩ = .done state ⟨[], eof⟩ :=
  run_whileNext_of_nil rfl

/-- On a bare stream, a loop ends in front of a token that it does not select. -/
theorem run_whileNext_stop (h : select t = none) :
    (whileNext select body state).run ⟨t :: ahead, eof⟩ = .done state ⟨t :: ahead, eof⟩ :=
  run_whileNext_of_stop rfl h

/-- On a bare stream, a loop takes a token that it selects, runs its body and goes on. -/
theorem run_whileNext_round {choice : β} (h : select t = some choice) :
    (whileNext select body state).run ⟨t :: ahead, eof⟩ =
      (body t choice state >>= whileNext select body).run ⟨ahead, eof⟩ :=
  run_whileNext_of_round rfl h

end Stream

end Rule

end JsonnetSyntax
