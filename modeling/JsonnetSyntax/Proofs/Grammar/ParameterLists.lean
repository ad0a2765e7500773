import JsonnetSyntax.Proofs.Grammar.ElementLists

/-!
# Parameters of functions and files of imports

Behind `function` stands a list of names in parentheses, and behind `import` and `importstr` a
string.  Both are read as expressions of any kind, and only the tree that comes out is looked at.  A
tree that is a name or a string comes from a single token, but parentheses leave no trace in the
tree, so that each name and each string may stand in any number of them: this is what an accepted
program can have there, and it is more than the bare tokens.

## Key results

- `Level.unwraps_upTo`: an expression that is a name or a string is one token in parentheses
- `Rule.listOf_of_reads_commaList`: a list of such expressions
- `Rule.tidies_expression`: one level of nesting
- `Token.heads_of_parse`: what stands behind the keywords of an accepted program
- `Token.not_heads_bare`: the tokens need not be bare
-/

namespace JsonnetSyntax

/-! ## Names, strings and lists of tokens -/

/-- A single token, which has the property `P`. -/
def Bare (P : Token → Prop) (ts : List Token) : Prop := ∃ t, ts = [t] ∧ P t

/-- A single token with the property `P`, in any number of pairs of parentheses. -/
inductive Wrapped (P : Token → Prop) : List Token → Prop where
  | bare {t : Token} (ht : P t) : Wrapped P [t]
  | paren {opening closing : Token} {ts : List Token} (hopening : opening.kind = .punct .parenL)
    (h : Wrapped P ts) (hclosing : closing.kind = .punct .parenR) :
    Wrapped P (opening :: (ts ++ [closing]))

/-- One or more items with commas between them. -/
inductive Row (Item : List Token → Prop) : List Token → Prop where
  | one {ts : List Token} (h : Item ts) : Row Item ts
  | more {ts us : List Token} {comma : Token} (h : Row Item ts)
    (hcomma : comma.kind = .punct .comma) (hitem : Item us) : Row Item (ts ++ comma :: us)

/-- No items, or a row of them, which a comma may follow. -/
inductive ListOf (Item : List Token → Prop) : List Token → Prop where
  | nil : ListOf Item []
  | row {ts : List Token} (h : Row Item ts) : ListOf Item ts
  | trailing {ts : List Token} {comma : Token} (h : Row Item ts)
    (hcomma : comma.kind = .punct .comma) : ListOf Item (ts ++ [comma])

/-- Behind the token `t` stands what its keyword asks for, if it is one of the three that ask for
    names or for a string.  How a single token may be written is left open. -/
structure Token.Heads (Written : (Token → Prop) → List Token → Prop) (t : Token)
    (after : List Token) : Prop where
  parameters : t.kind = .keyword .function →
    ∃ opening names closing more, after = opening :: (names ++ closing :: more) ∧
      opening.kind = .punct .parenL ∧ ListOf (Written fun name => name.kind = .identifier) names ∧
      closing.kind = .punct .parenR
  file : t.kind = .keyword .import ∨ t.kind = .keyword .importstr →
    ∃ file more, after = file ++ more ∧ Written (fun text => ∃ form, text.kind = .string form) file

/-- A token with a stronger property has the weaker one, in as many parentheses. -/
theorem Wrapped.mono {P Q : Token → Prop} {ts : List Token} (h : Wrapped P ts)
    (hPQ : ∀ t, P t → Q t) :
    Wrapped Q ts := by
  induction h with
  | bare ht => exact .bare (hPQ _ ht)
  | paren hopening _ hclosing ih => exact .paren hopening ih hclosing

/-- The kind of the token that an expression stands for which is a name or a string. -/
def Expr.wordKind? (e : Expr) : Option TokenKind :=
  match e.shape with
  | .var _ _ => some .identifier
  | .string _ form _ => some (.string form)
  | _ => none

/-- A name stands for an identifier. -/
theorem Expr.wordKind?_of_identifier {e : Expr} {name : String} (h : e.identifier? = some name) :
    e.wordKind? = some .identifier := by
  obtain ⟨span, shape⟩ := e
  cases shape with
  | var => rfl
  | _ => cases h

/-- A text stands for a string, of some form. -/
theorem Expr.wordKind?_of_stringValue {e : Expr} {value : String}
    (h : e.stringValue? = some value) :
    ∃ form, e.wordKind? = some (.string form) := by
  obtain ⟨span, shape⟩ := e
  cases shape with
  | string _ form _ => exact ⟨form, rfl⟩
  | _ => cases h

/-! ## Keywords and what stands behind them -/

/-- The kinds of tokens that ask for nothing in particular behind them. -/
def TokenKind.isPlain : TokenKind → Bool
  | .keyword .function | .keyword .import | .keyword .importstr => false
  | _ => true

/-- A token that asks for nothing may have anything behind it. -/
theorem Token.heads_of_isPlain {Written : (Token → Prop) → List Token → Prop} {t : Token}
    {after : List Token} (ht : t.kind.isPlain = true) : t.Heads Written after where
  parameters hkind := by simp [hkind, TokenKind.isPlain] at ht
  file hkind := by
    obtain hkind | hkind := hkind
    · simp [hkind, TokenKind.isPlain] at ht
    · simp [hkind, TokenKind.isPlain] at ht

/-- More tokens behind do not matter. -/
theorem Token.Heads.append {Written : (Token → Prop) → List Token → Prop} {t : Token}
    {after : List Token} (h : t.Heads Written after) (further : List Token) :
    t.Heads Written (after ++ further) where
  parameters hkind := by
    obtain ⟨opening, names, closing, more, rfl, hopening, hnames, hclosing⟩ := h.parameters hkind
    exact ⟨opening, names, closing, more ++ further, by simp, hopening, hnames, hclosing⟩
  file hkind := by
    obtain ⟨file, more, rfl, hfile⟩ := h.file hkind
    exact ⟨file, more ++ further, List.append_assoc .., hfile⟩

/-- Behind every keyword stands what it asks for, parentheses apart. -/
def Tidy : List Token → Prop
  | [] => True
  | t :: ts => t.Heads Wrapped ts ∧ Tidy ts

/-- Tidy tokens behind tidy tokens are tidy. -/
theorem Tidy.append {ts us : List Token} (hts : Tidy ts) (hus : Tidy us) : Tidy (ts ++ us) := by
  induction ts with
  | nil => exact hus
  | cons t ts ih => exact ⟨hts.1.append us, ih hts.2⟩

/-- Behind each token among tidy ones stands what its keyword asks for. -/
theorem Tidy.heads {before after : List Token} {t : Token} (h : Tidy (before ++ t :: after)) :
    t.Heads Wrapped after := by
  induction before with
  | nil => exact h.1
  | cons u before ih => exact ih h.2

/-- The tokens in front of the end `ts'` of `ts` are tidy. -/
def TidyUpTo (ts ts' : List Token) : Prop := ∃ taken, ts = taken ++ ts' ∧ Tidy taken

namespace TidyUpTo

variable {t : Token} {ts mid ts' : List Token}

/-- Where nothing is taken, everything is tidy. -/
theorem refl (ts : List Token) : TidyUpTo ts ts := ⟨[], rfl, trivial⟩

/-- What is taken in two steps is tidy if both parts are. -/
theorem trans (hfirst : TidyUpTo ts mid) (hsecond : TidyUpTo mid ts') : TidyUpTo ts ts' := by
  obtain ⟨front, rfl, hfront⟩ := hfirst
  obtain ⟨back, rfl, hback⟩ := hsecond
  exact ⟨front ++ back, (List.append_assoc ..).symm, hfront.append hback⟩

/-- A keyword in front of what it asks for. -/
theorem cons_of_heads (h : TidyUpTo ts ts')
    (hheads : ∀ taken, ts = taken ++ ts' → t.Heads Wrapped taken) :
    TidyUpTo (t :: ts) ts' := by
  obtain ⟨taken, rfl, htaken⟩ := h
  exact ⟨t :: taken, rfl, hheads taken rfl, htaken⟩

/-- A token of any other kind in front. -/
theorem cons {kind : TokenKind} (ht : t.kind = kind) (hkind : kind.isPlain = true)
    (h : TidyUpTo ts ts') :
    TidyUpTo (t :: ts) ts' :=
  h.cons_of_heads fun _ _ => t.heads_of_isPlain (by rw [ht, hkind])

/-- A token of any other kind behind. -/
theorem concat {kind : TokenKind} (h : TidyUpTo ts (t :: ts')) (ht : t.kind = kind)
    (hkind : kind.isPlain = true) : TidyUpTo ts ts' :=
  h.trans (cons ht hkind (refl ts'))

end TidyUpTo

namespace Rule

variable {α β σ : Type} {eof : EndMark} {ts ts' : List Token} {rule : Rule TokenStream α}
  {full : Rule TokenStream Expr}

/-- What the rule takes is tidy. -/
structure Tidies (rule : Rule TokenStream α) : Prop where
  upTo : ∀ {eof : EndMark} {ts ts' : List Token} {value : α}, rule.Reads eof ts value ts' →
    TidyUpTo ts ts'

/-! ## Expressions that are a name or a string -/

/-- Where the rule reads a name or a string, it takes a token of this kind in parentheses. -/
def Unwraps (rule : Rule TokenStream Expr) : Prop :=
  ∀ {eof : EndMark} {ts ts' : List Token} {e : Expr} {kind : TokenKind}, rule.Reads eof ts e ts' →
    e.wordKind? = some kind → ∃ taken, ts = taken ++ ts' ∧ Wrapped (fun t => t.kind = kind) taken

/-- An operand of one token that is a name or a string is of that kind. -/
theorem kind_of_terminalWord {t : Token} {span : Span} {shape : Shape Expr} {kind : TokenKind}
    (ht : terminalShape? t = some shape) (h : (Expr.node span shape).wordKind? = some kind) :
    t.kind = kind := by
  unfold terminalShape? at ht
  split at ht
  · obtain ⟨value, -, rfl⟩ := Option.map_eq_some_iff.mp ht
    cases h
  -- The other tokens build shapes that are neither names nor strings.
  all_goals cases ht
  all_goals cases h
  all_goals assumption

/-- No keyword leads a name or a string. -/
theorem wordKind?_of_ledBy {form : Rule TokenStream Expr} {out : Expr}
    (hform : ledBy? full (eof.next ts).kind = some form) (h : form.Reads eof ts out ts') :
    out.wordKind? = none := by
  cases ts with
  | nil => simp [ledBy?] at hform
  | cons t ts =>
    rw [EndMark.next_cons] at hform
    -- One case for each keyword, in the order of `ledBy?`.
    unfold ledBy? at hform
    split at hform <;> cases hform
    · obtain ⟨cond, message, mid, -, semicolon, mid', -, -, rest, -, rfl⟩ := reads_assertForm.mp h
      rfl
    · obtain ⟨message, -, rfl⟩ := reads_errorForm.mp h
      rfl
    · obtain ⟨cond, mid, -, t', mid', -, -, whenTrue, after, -,
        ⟨t'', rest, -, -, whenFalse, -, rfl⟩ |
        ⟨-, rfl, -⟩⟩ := reads_conditionalForm.mp h
      · rfl
      · rfl
    · obtain ⟨opening, mid, -, -, ps, mid', -, body, -, rfl⟩ := reads_functionForm.mp h
      rfl
    · obtain ⟨file, -, name, -, rfl⟩ := reads_importForm.mp h
      rfl
    · obtain ⟨file, -, name, -, rfl⟩ := reads_importForm.mp h
      rfl
    · obtain ⟨bs, mid, -, semicolon, rest, -, -, body, -, rfl⟩ := reads_localForm.mp h
      rfl

/-- Of the operands without suffixes, those in brackets and braces are neither names nor strings. -/
theorem unwraps_primary (hfull : full.Unwraps) : (primary full).Unwraps := by
  intro eof ts ts' e kind h hkind
  obtain ⟨t, rest, rfl, ⟨-, hobject⟩ | ⟨-, harray⟩ | ⟨ht, hparen⟩⟩ | ⟨-, -, -, hterminal⟩ :=
    reads_primary.mp h
  · obtain ⟨members, comma, mid, -, u, rest', -, ⟨-, -, rfl⟩ | ⟨-, hcomp⟩⟩ :=
      reads_object.mp hobject
    · cases hkind
    · obtain ⟨-, cs, closing, -, rfl⟩ := reads_objectComp.mp hcomp
      cases hkind
  · obtain ⟨list, -, rfl⟩ | ⟨first, mid, -, comma, mid', -, u, rest', -, -, cs, closing, -, rfl⟩ :=
      harray.array_cases
    · cases hkind
    · cases hkind
  · -- The tree is the one between the parentheses, so the token in there has one pair more around
    -- it.
    obtain ⟨mid, hinner, closing, rfl, hclosing⟩ := reads_parenthesised.mp hparen
    obtain ⟨taken, rfl, htaken⟩ := hfull hinner hkind
    exact ⟨t :: (taken ++ [closing]), by simp, .paren ht htaken hclosing⟩
  · obtain ⟨t, rest, rfl, ⟨shape, hshape, rfl, rfl⟩ | ⟨-, hsuper⟩⟩ := reads_terminal.mp hterminal
    · exact ⟨[t], rfl, .bare (kind_of_terminalWord hshape hkind)⟩
    · obtain ⟨u, rest', rfl, selector, last, -, rfl⟩ := reads_superIndex.mp hsuper
      cases hkind

/-- Nothing with a suffix is a name or a string. -/
theorem unwraps_operand (hfull : full.Unwraps) : (operand full).Unwraps := by
  intro eof ts ts' e kind h hkind
  obtain ⟨first, mid, hfirst, hsuffixes⟩ := reads_operand.mp h
  -- A suffix builds a node that is no word, so no suffix can have been read.
  have hsame :=
    hsuffixes.whileNext_eq_start (fun _ => True) (fun e => e.wordKind? = some kind) trivial
    ?_ hkind
  · obtain ⟨rfl, rfl⟩ := hsame
    exact unwraps_primary hfull hfirst hkind
  · intro t rest choice before after mid' _ hround
    refine ⟨trivial, ?_⟩
    obtain ⟨_, _, rfl⟩ | ⟨_, _, _, _, rfl⟩ | ⟨_, _, rfl⟩ :=
      shape_of_reads_suffix hround <;> exact nofun

/-- Nothing with a unary operator is a name or a string. -/
theorem unwraps_unary {g : Level TokenStream} (hfull : g.full.Unwraps) : (unary g).Unwraps := by
  intro eof ts ts' e kind h hkind
  obtain ⟨t, rest, rfl, -, op, -, inner, -, rfl⟩ | ⟨-, hoperand⟩ := reads_unary.mp h
  · cases hkind
  · exact unwraps_operand hfull hoperand hkind

/-- Nothing with an operator or a keyword is a name or a string. -/
theorem unwraps_expression {g : Level TokenStream} (hfull : g.full.Unwraps)
    {precedence : Precedence} :
    (expression g precedence).Unwraps := by
  intro eof ts ts' e kind h hkind
  obtain ⟨form, hform, hread⟩ | ⟨-, left, mid, hleft, hchain⟩ := reads_expression.mp h
  · rw [wordKind?_of_ledBy hform hread] at hkind
    cases hkind
  · -- A round of the chain would have built an operation.
    have hsame := (reads_binaryChain.mp hchain).1.whileNext_eq_start (fun _ => True)
      (fun e => e.wordKind? = some kind) trivial ?_ hkind
    · obtain ⟨rfl, rfl⟩ := hsame
      exact unwraps_unary hfull hleft hkind
    · intro t rest op before after mid' _ hround
      obtain ⟨right, mid'', -, hout⟩ := reads_bind.mp hround
      obtain ⟨rfl, -⟩ := reads_pure.mp hout
      exact ⟨trivial, nofun⟩

end Rule

namespace Level

/-- An expression of any depth that is a name or a string is one token in parentheses. -/
theorem unwraps_upTo (n : Nat) : (upTo n).full.Unwraps := by
  -- By induction on the depth: parentheses are the only way down that keeps the tree.
  induction n with
  | zero => exact fun h => absurd h reads_exhausted_expr
  | succ n ih => exact fun h hkind => Rule.unwraps_expression ih (reads_deepen_expr.mp h) hkind

end Level

namespace Rule

variable {α β σ : Type} {eof : EndMark} {ts ts' : List Token} {rule : Rule TokenStream α}
  {full : Rule TokenStream Expr}

/-! ## Lists of names -/

/-- A list of expressions, each of which is a name or a string of the given kind, is a list of
    tokens of the kind in parentheses. -/
theorem listOf_of_reads_commaList (hfull : full.Unwraps) {closing : Punct}
    (hclosing : closing ≠ .comma) {what : ListItem} {list : CommaList} {kind : TokenKind}
    (h : (commaList full closing what).Reads eof ts list ts')
    (hlist : ∀ e ∈ list.exprs, e.wordKind? = some kind) :
    ∃ words, ts = words ++ list.closing :: ts' ∧ list.closing.kind = .punct closing ∧
      ListOf (Wrapped fun t => t.kind = kind) words := by
  obtain ⟨hitems, hmark⟩ := reads_commaList.mp h
  obtain ⟨-, -, rfl⟩ | ⟨-, firsts, mid, hfirst, hmore⟩ := reads_items.mp hitems
  · exact ⟨[], rfl, hmark, .nil⟩
  · obtain ⟨e, he, rfl⟩ := reads_pushExpr.mp hfirst
    -- The invariant: what was taken so far is a list, and a row as long as no comma ends it.
    have hwords := hmore.moreItems_induction (by simpa using hclosing.symm)
      (fun state mid => (∀ e ∈ state.1.toList, e.wordKind? = some kind) →
        ∃ words, ts = words ++ mid ∧ ListOf (Wrapped fun t => t.kind = kind) words ∧
          (state.2 = false → Row (Wrapped fun t => t.kind = kind) words))
      ?_ (by simp) ?_ ?_ (by simpa using hlist)
    · obtain ⟨words, rfl, hwords, -⟩ := hwords
      exact ⟨words, rfl, hmark, hwords⟩
    · intro hexprs
      obtain ⟨word, rfl, hword⟩ := hfull he (hexprs e (by simp))
      exact ⟨word, rfl, .row (.one hword), fun _ => .one hword⟩
    · -- A comma with no item behind it is the last one.
      intro comma rest exprs hcomma _ hstate hexprs
      obtain ⟨words, rfl, -, hrow⟩ := hstate hexprs
      exact ⟨words ++ [comma], by simp, .trailing (hrow rfl) hcomma, nofun⟩
    · -- A comma with an item behind it makes the row longer.
      intro comma rest exprs after mid' hcomma hitem hstate hexprs
      obtain ⟨next, hnext, rfl⟩ := reads_pushExpr.mp hitem
      obtain ⟨words, rfl, -, hrow⟩ := hstate fun e he => hexprs e (by simp_all)
      obtain ⟨word, rfl, hword⟩ := hfull hnext (hexprs next (by simp))
      have hlonger := (hrow rfl).more hcomma hword
      exact ⟨words ++ comma :: word, by simp, .row hlonger, fun _ => hlonger⟩

/-! ## Tidy rules -/

/-- A rule that takes nothing is tidy. -/
theorem tidies_pure {value : α} : (pure value : Rule TokenStream α).Tidies where
  upTo h := by
    obtain ⟨-, rfl⟩ := reads_pure.mp h
    exact .refl _

/-- A sequence of tidy rules is tidy. -/
theorem Tidies.bind {next : α → Rule TokenStream β} (h : rule.Tidies)
    (hnext : ∀ value, (next value).Tidies) :
    (rule >>= next).Tidies where
  upTo hread := by
    obtain ⟨value, mid, hfirst, hsecond⟩ := reads_bind.mp hread
    exact (h.upTo hfirst).trans ((hnext value).upTo hsecond)

/-- Taking a token that asks for nothing is tidy. -/
theorem tidies_expect {kind : TokenKind} (hend : kind ≠ .endOfFile) (hkind : kind.isPlain = true) :
    (expect kind).Tidies where
  upTo h := by
    obtain ⟨rfl, ht⟩ := (reads_expect hend).mp h
    exact (TidyUpTo.refl _).concat ht hkind

/-- Taking a token that may be missing is tidy if the token asks for nothing. -/
theorem tidies_accept {kind : TokenKind} (hend : kind ≠ .endOfFile) (hkind : kind.isPlain = true) :
    (accept kind).Tidies where
  upTo h := by
    obtain ⟨t, rfl, ht, -⟩ | ⟨-, rfl, -⟩ := (reads_accept hend).mp h
    · exact (TidyUpTo.refl _).concat ht hkind
    · exact .refl _

/-- A loop is tidy if its rounds are and the tokens that it selects ask for nothing. -/
theorem tidies_whileNext {select : Token → Option β} {body : Token → β → σ → Rule TokenStream σ}
    {state : σ} (hselect : ∀ {t choice}, select t = some choice → t.kind.isPlain = true)
    (hbody : ∀ t choice state, (body t choice state).Tidies) :
    (whileNext select body state).Tidies where
  upTo {eof ts ts' out} h := by
    have hloop := h.whileNext_induction (fun _ mid => TidyUpTo ts mid) (.refl ts) ?_
    · exact hloop.1
    · intro t rest choice before after mid hchoice hround hbefore
      exact (hbefore.concat rfl (hselect hchoice)).trans ((hbody t choice before).upTo hround)

/-! ## Lists, bindings and clauses -/

/-- A comma asks for nothing. -/
theorem isPlain_of_comma {t : Token} {u : Unit} (h : comma? t = some u) :
    t.kind.isPlain = true := by
  rw [comma?_eq_some.mp h]
  rfl

/-- An item behind a comma is tidy. -/
theorem tidies_afterComma {stops : TokenKind → Bool} {item : σ → Rule TokenStream σ}
    (hitem : ∀ state, (item state).Tidies) (state : σ) : (afterComma stops item state).Tidies where
  upTo h := by
    obtain ⟨-, -, rfl⟩ | ⟨-, after, hread, -⟩ := reads_afterComma.mp h
    · exact .refl _
    · exact (hitem state).upTo hread

/-- A list of items is tidy. -/
theorem tidies_items {stops : TokenKind → Bool} {item : σ → Rule TokenStream σ}
    (hitem : ∀ state, (item state).Tidies) (state : σ) : (items stops item state).Tidies where
  upTo h := by
    obtain ⟨-, -, rfl⟩ | ⟨-, first, mid, hfirst, hmore⟩ := reads_items.mp h
    · exact .refl _
    · have hrounds : (moreItems stops item (first, false)).Tidies :=
        tidies_whileNext isPlain_of_comma fun _ _ state => tidies_afterComma hitem state.1
      exact ((hitem state).upTo hfirst).trans (hrounds.upTo hmore)

/-- One more element is tidy. -/
theorem tidies_pushExpr (hfull : full.Tidies) (exprs : Array Expr) : (pushExpr full exprs).Tidies :=
  hfull.bind fun _ => tidies_pure

/-- A list of expressions with its closing mark is tidy. -/
theorem tidies_commaList (hfull : full.Tidies) {closing : Punct} {what : ListItem} :
    (commaList full closing what).Tidies where
  upTo h := by
    obtain ⟨hitems, hclosing⟩ := reads_commaList.mp h
    exact ((tidies_items (tidies_pushExpr hfull) _).upTo hitems).concat hclosing rfl

/-- Parameters are tidy, as the list that they are read as is. -/
theorem tidies_parameters (hfull : full.Tidies) {what : ListItem} :
    (parameters full what).Tidies where
  upTo h := by
    obtain ⟨list, hlist, -, -⟩ := reads_parameters.mp h
    exact (tidies_commaList hfull).upTo hlist

/-- Parameters that may be missing are tidy. -/
theorem tidies_optionalParameters (hfull : full.Tidies) {what : ListItem} :
    (optionalParameters full what).Tidies where
  upTo h := by
    obtain ⟨t, rest, rfl, ht, ps, hps, -⟩ | ⟨-, -, rfl⟩ := reads_optionalParameters.mp h
    · exact ((tidies_parameters hfull).upTo hps).cons ht rfl
    · exact .refl _

/-- Only operators have the symbol of one. -/
theorem kind_of_isOperator {t : Token} {symbol : String} (h : t.isOperator symbol = true) :
    t.kind = .operator := by
  simp only [Token.isOperator, Bool.and_eq_true, beq_iff_eq] at h
  exact h.1

/-- A binding is tidy. -/
theorem tidies_binding (hfull : full.Tidies) {taken : String → Bool} :
    (binding full taken).Tidies where
  upTo h := by
    obtain ⟨name, mid, rfl, hname, -, ps, mid', hps, assign, rest, rfl, hassign, body, hbody, -⟩ :=
      reads_binding.mp h
    -- The name, its parameters and the operator come first, then the body.
    have hhead := ((tidies_optionalParameters hfull).upTo hps).cons hname rfl
    exact (hhead.concat (kind_of_isOperator hassign) rfl).trans (hfull.upTo hbody)

/-- The bindings of a local expression are tidy. -/
theorem tidies_bindings (hfull : full.Tidies) : (bindings full).Tidies := by
  have hpush : ∀ seen, (pushBinding full seen).Tidies :=
    fun seen => (tidies_binding hfull).bind fun _ => tidies_pure
  exact (hpush #[]).bind fun _ =>
    (tidies_whileNext isPlain_of_comma fun _ _ seen => hpush seen).bind fun _ => tidies_pure

/-- A `for` clause is tidy. -/
theorem tidies_loopClause (hfull : full.Tidies) : (loopClause full).Tidies :=
  (tidies_expect (by simp) rfl).bind fun _ => (tidies_expect (by simp) rfl).bind fun _ =>
    hfull.bind fun _ => tidies_pure

/-- A clause is tidy, whichever keyword starts it. -/
theorem tidies_clause (hfull : full.Tidies) (start : ClauseStart) : (clause full start).Tidies := by
  cases start with
  | loop => exact tidies_loopClause hfull
  | condition => exact hfull.bind fun _ => tidies_pure

/-- The keywords of clauses ask for nothing in particular. -/
theorem isPlain_of_clauseStart {t : Token} {start : ClauseStart}
    (h : ClauseStart.ofToken? t = some start) :
    t.kind.isPlain = true := by
  rw [ofToken?_eq_clause.mp h]
  cases start <;> rfl

/-- The clauses of a comprehension are tidy. -/
theorem tidies_clauses (hfull : full.Tidies) {closing : Punct} : (clauses full closing).Tidies where
  upTo h := by
    -- The first clause, the loop over the others, and the mark that closes them.
    obtain ⟨first, mid, hfirst, all, mid', hall, t, rest, rfl, ht, -, rfl⟩ := reads_clauses.mp h
    have hrounds := (tidies_whileNext isPlain_of_clauseStart fun _ start _ =>
      (tidies_clause hfull start).bind fun _ => tidies_pure).upTo hall
    exact (((tidies_loopClause hfull).upTo hfirst).trans hrounds).concat ht rfl

/-! ## Objects -/

/-- A condition with its message is tidy. -/
theorem tidies_condition (hfull : full.Tidies) : (condition full).Tidies where
  upTo h := by
    obtain ⟨cond, mid, hcond, ⟨colon, rest, rfl, hcolon, message, hmessage, -⟩ | ⟨-, -, rfl⟩⟩ :=
      reads_condition.mp h
    · exact ((hfull.upTo hcond).concat (kind_of_isOperator hcolon) rfl).trans (hfull.upTo hmessage)
    · exact hfull.upTo hcond

/-- The key of a field is tidy behind its first token. -/
theorem tidies_key (hfull : full.Tidies) {t : Token} (ht : StartsKey t.kind) :
    (key full t).Tidies where
  upTo h := by
    obtain ⟨-, -, rfl⟩ | ⟨form, -, -, rfl⟩ | ⟨-, e, mid, he, closing, rfl, hclosing, -⟩ :=
      (reads_key ht).mp h
    · exact .refl _
    · exact .refl _
    · exact (hfull.upTo he).concat hclosing rfl

/-- A field is tidy behind the first token of its key. -/
theorem tidies_field (hfull : full.Tidies) {t : Token} (ht : StartsKey t.kind)
    {seen : Array (Member Expr)} :
    (field full t seen).Tidies where
  upTo h := by
    obtain ⟨k, mid, hkey, method, mid', hmethod, visibility, plus, mid'', hassign, -, -, body,
        hbody, -⟩ :=
      reads_field.mp h
    obtain ⟨colon, rfl, hcolon, -⟩ := reads_assignment.mp hassign
    have hhead :=
      ((tidies_key hfull ht).upTo hkey).trans ((tidies_optionalParameters hfull).upTo hmethod)
    exact (hhead.concat hcolon rfl).trans (hfull.upTo hbody)

/-- No key of a field starts with one of the three keywords. -/
theorem StartsKey.isPlain {kind : TokenKind} (h : StartsKey kind) : kind.isPlain = true := by
  cases h <;> rfl

/-- One more member of an object is tidy. -/
theorem tidies_pushMember (hfull : full.Tidies) (seen : Array (Member Expr)) :
    (pushMember full seen).Tidies where
  upTo h := by
    obtain ⟨start, rest, rfl, ⟨ht, b, hb, -⟩ | ⟨ht, cond, message, hcond, -⟩ | ⟨ht, f, hf, -⟩⟩ :=
      reads_pushMember.mp h
    · exact ((tidies_binding hfull).upTo hb).cons ht rfl
    · exact ((tidies_condition hfull).upTo hcond).cons ht rfl
    · exact ((tidies_field hfull ht).upTo hf).cons rfl ht.isPlain

/-- An object is tidy behind its opening brace. -/
theorem tidies_object (hfull : full.Tidies) {opening : Span} : (object full opening).Tidies where
  upTo h := by
    obtain ⟨members, comma, mid, hmembers, t, rest, rfl, hend⟩ := reads_object.mp h
    have hbefore := (tidies_items (tidies_pushMember hfull) _).upTo hmembers
    obtain ⟨ht, rfl, -⟩ | ⟨ht, hcomp⟩ := hend
    · exact hbefore.concat ht rfl
    · obtain ⟨-, cs, closing, hclauses, -⟩ := reads_objectComp.mp hcomp
      exact (hbefore.concat ht rfl).trans ((tidies_clauses hfull).upTo hclauses)

/-! ## Expressions led by a keyword -/

/-- A rule for expressions that takes tidy tokens, and names and strings in parentheses only. -/
structure KeepsForms (full : Rule TokenStream Expr) : Prop where
  tidies : full.Tidies
  unwraps : full.Unwraps

/-- Parameters stand behind `function` as they should. -/
theorem heads_of_reads_parameters (hfull : full.Unwraps) {t opening : Token} {what : ListItem}
    {ps : Parameters} (ht : t.kind = .keyword .function) (hopening : opening.kind = .punct .parenL)
    (h : (parameters full what).Reads eof ts ps ts') :
    ∃ taken, ts = taken ++ ts' ∧ t.Heads Wrapped (opening :: taken) := by
  obtain ⟨list, hlist, hnames, -⟩ := reads_parameters.mp h
  -- The list has as many expressions as there are names, and each of them is a name.
  have hwords : ∀ e ∈ list.exprs, e.wordKind? = some .identifier := by
    intro e he
    have hmem : e.identifier? ∈ ps.names.map some := hnames ▸ List.mem_map_of_mem he
    obtain ⟨name, -, hname⟩ := List.mem_map.mp hmem
    exact e.wordKind?_of_identifier hname.symm
  obtain ⟨names, rfl, hclosing, hlistOf⟩ := listOf_of_reads_commaList hfull (by simp) hlist hwords
  refine ⟨names ++ [list.closing], by simp, ?_, ?_⟩
  · exact fun _ => ⟨opening, names, list.closing, [], rfl, hopening, hlistOf, hclosing⟩
  · intro hfile
    simp [ht] at hfile

/-- A function literal has a list of names behind its keyword, and a tidy body. -/
theorem tidyUpTo_functionForm (hfull : full.KeepsForms) {t : Token} {out : Expr}
    (ht : t.kind = .keyword .function) (h : (functionForm full).Reads eof (t :: ts) out ts') :
    TidyUpTo (t :: ts) ts' := by
  obtain ⟨opening, mid, rfl, hopening, ps, mid', hps, body, hbody, -⟩ := reads_functionForm.mp h
  have hparts := ((tidies_parameters hfull.tidies).upTo hps).trans (hfull.tidies.upTo hbody)
  refine (hparts.cons hopening rfl).cons_of_heads fun taken htaken => ?_
  -- The parameters and the body are all that is taken behind the keyword.
  obtain ⟨front, rfl, hfront⟩ := heads_of_reads_parameters hfull.unwraps ht hopening hps
  obtain ⟨back, rfl⟩ := hbody.suffix
  have hall : opening :: front ++ back = taken := List.append_cancel_right (by simpa using htaken)
  rw [← hall]
  exact hfront.append back

/-- An import has a string behind its keyword. -/
theorem tidyUpTo_importForm (hfull : full.KeepsForms) {t : Token} {shape : String → Shape Expr}
    {out : Expr} (ht : t.kind ≠ .keyword .function)
    (h : (importForm full shape).Reads eof (t :: ts) out ts') :
    TidyUpTo (t :: ts) ts' := by
  obtain ⟨file, hfile, name, hname, -⟩ := reads_importForm.mp h
  obtain ⟨form, hform⟩ := Expr.wordKind?_of_stringValue hname
  refine (hfull.tidies.upTo hfile).cons_of_heads fun taken htaken =>
    ⟨fun hkind => absurd hkind ht, fun _ => ?_⟩
  -- The string is all that is taken behind the keyword.
  obtain ⟨written, rfl, hwritten⟩ := hfull.unwraps hfile hform
  obtain rfl := List.append_cancel_right htaken
  exact ⟨written, [], (List.append_nil _).symm, hwritten.mono fun t ht => ⟨form, ht⟩⟩

/-- The expressions that a keyword leads.  Only three of the keywords ask for something in
    particular. -/
theorem tidyUpTo_ledBy (hfull : full.KeepsForms) {form : Rule TokenStream Expr} {out : Expr}
    (hform : ledBy? full (eof.next ts).kind = some form) (h : form.Reads eof ts out ts') :
    TidyUpTo ts ts' := by
  cases ts with
  | nil => simp [ledBy?] at hform
  | cons t ts =>
    rw [EndMark.next_cons] at hform
    have hread := hfull.tidies
    -- One case for each keyword, in the order of `ledBy?`.
    unfold ledBy? at hform
    split at hform <;> cases hform
    · next ht =>
      obtain ⟨cond, message, mid, hcond, semicolon, mid', rfl, hsemicolon, rest, hrest, -⟩ :=
        reads_assertForm.mp h
      have hhead := ((tidies_condition hread).upTo hcond).cons ht rfl
      exact (hhead.concat hsemicolon rfl).trans (hread.upTo hrest)
    · next ht =>
      obtain ⟨message, hmessage, -⟩ := reads_errorForm.mp h
      exact (hread.upTo hmessage).cons ht rfl
    · next ht =>
      obtain ⟨cond, mid, hcond, t', mid', rfl, ht', whenTrue, after, htrue, hfalse⟩ :=
        reads_conditionalForm.mp h
      have hhead := ((hread.upTo hcond).cons ht rfl).concat ht' rfl
      obtain ⟨t'', rest, rfl, ht'', whenFalse, hfalse, -⟩ | ⟨-, -, rfl⟩ := hfalse
      · exact ((hhead.trans (hread.upTo htrue)).concat ht'' rfl).trans (hread.upTo hfalse)
      · exact hhead.trans (hread.upTo htrue)
    · next ht => exact tidyUpTo_functionForm hfull ht h
    · next ht => exact tidyUpTo_importForm hfull (by simp [ht]) h
    · next ht => exact tidyUpTo_importForm hfull (by simp [ht]) h
    · next ht =>
      obtain ⟨bs, mid, hbs, semicolon, rest, rfl, hsemicolon, body, hbody, -⟩ :=
        reads_localForm.mp h
      have hhead := ((tidies_bindings hread).upTo hbs).cons ht rfl
      exact (hhead.concat hsemicolon rfl).trans (hread.upTo hbody)

/-! ## Operands and operators -/

/-- An index in brackets is tidy. -/
theorem tidies_indexSelector (hfull : full.Tidies) : (indexSelector full).Tidies :=
  hfull.bind fun _ => (tidies_expect (by simp) rfl).bind fun _ => tidies_pure

/-- A name behind a dot is tidy. -/
theorem tidies_fieldSelector : fieldSelector.Tidies :=
  (tidies_expect (by simp) rfl).bind fun _ => tidies_pure

/-- No operand of one token is one of the three keywords. -/
theorem isPlain_of_terminalShape {t : Token} {shape : Shape Expr}
    (h : terminalShape? t = some shape) :
    t.kind.isPlain = true := by
  unfold terminalShape? at h
  split at h <;> simp_all [TokenKind.isPlain]

/-- An operand of one token is tidy, and so is a selection from `super`. -/
theorem tidies_terminal (hfull : full.Tidies) : (terminal full).Tidies where
  upTo h := by
    obtain ⟨t, rest, rfl, ⟨shape, hshape, -, rfl⟩ | ⟨ht, hsuper⟩⟩ := reads_terminal.mp h
    · exact (TidyUpTo.refl _).cons rfl (isPlain_of_terminalShape hshape)
    · obtain ⟨u, rest', rfl, selector, last, ⟨hu, hselector⟩ | ⟨hu, hselector⟩, -⟩ :=
        reads_superIndex.mp hsuper
      · exact ((tidies_fieldSelector.upTo hselector).cons hu rfl).cons ht rfl
      · exact (((tidies_indexSelector hfull).upTo hselector).cons hu rfl).cons ht rfl

/-- An array or an array comprehension is tidy behind its opening bracket. -/
theorem tidies_array (hfull : full.Tidies) {opening : Span} : (array full opening).Tidies where
  upTo h := by
    obtain ⟨list, hlist, -⟩ | ⟨first, mid, hfirst, comma, mid', hcomma, t, rest, rfl, ht, cs,
      closing, hcs, -⟩ := h.array_cases
    · exact (tidies_commaList hfull).upTo hlist
    · have hbefore := (hfull.upTo hfirst).trans ((tidies_accept (by simp) rfl).upTo hcomma)
      exact (hbefore.concat ht rfl).trans ((tidies_clauses hfull).upTo hcs)

/-- An operand without suffixes is tidy. -/
theorem tidies_primary (hfull : full.Tidies) : (primary full).Tidies where
  upTo h := by
    obtain ⟨t, rest, rfl, ⟨ht, hobject⟩ | ⟨ht, harray⟩ | ⟨ht, hparen⟩⟩ | ⟨-, -, -, hterminal⟩ :=
      reads_primary.mp h
    · exact ((tidies_object hfull).upTo hobject).cons ht rfl
    · exact ((tidies_array hfull).upTo harray).cons ht rfl
    · obtain ⟨mid, hinner, closing, rfl, hclosing⟩ := reads_parenthesised.mp hparen
      exact ((hfull.upTo hinner).cons ht rfl).concat hclosing rfl
    · exact (tidies_terminal hfull).upTo hterminal

/-- A suffix is tidy behind the token that opens it. -/
theorem tidies_suffix (hfull : full.Tidies) {start : Span} {opening : Token} {kind : Suffix}
    {target : Expr} :
    (suffix full start opening kind target).Tidies where
  upTo h := by
    obtain ⟨selector, last, ⟨-, hfield⟩ | ⟨-, hindex⟩, -⟩ | ⟨-, list, mid, hlist, tailStrict,
      hstrict, -⟩ |
      ⟨-, right, hright, -⟩ := reads_suffix.mp h
    · exact tidies_fieldSelector.upTo hfield
    · exact (tidies_indexSelector hfull).upTo hindex
    · exact ((tidies_commaList hfull).upTo hlist).trans ((tidies_accept (by simp) rfl).upTo hstrict)
    · exact (tidies_object hfull).upTo hright

/-- A token that opens a suffix asks for nothing. -/
theorem isPlain_of_suffix {t : Token} {kind : Suffix} (h : Suffix.ofToken? t = some kind) :
    t.kind.isPlain = true := by
  rw [ofToken?_eq_suffix.mp h]
  rfl

/-- An operand with its suffixes is tidy. -/
theorem tidies_operand (hfull : full.Tidies) : (operand full).Tidies where
  upTo h := by
    obtain ⟨first, mid, hfirst, hsuffixes⟩ := reads_operand.mp h
    -- The loop over the suffixes selects tokens that ask for nothing.
    have hrounds :=
      (tidies_whileNext isPlain_of_suffix fun _ _ _ => tidies_suffix hfull).upTo hsuffixes
    exact ((tidies_primary hfull).upTo hfirst).trans hrounds

end Rule

/-- All rules of a level take tidy tokens, and the one for whole expressions keeps to the forms. -/
structure Level.KeepsForms (g : Level TokenStream) : Prop where
  full : g.full.KeepsForms
  expr : ∀ precedence, (g.expr precedence).Tidies
  operand : g.operand.Tidies

namespace Rule

/-- A unary operation is tidy. -/
theorem tidies_unary {g : Level TokenStream} (hg : g.KeepsForms) : (unary g).Tidies where
  upTo h := by
    obtain ⟨t, rest, rfl, ht, op, -, e, he, -⟩ | ⟨-, hoperand⟩ := reads_unary.mp h
    · exact (hg.operand.upTo he).cons ht rfl
    · exact (tidies_operand hg.full.tidies).upTo hoperand

/-- Expressions of the next level are tidy. -/
theorem tidies_expression {g : Level TokenStream} (hg : g.KeepsForms) {precedence : Precedence} :
    (expression g precedence).Tidies where
  upTo h := by
    obtain ⟨form, hform, hread⟩ | ⟨-, left, mid, hleft, hchain⟩ := reads_expression.mp h
    · exact tidyUpTo_ledBy hg.full hform hread
    -- The loop over the operators selects operators only.
    · have hrounds :=
        (tidies_whileNext (fun hop => by rw [(binaryOp?_eq_some.mp hop).1]; rfl) fun _ _ _ =>
        (hg.expr _).bind fun _ => tidies_pure).upTo (reads_binaryChain.mp hchain).1
      exact ((tidies_unary hg).upTo hleft).trans hrounds

/-- Operands of unary operators on the next level are tidy. -/
theorem tidies_unaryOperand {g : Level TokenStream} (hg : g.KeepsForms) :
    (unaryOperand g).Tidies where
  upTo h := by
    obtain ⟨form, hform, hread⟩ | ⟨-, hunary⟩ := reads_unaryOperand.mp h
    · exact tidyUpTo_ledBy hg.full hform hread
    · exact (tidies_unary hg).upTo hunary

end Rule

/-! ## Levels and programs -/

/-- Expressions of every depth keep to the forms. -/
theorem Level.keepsForms_upTo (n : Nat) : (upTo n).KeepsForms := by
  induction n with
  | zero =>
    have hexpr : ∀ precedence, ((upTo 0).expr precedence).Tidies :=
      fun _ => ⟨fun h => absurd h reads_exhausted_expr⟩
    exact ⟨⟨hexpr .loosest, unwraps_upTo 0⟩, hexpr, ⟨fun h => absurd h reads_exhausted_operand⟩⟩
  | succ n ih =>
    have hexpr : ∀ precedence, ((upTo (n + 1)).expr precedence).Tidies :=
      fun _ => ⟨fun h => (Rule.tidies_expression ih).upTo (reads_deepen_expr.mp h)⟩
    exact ⟨⟨hexpr .loosest, unwraps_upTo (n + 1)⟩, hexpr,
      ⟨fun h => (Rule.tidies_unaryOperand ih).upTo (reads_deepen_operand.mp h)⟩⟩

/-- Behind every `function` of an accepted program stands a list of names in parentheses, and behind
    every `import` and `importstr` a string.  Each name and the string may stand in parentheses of
    their own. -/
theorem Token.heads_of_parse {tokens before after : List Token} {t : Token} {root : Expr}
    (h : parse tokens = .ok root) (hsplit : tokensAhead tokens = before ++ t :: after) :
    t.Heads Wrapped after := by
  obtain ⟨taken, htaken, htidy⟩ :=
    (Level.keepsForms_upTo maxNesting).full.tidies.upTo (parse_eq_ok_iff.mp h)
  -- Nothing is left, so everything was taken.
  rw [List.append_nil, hsplit] at htaken
  rw [← htaken] at htidy
  exact htidy.heads

namespace SampleForms

/-- The tokens of `((a))`. -/
def parameters : List Token :=
  [.punct .parenL, .punct .parenL, .identifier "a", .punct .parenR, .punct .parenR].map Symbol.token

/-- The tokens of `("c")`. -/
def file : List Token := [.punct .parenL, .string "c" .double none, .punct .parenR].map Symbol.token

/-- The tokens of `function((a)) import ("c")`. -/
def tokens : List Token :=
  (Symbol.keyword .function).token :: parameters ++ (Symbol.keyword .import).token :: file ++
    [{ kind := .endOfFile, data := "", span := .unset "" }]

/-- The sample is accepted. -/
theorem exists_parse_tokens : ∃ root, parse tokens = .ok root := by
  have hok : (parse tokens).isOk = true := by decide +kernel
  cases h : parse tokens with
  | error e =>
    rw [h] at hok
    cases hok
  | ok root => exact ⟨root, rfl⟩

end SampleForms

/-- In the sample, both the parameter and the file stand in parentheses of their own. -/
theorem Token.heads_of_parse_sample :
    (∃ root, parse SampleForms.tokens = .ok root) ∧
      (Symbol.keyword .function).token.Heads Wrapped
        (SampleForms.parameters ++ (Symbol.keyword .import).token :: SampleForms.file) ∧
      (Symbol.keyword .import).token.Heads Wrapped SampleForms.file := by
  obtain ⟨root, h⟩ := SampleForms.exists_parse_tokens
  have hfunction : tokensAhead SampleForms.tokens = [] ++ (Symbol.keyword .function).token ::
      (SampleForms.parameters ++ (Symbol.keyword .import).token :: SampleForms.file) := rfl
  have himport : tokensAhead SampleForms.tokens =
      ((Symbol.keyword .function).token :: SampleForms.parameters) ++
        (Symbol.keyword .import).token :: SampleForms.file := rfl
  exact ⟨⟨root, h⟩, Token.heads_of_parse h hfunction, Token.heads_of_parse h himport⟩

/-- A list of bare tokens starts with one of them. -/
theorem ListOf.head_of_bare {P : Token → Prop} {ts : List Token} (h : ListOf (Bare P) ts) :
    ts = [] ∨ ∃ t rest, ts = t :: rest ∧ P t := by
  -- In a row, the first item stands in front however many follow.
  have hrow : ∀ {row}, Row (Bare P) row → ∃ t rest, row = t :: rest ∧ P t := by
    intro row hrow
    induction hrow with
    | one hitem =>
      obtain ⟨t, rfl, ht⟩ := hitem
      exact ⟨t, [], rfl, ht⟩
    | more _ _ _ ih =>
      obtain ⟨t, rest, rfl, ht⟩ := ih
      exact ⟨t, _, rfl, ht⟩
  cases h with
  | nil => exact .inl rfl
  | row h => exact .inr (hrow h)
  | trailing h _ =>
    obtain ⟨t, rest, rfl, ht⟩ := hrow h
    exact .inr ⟨t, _, rfl, ht⟩

/-- The names and strings need not be bare: the list of parameters may be `((a))`. -/
theorem Token.not_heads_bare :
    ¬ ∀ (tokens before after : List Token) (t : Token) (root : Expr),
      parse tokens = .ok root → tokens = before ++ t :: after → t.Heads Bare after := by
  intro hall
  obtain ⟨root, h⟩ := SampleForms.exists_parse_tokens
  have hheads := hall SampleForms.tokens [] _ (Symbol.keyword .function).token root h rfl
  obtain ⟨opening, names, closing, more, heq, -, hnames, hclosing⟩ := hheads.parameters rfl
  -- The token behind the opening parenthesis is another one, neither a name nor the closing one.
  have hbehind := (List.cons.inj heq).2
  obtain rfl | ⟨name, rest, rfl, hname⟩ := hnames.head_of_bare
  · rw [← (List.cons.inj hbehind).1] at hclosing
    cases hclosing
  · rw [← (List.cons.inj hbehind).1] at hname
    cases hname

end JsonnetSyntax
