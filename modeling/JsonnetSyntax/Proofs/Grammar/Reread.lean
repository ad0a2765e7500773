import JsonnetSyntax.Proofs.Expr.Places
import JsonnetSyntax.Proofs.Expr.Print
import JsonnetSyntax.Proofs.Expr.WellFormed
import JsonnetSyntax.Proofs.Grammar.Counting

/-!
# Reading back the parts of printed trees

What is printed for a part of a tree is read as that part, up to places.  The lemmas are stated for
a rule `full` that reads back the sub-expressions, and for any tokens `rest` behind the part that
start with a token that ends it.

## Key results

- `Rule.reads_items_of_spelled`: a printed list is read item by item
- `Rule.reads_commaList_of_spelled`, `Rule.rereads_parameters`, `Rule.rereads_bindings`,
  `Rule.rereads_clauses`: lists, parameters, bindings and clauses
- `Rule.rereads_members`: the members of an object
-/

namespace JsonnetSyntax

/-! ## The ends of expressions -/

/-- The kinds of tokens that open no suffix and are no operators. -/
def TokenKind.endsOperand : TokenKind → Bool
  | .punct .dot | .punct .bracketL | .punct .parenL | .punct .braceL | .operator => false
  | _ => true

/-- A token that ends the expression in front of it. -/
def Token.EndsExpr (t : Token) : Prop := t.kind.endsOperand = true ∨ t.isOperator ":" = true

/-- A token of a kind that ends operands ends an expression. -/
theorem Token.EndsExpr.of_kind {t : Token} {kind : TokenKind} (ht : t.kind = kind)
    (hkind : kind.endsOperand = true) : t.EndsExpr := by
  left
  rw [ht]
  exact hkind

/-- No suffix follows an expression that has ended. -/
theorem Token.EndsExpr.suffix {t : Token} (h : t.EndsExpr) : Suffix.ofToken? t = none := by
  -- The kind decides, except for a colon, which is an operator.
  obtain hkind | hcolon := h
  · unfold Suffix.ofToken?
    split <;> simp_all [TokenKind.endsOperand]
  · have hkind : t.kind = .operator := by simp_all [Token.isOperator]
    simp [Suffix.ofToken?, hkind]

/-- No binary operator follows an expression that has ended. -/
theorem Token.EndsExpr.binaryOp {t : Token} (h : t.EndsExpr) (precedence : Precedence) :
    Rule.binaryOp? precedence t = none := by
  obtain hkind | hcolon := h
  · have hoperator : t.kind ≠ .operator := by
      intro hoperator
      simp [hoperator, TokenKind.endsOperand] at hkind
    simp [Rule.binaryOp?, hoperator]
  · have hdata : t.data = ":" := by simp_all [Token.isOperator]
    have hnone : BinaryOp.ofSymbol? ":" = none := by rfl
    simp [Rule.binaryOp?, hdata, hnone]

/-- No stray operator follows an expression that has ended. -/
theorem Token.EndsExpr.isStrayOperator {t : Token} (h : t.EndsExpr) :
    Rule.isStrayOperator t = false := by
  obtain hkind | hcolon := h
  · have hoperator : t.kind ≠ .operator := by
      intro hoperator
      simp [hoperator, TokenKind.endsOperand] at hkind
    simp [Rule.isStrayOperator, hoperator]
  · have hdata : t.data = ":" := by simp_all [Token.isOperator]
    simp [Rule.isStrayOperator, hdata]

namespace Rule

variable {α σ : Type} {eof : EndMark} {full : Rule TokenStream Expr}

/-- A loop ends in front of a token that it does not select. -/
theorem reads_whileNext_stop {β : Type} {select : Token → Option β}
    {body : Token → β → σ → Rule TokenStream σ} {state : σ} {rest : List Token}
    (h : select (eof.next rest) = none) :
    (whileNext select body state).Reads eof rest state rest := by
  refine reads_whileNext.mpr (.inl ⟨rfl, rfl, ?_⟩)
  cases rest with
  | nil => rfl
  | cons t rest => exact h

/-! ## Expressions in parentheses -/

/-- The rule reads an expression back where it stands alone, in front of a closing parenthesis or of
    the end of the file. -/
def RereadsBare (rule : Rule TokenStream Expr) (e : Expr) : Prop :=
  ∀ {eof : EndMark} {tokens rest : List Token}, Spelled tokens e.print →
    (eof.next rest).kind = .punct .parenR ∨ (eof.next rest).kind = .endOfFile →
    ∃ e', rule.Reads eof (tokens ++ rest) e' rest ∧ e'.erase = e.erase

/-- The rule reads an expression back from between parentheses. -/
def Rereads (rule : Rule TokenStream Expr) (e : Expr) : Prop :=
  ∀ {eof : EndMark} {tokens rest : List Token}, Spelled tokens (parenthesise e.print) →
    (eof.next rest).EndsExpr → ∃ e', rule.Reads eof (tokens ++ rest) e' rest ∧ e'.erase = e.erase

/-- The rule reads every token that is an operand on its own. -/
def ReadsTerminals (rule : Rule TokenStream Expr) : Prop :=
  ∀ {eof : EndMark} {t : Token} {shape : Shape Expr} {rest : List Token},
    terminalShape? t = some shape → (eof.next rest).EndsExpr →
    rule.Reads eof (t :: rest) (.node t.span shape) rest

/-- Tokens that say a mark first start with this mark. -/
theorem next_of_spelled_punct {tokens : List Token} {mark : Punct} {ps : List Symbol}
    (h : Spelled tokens (.punct mark :: ps)) (eof : EndMark) (rest : List Token) :
    (eof.next (tokens ++ rest)).kind = .punct mark := by
  obtain ⟨t, tail, ht, -, rfl⟩ := spelled_cons.mp h
  exact ht

/-- A token that may be left out is accepted if it is there. -/
theorem reads_accept_of_spelled {kind : TokenKind} {s : Symbol} {present : Bool}
    {tokens rest : List Token} (htokens : Spelled tokens (if present then [s] else []))
    (hrest : (eof.next rest).kind ≠ kind)
    (hkind : kind ≠ .endOfFile) (hs : ∀ t : Token, t.Spells s → t.kind = kind) :
    (accept kind).Reads eof (tokens ++ rest) present rest := by
  -- The token is there exactly if it was printed.
  cases present with
  | false =>
    have hnil : tokens = [] := spelled_nil.mp htokens
    rw [hnil]
    exact (reads_accept hkind).mpr (.inr ⟨hrest, rfl, rfl⟩)
  | true =>
    obtain ⟨t, ht, rfl⟩ := spelled_singleton.mp htokens
    exact (reads_accept hkind).mpr (.inl ⟨t, rfl, hs t ht, rfl⟩)

/-- What was read agrees with what was printed after one more item, if the items agree. -/
theorem map_toList_push {β : Type} {f : α → β} {seen : Array α} {done : List α} {x x' : α}
    (hseen : seen.toList.map f = done.map f) (hx : f x' = f x) :
    (seen.push x').toList.map f = (done ++ [x]).map f := by
  rw [Array.toList_push, List.map_append, List.map_append, hseen, List.map_singleton, hx,
    List.map_singleton]

/-! ## Lists -/

/-- Each item of a list is read from its printed form in front of a comma or of the end of the list,
    and what was read is related by `I` to the items so far. -/
structure ReadsEach (eof : EndMark) (stops : TokenKind → Bool) (item : σ → Rule TokenStream σ)
    (print : α → List Symbol) (I : σ → List α → Prop) (all : List α) : Prop where
  comma : stops (.punct .comma) = false
  first : ∀ x ∈ all, ∀ {tokens rest}, Spelled tokens (print x) →
    stops (eof.next (tokens ++ rest)).kind = false
  round : ∀ {done x later state tokens rest}, all = done ++ x :: later → I state done →
    Spelled tokens (print x) →
    (eof.next rest).kind = .punct .comma ∨ stops (eof.next rest).kind = true →
    ∃ after, (item state).Reads eof (tokens ++ rest) after rest ∧ I after (done ++ [x])

section Items

variable {stops : TokenKind → Bool} {item : σ → Rule TokenStream σ} {print : α → List Symbol}
  {I : σ → List α → Prop} {all : List α} {rest : List Token}

/-- Behind an item stands a comma, unless nothing of the list is left. -/
theorem next_of_spelled_more {items : List α} {trailingComma : Bool} {tokens : List Token}
    (h : Spelled tokens
      (items.flatMap (fun x => .punct .comma :: print x) ++ optionalComma trailingComma)) :
    (eof.next (tokens ++ rest)).kind = .punct .comma ∨ tokens = [] := by
  cases tokens with
  | nil => exact .inr rfl
  | cons t tokens =>
    left
    cases items with
    | cons x items => exact (List.forall₂_cons.mp h).1
    | nil =>
      cases trailingComma with
      | false => cases h
      | true => exact (List.forall₂_cons.mp h).1

/-- The commas and items behind the first `done` items of a list. -/
theorem reads_moreItems_of_spelled (heach : ReadsEach eof stops item print I all)
    (hrest : stops (eof.next rest).kind = true) {trailingComma : Bool} {done later : List α}
    {state : σ} {tokens : List Token} (hall : all = done ++ later) (hstate : I state done)
    (htokens : Spelled tokens
      (later.flatMap (fun x => .punct .comma :: print x) ++ optionalComma trailingComma)) :
    ∃ out, (moreItems stops item (state, false)).Reads eof (tokens ++ rest) (out, trailingComma)
      rest ∧
      I out all := by
  have hnoComma : comma? (eof.next rest) = none := by
    rw [comma?_eq_none]
    intro hkind
    simp [hkind, heach.comma] at hrest
  -- By induction on the items that are left; `state` has been read from those that are done.
  induction later generalizing done state tokens with
  | nil =>
    rw [List.append_nil] at hall
    cases trailingComma with
    | false =>
      rw [List.flatMap_nil, optionalComma_false, List.append_nil, spelled_nil] at htokens
      rw [htokens, hall]
      exact ⟨state, reads_whileNext_stop hnoComma, hstate⟩
    | true =>
      -- The comma behind the last item is taken by one more round, which reads no item.
      rw [List.flatMap_nil, optionalComma_true, List.nil_append, spelled_singleton] at htokens
      obtain ⟨t, ht, rfl⟩ := htokens
      rw [hall]
      refine ⟨state, ?_, hstate⟩
      refine reads_whileNext.mpr (.inr ⟨t, rest, (), (state, true), rest, rfl, ?_, ?_, ?_⟩)
      · exact comma?_eq_some.mpr ht
      · exact reads_afterComma.mpr (.inl ⟨hrest, rfl, rfl⟩)
      · exact reads_whileNext_stop hnoComma
  | cons x later ih =>
    rw [List.flatMap_cons, List.append_assoc, List.cons_append, spelled_cons] at htokens
    obtain ⟨t, tail, ht, htail, rfl⟩ := htokens
    obtain ⟨front, back, hfront, hback, rfl⟩ := spelled_append.mp htail
    have hx : x ∈ all := by simp [hall]
    -- The item ends where the next comma or the end of the list stands.
    have hbehind : (eof.next (back ++ rest)).kind = .punct .comma ∨
        stops (eof.next (back ++ rest)).kind = true := by
      obtain hnext | rfl := next_of_spelled_more hback
      · exact .inl hnext
      · exact .inr hrest
    obtain ⟨after, hafter, hI⟩ := heach.round hall hstate hfront hbehind
    have hsplit : all = (done ++ [x]) ++ later := by simp [hall]
    obtain ⟨out, hout, hIout⟩ := ih hsplit hI hback
    refine ⟨out, ?_, hIout⟩
    rw [List.cons_append, List.append_assoc]
    refine reads_whileNext.mpr (.inr ⟨t, _, (), (after, false), back ++ rest, rfl, ?_, ?_, hout⟩)
    · exact comma?_eq_some.mpr ht
    · exact reads_afterComma.mpr (.inr ⟨heach.first x hx hfront, after, hafter, rfl⟩)

/-- A printed list is read item by item. -/
theorem reads_items_of_spelled (heach : ReadsEach eof stops item print I all)
    (hrest : stops (eof.next rest).kind = true) {trailingComma : Bool}
    (htrailing : CommaFollowsItem all trailingComma) {start : σ} (hstart : I start [])
    {tokens : List Token}
    (htokens : Spelled tokens (separated (all.map print) ++ optionalComma trailingComma)) :
    ∃ out, (items stops item start).Reads eof (tokens ++ rest) (out, trailingComma) rest ∧
      I out all := by
  cases hall : all with
  | nil =>
    have hflag : trailingComma = false := CommaFollowsItem.eq_false (hall ▸ htrailing)
    rw [hall, hflag, List.map_nil, separated_nil, optionalComma_false, List.append_nil,
      spelled_nil] at htokens
    rw [htokens, hflag]
    exact ⟨start, reads_items.mpr (.inl ⟨hrest, rfl, rfl⟩), hstart⟩
  | cons x later =>
    rw [hall, List.map_cons, separated_cons, List.flatMap_map, List.append_assoc] at htokens
    obtain ⟨front, back, hfront, hback, rfl⟩ := spelled_append.mp htokens
    have hbehind : (eof.next (back ++ rest)).kind = .punct .comma ∨
        stops (eof.next (back ++ rest)).kind = true := by
      obtain hnext | rfl := next_of_spelled_more hback
      · exact .inl hnext
      · exact .inr hrest
    have hsplit : all = [] ++ x :: later := hall
    have hmore : all = [x] ++ later := hall
    -- The first item is read in front of the others; the loop reads these.
    obtain ⟨first, hread, hI⟩ := heach.round hsplit hstart hfront hbehind
    obtain ⟨out, hout, hIout⟩ := reads_moreItems_of_spelled heach hrest hmore hI hback
    have hopen : stops (eof.next (front ++ (back ++ rest))).kind = false :=
      heach.first x (hall ▸ List.mem_cons_self ..) hfront
    rw [List.append_assoc]
    refine ⟨out, reads_items.mpr (.inr ⟨hopen, first, back ++ rest, hread, hout⟩), ?_⟩
    rw [← hall]
    exact hIout

/-- A printed list of expressions is read up to and including the mark that closes it. -/
theorem reads_commaList_of_spelled {closing : Punct} {what : ListItem}
    {I : Array Expr → List α → Prop}
    (heach : ReadsEach eof (· == .punct closing) (pushExpr full) print I all) (hstart : I #[] [])
    {trailingComma : Bool} (htrailing : CommaFollowsItem all trailingComma) {tokens : List Token}
    (htokens : Spelled tokens
      (separated (all.map print) ++ optionalComma trailingComma ++ [.punct closing])) :
    ∃ list, (commaList full closing what).Reads eof (tokens ++ rest) list rest ∧
      I list.exprs.toArray all ∧ list.trailingComma = trailingComma := by
  obtain ⟨front, t, hfront, ht, rfl⟩ := spelled_concat.mp htokens
  have hkind : t.kind = .punct closing := ht
  have hend : ((eof.next (t :: rest)).kind == .punct closing) = true := by
    simpa using hkind
  obtain ⟨out, hout, hI⟩ := reads_items_of_spelled heach hend htrailing hstart hfront
  rw [List.append_assoc]
  exact ⟨⟨out.toList, trailingComma, t⟩, reads_commaList.mpr ⟨hout, ht⟩, hI, rfl⟩

end Items

/-- The marks that close a list end the expressions in it. -/
theorem endsExpr_of_comma_or {t : Token} {closing : Punct}
    (h : t.kind = .punct .comma ∨ (t.kind == .punct closing) = true)
    (hclosing : (TokenKind.punct closing).endsOperand = true) : t.EndsExpr := by
  obtain hcomma | hkind := h
  · exact .of_kind hcomma rfl
  · exact .of_kind (beq_iff_eq.mp hkind) hclosing

/-- Expressions are read back one by one. -/
theorem readsEach_exprs {exprs : List Expr} (hexprs : ∀ e ∈ exprs, full.Rereads e) {closing : Punct}
    (hcomma : closing ≠ .comma) (hparen : closing ≠ .parenL)
    (hclosing : (TokenKind.punct closing).endsOperand = true) :
    ReadsEach eof (· == .punct closing) (pushExpr full) (fun e => parenthesise e.print)
      (fun read done => read.toList.map Expr.erase = done.map Expr.erase) exprs where
  comma := by simp [hcomma.symm]
  first e he tokens rest htokens := by
    rw [next_of_spelled_punct htokens]
    simp [hparen.symm]
  round := by
    intro done e later read tokens rest hsplit hread htokens hnext
    have he : e ∈ exprs := by simp [hsplit]
    obtain ⟨e', he', herase⟩ := hexprs e he htokens (endsExpr_of_comma_or hnext hclosing)
    exact ⟨read.push e', reads_pushExpr.mpr ⟨e', he', rfl⟩, map_toList_push hread herase⟩

/-- Names are read back one by one, as expressions. -/
theorem readsEach_names (hterminals : full.ReadsTerminals) (names : List String) :
    ReadsEach eof (· == .punct .parenR) (pushExpr full) (fun name => [.identifier name])
      (fun read done => read.toList.map Expr.identifier? = done.map some) names where
  comma := rfl
  first name hname tokens rest htokens := by
    obtain ⟨t, tail, ht, -, rfl⟩ := spelled_cons.mp htokens
    simp [ht.1]
  round := by
    intro done name later read tokens rest _ hread htokens hnext
    obtain ⟨t, ⟨hkind, hdata⟩, rfl⟩ := spelled_singleton.mp htokens
    have hshape : terminalShape? t = some (.var t.data t.data) := by simp [terminalShape?, hkind]
    have hvar := hterminals hshape (endsExpr_of_comma_or hnext rfl)
    refine ⟨read.push (.node t.span (.var t.data t.data)), reads_pushExpr.mpr ⟨_, hvar, rfl⟩, ?_⟩
    simp [hread, Expr.identifier?, Expr.shape, hdata]

/-- Parameters are read back. -/
theorem rereads_parameters (hterminals : full.ReadsTerminals) {what : ListItem} {p : Parameters}
    (hwf : p.WellFormed) {tokens rest : List Token}
    (htokens : Spelled tokens (separated (p.names.map fun name => [.identifier name]) ++
      optionalComma p.trailingComma ++ [.punct .parenR])) :
    (parameters full what).Reads eof (tokens ++ rest) p rest := by
  obtain ⟨list, hlist, hnames, hcomma⟩ :=
    reads_commaList_of_spelled (readsEach_names hterminals p.names) rfl hwf htokens
  exact reads_parameters.mpr ⟨list, hlist, by simpa using hnames, hcomma.symm⟩

/-- Parameters are read back, if there are any. -/
theorem rereads_optionalParameters (hterminals : full.ReadsTerminals) {what : ListItem}
    {p : Option Parameters} (hwf : ∀ ps, p = some ps → ps.WellFormed) {tokens rest : List Token}
    (htokens : Spelled tokens (Parameters.printOption p))
    (hrest : (eof.next rest).kind ≠ .punct .parenL) :
    (optionalParameters full what).Reads eof (tokens ++ rest) p rest := by
  cases p with
  | none =>
    have hnil : tokens = [] := spelled_nil.mp htokens
    rw [hnil]
    exact reads_optionalParameters.mpr (.inr ⟨hrest, rfl, rfl⟩)
  | some ps =>
    obtain ⟨t, tail, ht, htail, rfl⟩ := spelled_cons.mp htokens
    have hps : (parameters full what).Reads eof (tail ++ rest) ps rest :=
      rereads_parameters hterminals (hwf ps rfl) htail
    exact reads_optionalParameters.mpr (.inl ⟨t, tail ++ rest, rfl, ht, ps, hps, rfl⟩)

/-! ## Bindings -/

/-- The symbols of a binding, with its body in parentheses. -/
def printBinding (b : Binding Expr) : List Symbol := ((b.map Expr.print).map parenthesise).print

/-- A binding is read back if its name is not taken. -/
theorem rereads_binding (hterminals : full.ReadsTerminals) {taken : String → Bool}
    {b : Binding Expr} (hwf : b.WellFormed) (hbody : full.Rereads b.body)
    (hfree : taken b.name = false)
    {tokens rest : List Token} (htokens : Spelled tokens (printBinding b))
    (hrest : (eof.next rest).EndsExpr) :
    ∃ b', (binding full taken).Reads eof (tokens ++ rest) b' rest ∧
      b'.map Expr.erase = b.map Expr.erase := by
  -- The name, the parameters and `= body`.
  obtain ⟨name, tail, ⟨hkind, hname⟩, htail, rfl⟩ := spelled_cons.mp htokens
  obtain ⟨params, back, hparams, hback, rfl⟩ := spelled_append.mp htail
  obtain ⟨assign, body, hassign, hbodyTokens, rfl⟩ := spelled_cons.mp hback
  have hname : name.data = b.name := hname
  obtain ⟨body', hread, herase⟩ := hbody hbodyTokens hrest
  have hoptional : (optionalParameters full .functionParameter).Reads eof
      (params ++ assign :: (body ++ rest)) b.parameters (assign :: (body ++ rest)) := by
    refine rereads_optionalParameters hterminals hwf hparams ?_
    rw [EndMark.next_cons, hassign.1]
    simp
  refine ⟨⟨b.name, body', b.parameters⟩, ?_, ?_⟩
  · rw [List.cons_append, List.append_assoc, List.cons_append]
    refine reads_binding.mpr
      ⟨name, _, rfl, hkind, hname ▸ hfree, b.parameters, _, hoptional, assign, _, rfl, ?_, body',
      hread, by rw [hname]⟩
    simp [Token.isOperator, hassign.1, hassign.2]
  · simp [Binding.map, herase]

/-- The names of bindings are not places. -/
theorem map_name_of_map_erase {bs bs' : List (Binding Expr)}
    (h : bs'.map (Binding.map Expr.erase) = bs.map (Binding.map Expr.erase)) :
    bs'.map Binding.name = bs.map Binding.name := by
  have hnames := congrArg (List.map Binding.name) h
  rw [List.map_map, List.map_map] at hnames
  exact hnames

/-- One more binding is read back behind those that were read, if all their names are different. -/
theorem rereads_pushBinding (hterminals : full.ReadsTerminals) {seen : Array (Binding Expr)}
    {done : List (Binding Expr)} {b : Binding Expr}
    (hseen : seen.toList.map (Binding.map Expr.erase) = done.map (Binding.map Expr.erase))
    (hwf : b.WellFormed) (hbody : full.Rereads b.body) (hnew : b.name ∉ done.map Binding.name)
    {tokens rest : List Token} (htokens : Spelled tokens (printBinding b))
    (hrest : (eof.next rest).EndsExpr) :
    ∃ out, (pushBinding full seen).Reads eof (tokens ++ rest) out rest ∧
      out.toList.map (Binding.map Expr.erase) = (done ++ [b]).map (Binding.map Expr.erase) := by
  -- The bindings that were read have the names of those that were printed.
  have hfree : (seen.any fun b' => b'.name == b.name) = false := by
    rw [← map_name_of_map_erase hseen] at hnew
    rw [← Array.any_toList, List.any_eq_false]
    intro b' hb' hname
    exact hnew (List.mem_map.mpr ⟨b', hb', beq_iff_eq.mp hname⟩)
  have hbinding : ∃ b', (binding full fun name => seen.any fun b' => b'.name == name).Reads eof
      (tokens ++ rest) b' rest ∧ b'.map Expr.erase = b.map Expr.erase :=
    rereads_binding hterminals hwf hbody hfree htokens hrest
  obtain ⟨b', hread, herase⟩ := hbinding
  exact ⟨seen.push b', reads_pushBinding.mpr ⟨b', hread, rfl⟩, map_toList_push hseen herase⟩

/-- Behind a binding stands a comma or the semicolon behind all bindings. -/
theorem endsExpr_of_spelled_bindings {bs : List (Binding Expr)} {tokens rest : List Token}
    (h : Spelled tokens (bs.flatMap fun b => .punct .comma :: printBinding b))
    (hrest : (eof.next rest).kind = .punct .semicolon) : (eof.next (tokens ++ rest)).EndsExpr := by
  cases bs with
  | nil =>
    have hnil : tokens = [] := spelled_nil.mp h
    rw [hnil]
    exact .of_kind hrest rfl
  | cons b bs =>
    obtain ⟨t, tail, ht, -, rfl⟩ := spelled_cons.mp h
    exact .of_kind ht rfl

/-- Further bindings with commas in front of them are read back behind those that were read. -/
theorem rereads_moreBindings (hterminals : full.ReadsTerminals) {all : List (Binding Expr)}
    (hwf : BindingsWellFormed all) (hbodies : ∀ b ∈ all, full.Rereads b.body) {rest : List Token}
    (hrest : (eof.next rest).kind = .punct .semicolon) {done later : List (Binding Expr)}
    {seen : Array (Binding Expr)} {tokens : List Token} (hall : all = done ++ later)
    (hseen : seen.toList.map (Binding.map Expr.erase) = done.map (Binding.map Expr.erase))
    (htokens : Spelled tokens (later.flatMap fun b => .punct .comma :: printBinding b)) :
    ∃ out, (whileNext comma? (fun _ _ seen => pushBinding full seen) seen).Reads eof
      (tokens ++ rest)
        out rest ∧
      out.toList.map (Binding.map Expr.erase) = all.map (Binding.map Expr.erase) := by
  -- By induction on the bindings that are left; `seen` are those that are done, up to places.
  induction later generalizing done seen tokens with
  | nil =>
    have hnil : tokens = [] := spelled_nil.mp htokens
    rw [List.append_nil] at hall
    rw [hnil, hall]
    exact ⟨seen, reads_whileNext_stop (by simp [hrest]), hseen⟩
  | cons b later ih =>
    rw [List.flatMap_cons, List.cons_append] at htokens
    obtain ⟨t, tail, ht, htail, rfl⟩ := spelled_cons.mp htokens
    obtain ⟨front, back, hfront, hback, rfl⟩ := spelled_append.mp htail
    have hb : b ∈ all := by simp [hall]
    have hnew : b.name ∉ done.map Binding.name := by
      have hnames := hwf.names
      rw [hall, List.map_append, List.nodup_append] at hnames
      intro hmem
      exact hnames.2.2 _ hmem _ (by simp) rfl
    have hbehind := endsExpr_of_spelled_bindings hback hrest
    obtain ⟨after, hafter, hseen'⟩ := rereads_pushBinding hterminals hseen (hwf.each b hb)
      (hbodies b hb) hnew hfront hbehind
    have hsplit : all = (done ++ [b]) ++ later := by simp [hall]
    obtain ⟨out, hout, herase⟩ := ih hsplit hseen' hback
    refine ⟨out, ?_, herase⟩
    rw [List.cons_append, List.append_assoc]
    exact reads_whileNext.mpr
      (.inr ⟨t, _, (), after, back ++ rest, rfl, comma?_eq_some.mpr ht, hafter, hout⟩)

/-- The bindings of `local` are read back. -/
theorem rereads_bindings (hterminals : full.ReadsTerminals) {bs : List (Binding Expr)}
    (hwf : BindingsWellFormed bs) (hbodies : ∀ b ∈ bs, full.Rereads b.body)
    {tokens rest : List Token} (htokens : Spelled tokens (separated (bs.map printBinding)))
    (hrest : (eof.next rest).kind = .punct .semicolon) :
    ∃ bs', (bindings full).Reads eof (tokens ++ rest) bs' rest ∧
      bs'.map (Binding.map Expr.erase) = bs.map (Binding.map Expr.erase) := by
  cases hbs : bs with
  | nil => exact absurd hbs hwf.nonempty
  | cons b later =>
    rw [hbs, List.map_cons, separated_cons, List.flatMap_map] at htokens
    obtain ⟨front, back, hfront, hback, rfl⟩ := spelled_append.mp htokens
    have hb : b ∈ bs := by simp [hbs]
    have hbehind := endsExpr_of_spelled_bindings hback hrest
    have hstart : (#[] : Array (Binding Expr)).toList.map (Binding.map Expr.erase) =
        ([] : List (Binding Expr)).map (Binding.map Expr.erase) := rfl
    obtain ⟨first, hfirst, hseen⟩ := rereads_pushBinding hterminals hstart
      (hwf.each b hb) (hbodies b hb) (by simp) hfront hbehind
    have hsplit : bs = [b] ++ later := hbs
    obtain ⟨all, hall, herase⟩ :=
      rereads_moreBindings hterminals hwf hbodies hrest hsplit hseen hback
    rw [List.append_assoc, ← hbs]
    exact ⟨all.toList, reads_bindings.mpr ⟨first, back ++ rest, hfirst, all, hall, rfl⟩, herase⟩

/-! ## Comprehension clauses -/

/-- The symbols of a clause, with its expression in parentheses. -/
def printClause (c : Clause Expr) : List Symbol := ((c.map Expr.print).map parenthesise).print

/-- A loop is read back behind its keyword. -/
theorem rereads_loopClause {name : String} {source : Expr} (hsource : full.Rereads source)
    {tokens rest : List Token} (htokens : Spelled tokens (printClause (.forIn name source)))
    (hrest : (eof.next rest).EndsExpr) :
    ∃ t tail c, tokens = t :: tail ∧ t.kind = .keyword .for ∧
      (loopClause full).Reads eof (tail ++ rest) c rest ∧
      c.map Expr.erase = .forIn name source.erase := by
  obtain ⟨t, tail, ht, htail, rfl⟩ := spelled_cons.mp htokens
  obtain ⟨var, tail', ⟨hvar, hname⟩, htail', rfl⟩ := spelled_cons.mp htail
  obtain ⟨among, body, hamong, hbody, rfl⟩ := spelled_cons.mp htail'
  obtain ⟨source', hread, herase⟩ := hsource hbody hrest
  refine ⟨t, _, .forIn var.data source', rfl, ht, ?_, ?_⟩
  · exact reads_loopClause.mpr ⟨var, _, rfl, hvar, among, _, rfl, hamong, source', hread, rfl⟩
  · rw [Clause.map, hname, herase]

/-- A clause is read back behind its keyword. -/
theorem rereads_clause {c : Clause Expr} (hexpr : full.Rereads c.expr) {tokens rest : List Token}
    (htokens : Spelled tokens (printClause c)) (hrest : (eof.next rest).EndsExpr) :
    ∃ t tail start c', tokens = t :: tail ∧ ClauseStart.ofToken? t = some start ∧
      (clause full start).Reads eof (tail ++ rest) c' rest ∧
      c'.map Expr.erase = c.map Expr.erase := by
  cases c with
  | forIn name source =>
    obtain ⟨t, tail, c', rfl, ht, hread, herase⟩ := rereads_loopClause hexpr htokens hrest
    exact ⟨t, tail, .loop, c', rfl, ofToken?_eq_clause.mpr ht, reads_clause_loop.mpr hread, herase⟩
  | onlyIf cond =>
    obtain ⟨t, tail, ht, htail, rfl⟩ := spelled_cons.mp htokens
    obtain ⟨cond', hread, herase⟩ := hexpr htail hrest
    have herase : cond'.erase = cond.erase := herase
    refine ⟨t, tail, .condition, .onlyIf cond', rfl, ofToken?_eq_clause.mpr ht, ?_, ?_⟩
    · exact reads_clause_condition.mpr ⟨cond', hread, rfl⟩
    · rw [Clause.map, Clause.map, herase]

/-- Behind a clause stands the keyword of another one or the mark that closes the comprehension. -/
theorem endsExpr_of_spelled_clauses {cs : List (Clause Expr)} {tokens rest : List Token}
    (h : Spelled tokens (cs.flatMap printClause)) (hrest : (eof.next rest).EndsExpr) :
    (eof.next (tokens ++ rest)).EndsExpr := by
  cases cs with
  | nil =>
    have hnil : tokens = [] := spelled_nil.mp h
    rw [hnil]
    exact hrest
  | cons c cs =>
    rw [List.flatMap_cons] at h
    cases c with
    | forIn name source =>
      obtain ⟨t, tail, ht, -, rfl⟩ := spelled_cons.mp h
      exact .of_kind ht rfl
    | onlyIf cond =>
      obtain ⟨t, tail, ht, -, rfl⟩ := spelled_cons.mp h
      exact .of_kind ht rfl

/-- Further clauses are read back behind those that were read. -/
theorem rereads_moreClauses {cs : List (Clause Expr)} (hexprs : ∀ c ∈ cs, full.Rereads c.expr)
    {seen : Array (Clause Expr)} {done : List (Clause Expr)} {tokens rest : List Token}
    (hseen : seen.toList.map (Clause.map Expr.erase) = done.map (Clause.map Expr.erase))
    (htokens : Spelled tokens (cs.flatMap printClause)) (hrest : (eof.next rest).EndsExpr)
    (hstop : ClauseStart.ofToken? (eof.next rest) = none) :
    ∃ out, (whileNext ClauseStart.ofToken?
        (fun _ start seen => return seen.push (← clause full start)) seen).Reads eof
          (tokens ++ rest)
        out rest ∧
      out.toList.map (Clause.map Expr.erase) = (done ++ cs).map (Clause.map Expr.erase) := by
  -- By induction on the clauses that are left; `seen` are those that are done, up to places.
  induction cs generalizing seen done tokens with
  | nil =>
    have hnil : tokens = [] := spelled_nil.mp htokens
    rw [hnil, List.append_nil]
    exact ⟨seen, reads_whileNext_stop hstop, hseen⟩
  | cons c cs ih =>
    rw [List.flatMap_cons] at htokens
    obtain ⟨front, back, hfront, hback, rfl⟩ := spelled_append.mp htokens
    rw [List.forall_mem_cons] at hexprs
    have hbehind := endsExpr_of_spelled_clauses hback hrest
    obtain ⟨t, tail, start, c', rfl, ht, hread, herase⟩ := rereads_clause hexprs.1 hfront hbehind
    obtain ⟨out, hout, hall⟩ := ih hexprs.2 (map_toList_push hseen herase) hback
    rw [List.append_assoc, List.singleton_append] at hall
    refine ⟨out, ?_, hall⟩
    rw [List.append_assoc, List.cons_append]
    refine reads_whileNext.mpr (.inr ⟨t, _, start, seen.push c', back ++ rest, rfl, ht, ?_, hout⟩)
    rw [bind_pure_comp, reads_map]
    exact ⟨c', hread, rfl⟩

/-- The clauses of a comprehension are read back behind the first keyword, up to and including the
    mark that closes them. -/
theorem rereads_clauses {closing : Punct} {cs : List (Clause Expr)} (hstart : StartWithLoop cs)
    (hexprs : ∀ c ∈ cs, full.Rereads c.expr) {tokens rest : List Token}
    (hclosing : (TokenKind.punct closing).endsOperand = true)
    (htokens : Spelled tokens (cs.flatMap printClause ++ [.punct closing])) :
    ∃ t tail cs' last, tokens = t :: tail ∧ t.kind = .keyword .for ∧
      (clauses full closing).Reads eof (tail ++ rest) (cs', last) rest ∧
      cs'.map (Clause.map Expr.erase) = cs.map (Clause.map Expr.erase) := by
  obtain ⟨name, source, later, rfl⟩ := hstart
  -- The first loop, the other clauses and the mark that closes them.
  rw [List.flatMap_cons, List.append_assoc] at htokens
  obtain ⟨front, back, hfront, hback, rfl⟩ := spelled_append.mp htokens
  obtain ⟨more, found, hmore, hfound, rfl⟩ := spelled_concat.mp hback
  rw [List.forall_mem_cons] at hexprs
  have hkind : found.kind = .punct closing := hfound
  have hend : (eof.next (found :: rest)).EndsExpr := .of_kind hkind hclosing
  have hstop : ClauseStart.ofToken? (eof.next (found :: rest)) = none := by
    simp [ClauseStart.ofToken?, hkind]
  have hbehind := endsExpr_of_spelled_clauses hmore hend
  obtain ⟨t, tail', first, rfl, ht, hfirst, herase⟩ := rereads_loopClause hexprs.1 hfront hbehind
  have hseen : #[first].toList.map (Clause.map Expr.erase) =
      [Clause.forIn name source].map (Clause.map Expr.erase) := by
    rw [List.map_singleton, List.map_singleton, herase]
    rfl
  obtain ⟨all, hall, hcs⟩ := rereads_moreClauses hexprs.2 hseen hmore hend hstop
  refine ⟨t, tail' ++ (more ++ [found]), all.toList, found.span, rfl, ht, ?_, hcs⟩
  rw [List.append_assoc, List.append_assoc, List.singleton_append]
  exact reads_clauses.mpr ⟨first, _, hfirst, all, _, hall, found, rest, rfl, hfound, rfl, rfl⟩

/-! ## Members of objects -/

/-- The symbols of a member, with its sub-expressions in parentheses. -/
def printMember (m : Member Expr) : List Symbol := (m.map Expr.print).group.print

/-- A condition and its message are read back, in front of a token that is no operator. -/
theorem rereads_condition {cond : Expr} {message : Option Expr} (hcond : full.Rereads cond)
    (hmessage : ∀ e ∈ message.toList, full.Rereads e) {tokens rest : List Token}
    (htokens : Spelled tokens (parenthesise cond.print ++
      printMessage ((message.map Expr.print).map parenthesise)))
    (hrest : (eof.next rest).kind.endsOperand = true) :
    ∃ cond' message', (condition full).Reads eof (tokens ++ rest) (cond', message') rest ∧
      cond'.erase = cond.erase ∧ message'.map Expr.erase = message.map Expr.erase := by
  obtain ⟨front, back, hfront, hback, rfl⟩ := spelled_append.mp htokens
  rw [List.append_assoc]
  cases message with
  | none =>
    have hnil : back = [] := spelled_nil.mp hback
    rw [hnil, List.nil_append]
    obtain ⟨cond', hread, herase⟩ := hcond hfront (.inl hrest)
    -- What ends the condition is not taken for the colon of a message.
    have hcolon : (eof.next rest).isOperator ":" = false := by
      rw [Token.isOperator, Bool.and_eq_false_iff, beq_eq_false_iff_ne]
      left
      intro hkind
      rw [hkind] at hrest
      cases hrest
    refine ⟨cond', none, ?_, herase, rfl⟩
    exact reads_condition.mpr ⟨cond', rest, hread, .inr ⟨hcolon, rfl, rfl⟩⟩
  | some message =>
    obtain ⟨colon, tail, ⟨hkind, hdata⟩, htail, rfl⟩ := spelled_cons.mp hback
    have hcolon : colon.isOperator ":" = true := by simp [Token.isOperator, hkind, hdata]
    have hend : (eof.next (colon :: (tail ++ rest))).EndsExpr := .inr hcolon
    obtain ⟨cond', hread, herase⟩ := hcond hfront hend
    obtain ⟨message', hread', herase'⟩ := hmessage message (by simp) htail (.inl hrest)
    refine ⟨cond', some message', ?_, herase, by simp [herase']⟩
    exact reads_condition.mpr
      ⟨cond', _, hread, .inl ⟨colon, _, rfl, hcolon, message', hread', rfl⟩⟩

/-- A token that says a string literal is read as this literal. -/
theorem stringShape_of_spells {t : Token} {value : String} {form : StringForm}
    {indent : Option String} (h : t.Spells (.string value form indent)) :
    t.kind = .string form ∧ t.stringShape form = .string value form indent := by
  obtain ⟨hkind, hdata, hindent⟩ := h
  refine ⟨hkind, ?_⟩
  -- Both look for an indent in text blocks only.
  rw [Token.stringShape, hdata, ← hindent, Token.blockIndent, hkind]
  by_cases hform : form = .block
  · simp [hform]
  · simp [hform]

/-- A key is read back behind its first token. -/
theorem rereads_key (eof : EndMark) {k : FieldKey Expr}
    (hliteral : ∀ literal, k = .string literal → ∃ name, literal.stringValue? = some name)
    (hcomputed : ∀ e, k = .computed e → full.Rereads e) {tokens : List Token}
    (htokens : Spelled tokens (k.map Expr.print).group.print) (rest : List Token) :
    ∃ t tail k',
      tokens = t :: tail ∧ StartsKey t.kind ∧ (key full t).Reads eof (tail ++ rest) k' rest ∧
      k'.map Expr.erase = k.map Expr.erase := by
  cases k with
  | identifier name =>
    obtain ⟨t, ⟨hkind, hname⟩, rfl⟩ := spelled_singleton.mp htokens
    have hstart : StartsKey t.kind := hkind ▸ .identifier
    refine ⟨t, [], .identifier t.data, rfl, hstart, ?_, by rw [hname]⟩
    exact (reads_key hstart).mpr (.inl ⟨hkind, rfl, rfl⟩)
  | string literal =>
    obtain ⟨name, hname⟩ := hliteral literal rfl
    obtain ⟨span, shape⟩ := literal
    cases shape with
    | string value form indent =>
      have hprint : Spelled tokens [.string value form indent] := by
        simpa [FieldKey.map, FieldKey.group, FieldKey.print, Shape.map, Shape.group, Shape.print]
          using htokens
      obtain ⟨t, ht, rfl⟩ := spelled_singleton.mp hprint
      obtain ⟨hkind, hshape⟩ := stringShape_of_spells ht
      have hstart : StartsKey t.kind := hkind ▸ .string form
      refine ⟨t, [], .string (.node t.span (t.stringShape form)), rfl, hstart, ?_, ?_⟩
      · exact (reads_key hstart).mpr (.inr (.inl ⟨form, hkind, rfl, rfl⟩))
      · simp [FieldKey.map, hshape]
    | _ => cases hname
  | computed e =>
    obtain ⟨t, tail, ht, htail, rfl⟩ := spelled_cons.mp htokens
    obtain ⟨front, closing, hfront, hclosing, rfl⟩ := spelled_concat.mp htail
    have hend : (eof.next (closing :: rest)).EndsExpr := .of_kind hclosing rfl
    obtain ⟨e', hread, herase⟩ := hcomputed e rfl hfront hend
    have hkind : t.kind = .punct .bracketL := ht
    have hstart : StartsKey t.kind := hkind ▸ .bracket
    refine ⟨t, _, .computed e', rfl, hstart, ?_, by simp [FieldKey.map, herase]⟩
    rw [List.append_assoc]
    exact (reads_key hstart).mpr (.inr (.inr ⟨hkind, e', _, hread, closing, rfl, hclosing, rfl⟩))

/-- Names are not places. -/
theorem stringValue?_erase (e : Expr) : e.erase.stringValue? = e.stringValue? :=
  e.stringValue?_mapSpan _

/-- A key keeps its literal name without places. -/
theorem literalName?_map_erase (k : FieldKey Expr) :
    (k.map Expr.erase).literalName? = k.literalName? := literalName?_map_mapSpan _ k

/-- So does a member that is a field. -/
theorem fieldName?_map_erase (m : Member Expr) : (m.map Expr.erase).fieldName? = m.fieldName? :=
  fieldName?_map_mapSpan _ m

/-- So does a member that is a local variable. -/
theorem localName?_map_erase (m : Member Expr) : (m.map Expr.erase).localName? = m.localName? :=
  localName?_map m

/-- Members that are the same up to places have the same names. -/
theorem map_name?_of_map_erase {name? : Member Expr → Option String}
    (hname? : ∀ m, name? (m.map Expr.erase) = name? m) {ms ms' : List (Member Expr)}
    (h : ms'.map (Member.map Expr.erase) = ms.map (Member.map Expr.erase)) :
    ms'.map name? = ms.map name? := by
  have hnames := congrArg (List.map name?) h
  rw [List.map_map, List.map_map] at hnames
  simpa [Function.comp_def, hname?] using hnames

/-- In a list of different names, no name stands in front of itself. -/
theorem ne_name_of_nodup {name? : α → Option String} {done later : List α} {x : α} {name : String}
    (h : ((done ++ x :: later).filterMap name?).Nodup) (hx : name? x = some name) :
    some name ∉ done.map name? := by
  intro hmem
  obtain ⟨y, hy, hyname⟩ := List.mem_map.mp hmem
  rw [List.filterMap_append, List.nodup_append] at h
  have hfirst : name ∈ done.filterMap name? := List.mem_filterMap.mpr ⟨y, hy, hyname⟩
  have hsecond : name ∈ (x :: later).filterMap name? :=
    List.mem_filterMap.mpr ⟨x, List.mem_cons_self .., hx⟩
  exact h.2.2 name hfirst name hsecond rfl

/-- A field is read back behind the first token of its key, if no field in front of it has its
    name. -/
theorem rereads_field (hterminals : full.ReadsTerminals) {f : Field Expr} (hwf : f.WellFormed)
    (hcomputed : ∀ e, f.key = .computed e → full.Rereads e) (hbody : full.Rereads f.body)
    {seen : Array (Member Expr)}
    (hfresh : ∀ name, f.key.literalName? = some name → ∀ m ∈ seen.toList, m.fieldName? ≠ some name)
    {tokens rest : List Token} (htokens : Spelled tokens (printMember (.field f)))
    (hrest : (eof.next rest).EndsExpr) :
    ∃ t tail f', tokens = t :: tail ∧ StartsKey t.kind ∧
      (field full t seen).Reads eof (tail ++ rest) f' rest ∧
      f'.map Expr.erase = f.map Expr.erase := by
  -- The key, the parameters, the operator and the body.
  obtain ⟨front, back, hfront, hback, rfl⟩ := spelled_append.mp htokens
  obtain ⟨keyTokens, params, hkeyTokens, hparams, rfl⟩ := spelled_append.mp hfront
  obtain ⟨assign, body, ⟨hkind, hsymbol⟩, hbodyTokens, rfl⟩ := spelled_cons.mp hback
  obtain ⟨body', hread, herase⟩ := hbody hbodyTokens hrest
  obtain ⟨t, tail, k, rfl, hstart, hkey, hkeyErase⟩ := rereads_key eof
    hwf.literalKey hcomputed hkeyTokens (params ++ assign :: (body ++ rest))
  have hmethod : (optionalParameters full .methodParameter).Reads eof
      (params ++ assign :: (body ++ rest)) f.method (assign :: (body ++ rest)) := by
    refine rereads_optionalParameters hterminals hwf.parameters hparams ?_
    rw [EndMark.next_cons, hkind]
    simp
  have hassign :
      assignment.Reads eof (assign :: (body ++ rest)) (f.visibility, f.plus) (body ++ rest) :=
    reads_assignment.mpr ⟨assign, rfl, hkind, assignment?_eq_some.mpr hsymbol⟩
  -- The check for earlier fields of the name is the same for the key that was read.
  have hname : k.literalName? = f.key.literalName? := by
    rw [← literalName?_map_erase, hkeyErase, literalName?_map_erase]
  refine ⟨t, tail ++ params ++ assign :: body, ⟨k, f.visibility, f.plus, f.method, body'⟩, by simp,
    hstart, ?_, ?_⟩
  · rw [List.append_assoc, List.append_assoc, List.cons_append]
    exact reads_field.mpr ⟨k, _, hkey, f.method, _, hmethod, f.visibility, f.plus, _, hassign,
      hwf.plainMethod, hname ▸ hfresh, body', hread, rfl⟩
  · simp [Field.map, hkeyErase, herase]

/-- The expression of a computed key can be read back if the sub-expressions of the key can. -/
theorem rereads_of_computed {k : FieldKey Expr} (h : ∀ e ∈ k.children, full.Rereads e) :
    ∀ e, k = .computed e → full.Rereads e := by
  intro e he
  rw [he] at h
  exact List.forall_mem_singleton.mp h

/-- One more member is read back behind those that were read. -/
theorem rereads_pushMember (hterminals : full.ReadsTerminals) {all done later : List (Member Expr)}
    {m : Member Expr} (hall : all = done ++ m :: later) (hwf : MembersWellFormed all)
    (hchildren : ∀ e ∈ m.children, full.Rereads e) {seen : Array (Member Expr)}
    (hseen : seen.toList.map (Member.map Expr.erase) = done.map (Member.map Expr.erase))
    {tokens rest : List Token} (htokens : Spelled tokens (printMember m))
    (hrest : (eof.next rest).kind.endsOperand = true) :
    ∃ m', (pushMember full seen).Reads eof (tokens ++ rest) (seen.push m') rest ∧
      m'.map Expr.erase = m.map Expr.erase := by
  have hm : m.WellFormed := hwf.each m (by simp [hall])
  cases m with
  | assertion cond message =>
    obtain ⟨start, tail, hstart, htail, rfl⟩ := spelled_cons.mp htokens
    obtain ⟨hcond, hmessage⟩ := List.forall_mem_cons.mp hchildren
    obtain ⟨cond', message', hread, hcondErase, hmessageErase⟩ :=
      rereads_condition hcond hmessage htail hrest
    refine ⟨.assertion cond' message', ?_, by simp [Member.map, hcondErase, hmessageErase]⟩
    exact reads_pushMember.mpr
      ⟨start, _, rfl, .inr (.inl ⟨hstart, cond', message', hread, rfl⟩)⟩
  | binding b =>
    obtain ⟨start, tail, hstart, htail, rfl⟩ := spelled_cons.mp htokens
    have hbody : full.Rereads b.body := List.forall_mem_singleton.mp hchildren
    -- The name is not among those of the bindings that were read.
    have hfree : (seen.any fun m => m.localName? == some b.name) = false := by
      have hnames := hwf.localNames
      rw [hall] at hnames
      have hname : (Member.binding b).localName? = some b.name := rfl
      have hnew := ne_name_of_nodup hnames hname
      rw [← map_name?_of_map_erase localName?_map_erase hseen] at hnew
      rw [← Array.any_toList, List.any_eq_false]
      intro m hm hname
      exact hnew (List.mem_map.mpr ⟨m, hm, beq_iff_eq.mp hname⟩)
    have hbinding :
        ∃ b', (binding full fun name => seen.any fun m => m.localName? == some name).Reads
        eof (tail ++ rest) b' rest ∧ b'.map Expr.erase = b.map Expr.erase :=
      rereads_binding hterminals hm hbody hfree htail (.inl hrest)
    obtain ⟨b', hread, herase⟩ := hbinding
    refine ⟨.binding b', ?_, by simp [Member.map, herase]⟩
    exact reads_pushMember.mpr ⟨start, _, rfl, .inl ⟨hstart, b', hread, rfl⟩⟩
  | field f =>
    obtain ⟨hkey, hbody⟩ := List.forall_mem_append.mp hchildren
    -- The name is not among those of the fields that were read.
    have hfresh : ∀ name, f.key.literalName? = some name →
        ∀ m ∈ seen.toList, m.fieldName? ≠ some name := by
      intro name hname m hm hsame
      have hnames := hwf.fieldNames
      rw [hall] at hnames
      have hnew := ne_name_of_nodup hnames hname
      rw [← map_name?_of_map_erase fieldName?_map_erase hseen] at hnew
      exact hnew (List.mem_map.mpr ⟨m, hm, hsame⟩)
    obtain ⟨t, tail, f', rfl, hstart, hread, herase⟩ := rereads_field hterminals hm
      (rereads_of_computed hkey) (List.forall_mem_singleton.mp hbody) hfresh htokens (.inl hrest)
    refine ⟨.field f', ?_, by simp [Member.map, herase]⟩
    exact reads_pushMember.mpr ⟨t, _, rfl, .inr (.inr ⟨hstart, f', hread, rfl⟩)⟩

/-- A printed member starts with no token that ends the members of an object. -/
theorem endsMembers_of_spelled_member {m : Member Expr} (hm : m.WellFormed)
    (hchildren : ∀ e ∈ m.children, full.Rereads e) {tokens rest : List Token}
    (h : Spelled tokens (printMember m)) :
    endsMembers (eof.next (tokens ++ rest)).kind = false := by
  cases m with
  | assertion cond message =>
    obtain ⟨t, tail, ht, -, rfl⟩ := spelled_cons.mp h
    have hkind : t.kind = .keyword .assert := ht
    simp [endsMembers, hkind]
  | binding b =>
    obtain ⟨t, tail, ht, -, rfl⟩ := spelled_cons.mp h
    have hkind : t.kind = .keyword .local := ht
    simp [endsMembers, hkind]
  | field f =>
    obtain ⟨hkey, -⟩ := List.forall_mem_append.mp hchildren
    obtain ⟨front, back, hfront, -, rfl⟩ := spelled_append.mp h
    obtain ⟨keyTokens, params, hkeyTokens, -, rfl⟩ := spelled_append.mp hfront
    obtain ⟨t, tail, -, rfl, hstart, -⟩ :=
      rereads_key eof hm.literalKey (rereads_of_computed hkey) hkeyTokens []
    -- A key starts with a name, a string or a bracket, the end with a brace or a `for`.
    show endsMembers t.kind = false
    generalize t.kind = kind at hstart ⊢
    cases hstart <;> rfl

/-- The members of an object are read back, up to the token that ends them. -/
theorem rereads_members (hterminals : full.ReadsTerminals) {members : List (Member Expr)}
    (hwf : MembersWellFormed members) {trailingComma : Bool}
    (htrailing : CommaFollowsItem members trailingComma)
    (hchildren : ∀ m ∈ members, ∀ e ∈ m.children, full.Rereads e) {tokens rest : List Token}
    (htokens : Spelled tokens (separated (members.map printMember) ++ optionalComma trailingComma))
    (hrest : endsMembers (eof.next rest).kind = true) :
    ∃ out, (items endsMembers (pushMember full) #[]).Reads eof (tokens ++ rest) (out, trailingComma)
        rest ∧
      out.toList.map (Member.map Expr.erase) = members.map (Member.map Expr.erase) := by
  have heach : ReadsEach eof endsMembers (pushMember full) printMember
      (fun seen done => seen.toList.map (Member.map Expr.erase) = done.map (Member.map Expr.erase))
      members := by
    refine ⟨rfl, ?_, ?_⟩
    · intro m hm tokens rest hm'
      exact endsMembers_of_spelled_member (hwf.each m hm) (hchildren m hm) hm'
    · intro done m later seen tokens rest hall hseen hm hnext
      -- A comma, a closing brace and a `for` all end the last expression of a member.
      have hend : (eof.next rest).kind.endsOperand = true := by
        obtain hcomma | hstop := hnext
        · rw [hcomma]
          rfl
        · rw [endsMembers, Bool.or_eq_true, beq_iff_eq, beq_iff_eq] at hstop
          obtain hbrace | hfor := hstop
          · rw [hbrace]
            rfl
          · rw [hfor]
            rfl
      have hmem : m ∈ members := by simp [hall]
      obtain ⟨m', hread, herase⟩ :=
        rereads_pushMember hterminals hall hwf (hchildren m hmem) hseen hm hend
      exact ⟨seen.push m', hread, map_toList_push hseen herase⟩
  exact reads_items_of_spelled heach hrest htrailing rfl htokens

end Rule

end JsonnetSyntax
