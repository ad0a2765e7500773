import JsonnetSyntax.Proofs.Expr.Print
import JsonnetSyntax.Proofs.Grammar.AcceptedTrees

/-!
# Nothing is lost, made up or moved

The tree of a program, written down from left to right, says what the tokens of the program say.
Only parentheses leave no trace in the tree, so they are left out on both sides.  `Writes` is the
invariant: between what a rule was run on and what it leaves stand the tokens that say the printed
value.

## Key results

- `Writes.append`, `Writes.cons`: what stands one after the other is printed one after the other
- `Rule.writes_items`: a list of items with commas, from one item
- `Rule.retells_expression`, `Rule.retells_unaryOperand`: one level of nesting
- `spelled_unparse_of_parse`: the tokens of an accepted program are those of its tree
-/

namespace JsonnetSyntax

/-! ## Tokens that say symbols, parentheses apart -/

/-- The tokens in front of the end `ts'` of `ts` say `ps`, parentheses apart. -/
def Writes (ts : List Token) (ps : List Symbol) (ts' : List Token) : Prop :=
  ∃ taken, ts = taken ++ ts' ∧
    Spelled (taken.filter fun t => !t.isParen) (ps.filter fun s => !s.isParen)

namespace Writes

variable {t : Token} {s : Symbol} {ts mid ts' : List Token} {ps qs : List Symbol}

/-- Where nothing is taken, nothing is said. -/
theorem nil (ts : List Token) : Writes ts [] ts := ⟨[], rfl, .nil⟩

/-- What stands one after the other is printed one after the other. -/
theorem append (hfirst : Writes ts ps mid) (hsecond : Writes mid qs ts') :
    Writes ts (ps ++ qs) ts' := by
  obtain ⟨front, rfl, hfront⟩ := hfirst
  obtain ⟨back, rfl, hback⟩ := hsecond
  refine ⟨front ++ back, (List.append_assoc ..).symm, ?_⟩
  -- What is left out is left out of each of the two rows.
  rw [List.filter_append, List.filter_append]
  exact List.rel_append hfront hback

/-- A token that says a symbol. -/
theorem single (ht : t.Spells s) (ts : List Token) : Writes (t :: ts) [s] ts := by
  refine ⟨[t], rfl, ?_⟩
  -- The token and the symbol are both left out, or both stay.
  have hparen := ht.isParen_eq
  by_cases hs : s.isParen = true
  · simp [hparen, hs]
  · simp [hparen, hs, ht]

/-- A token in front says its symbol in front. -/
theorem cons (ht : t.Spells s) (h : Writes ts ps ts') : Writes (t :: ts) (s :: ps) ts' :=
  (single ht ts).append h

/-- A token behind says its symbol behind. -/
theorem concat (h : Writes ts ps (t :: ts')) (ht : t.Spells s) : Writes ts (ps ++ [s]) ts' :=
  h.append (single ht ts')

/-- A parenthesis in front says nothing. -/
theorem paren_cons (ht : t.isParen = true) (h : Writes ts ps ts') : Writes (t :: ts) ps ts' := by
  obtain ⟨taken, rfl, htaken⟩ := h
  refine ⟨t :: taken, rfl, ?_⟩
  rw [List.filter_cons_of_neg (by simp [ht])]
  exact htaken

/-- A parenthesis behind says nothing. -/
theorem paren_concat (h : Writes ts ps (t :: ts')) (ht : t.isParen = true) : Writes ts ps ts' := by
  have hparen : Writes (t :: ts') [] ts' := (nil ts').paren_cons ht
  simpa using h.append hparen

/-- A string says the name of a file. -/
theorem file {value : String} {form : StringForm} {indent : Option String}
    (h : Writes ts [.string value form indent] ts') : Writes ts [.file value] ts' := by
  obtain ⟨taken, rfl, htaken⟩ := h
  refine ⟨taken, rfl, ?_⟩
  -- A string is no parenthesis, so it is the one token that says something.
  rw [List.filter_cons_of_pos (by rfl), List.filter_nil, spelled_cons] at htaken ⊢
  obtain ⟨t, rest, ht, hrest, htokens⟩ := htaken
  exact ⟨t, rest, ht.file, hrest, htokens⟩

end Writes

namespace Rule

variable {σ : Type} {eof : EndMark} {ts ts' : List Token} {full : Rule TokenStream Expr}

/-- What the rule reads is printed as the tokens it takes say. -/
def Retells {α : Type} (rule : Rule TokenStream α) (print : α → List Symbol) : Prop :=
  ∀ {eof : EndMark} {ts ts' : List Token} {value : α},
    rule.Reads eof ts value ts' → Writes ts (print value) ts'

/-- A rule for expressions loses nothing, and what it reads is well formed. -/
structure Faithful (full : Rule TokenStream Expr) : Prop where
  retells : full.Retells Expr.unparse
  yields : full.Yields Expr.WellFormed

/-! ## Lists -/

/-- A list of items with commas says its items, if every item says itself. -/
theorem writes_items (print : σ → List (List Symbol)) {stops : TokenKind → Bool}
    {item : σ → Rule TokenStream σ} (hcomma : stops (.punct .comma) = false)
    (hitem : ∀ {state after ts ts'}, (item state).Reads eof ts after ts' →
      ∃ ps, print after = print state ++ [ps] ∧ Writes ts ps ts')
    {start : σ} (hstart : print start = []) {out : σ × Bool}
    (h : (items stops item start).Reads eof ts out ts') :
    Writes ts (separated (print out.1) ++ optionalComma out.2) ts' := by
  obtain ⟨-, rfl, rfl⟩ | ⟨-, first, mid, hfirst, hmore⟩ := reads_items.mp h
  · rw [hstart]
    exact Writes.nil _
  · -- The invariant: what was taken so far says the items so far, and there are items.
    have hlist := hmore.moreItems_induction hcomma
      (fun state mid => Writes ts (separated (print state.1) ++ optionalComma state.2) mid ∧
        print state.1 ≠ []) ?_ (by simp) ?_ ?_
    · exact hlist.1
    · obtain ⟨ps, hps, hwrites⟩ := hitem hfirst
      rw [hps, hstart]
      exact ⟨by simpa using hwrites, by simp⟩
    · -- A comma with no item behind it is the last one.
      intro t rest state ht _ hstate
      refine ⟨?_, hstate.2⟩
      have hbefore : Writes ts (separated (print state)) (t :: rest) := by simpa using hstate.1
      exact hbefore.concat ht
    · -- A comma with an item behind it.
      intro t rest state after mid ht hread hstate
      obtain ⟨ps, hps, hwrites⟩ := hitem hread
      have hbefore : Writes ts (separated (print state)) (t :: rest) := by simpa using hstate.1
      refine ⟨?_, by simp [hps]⟩
      rw [hps, separated_concat ps hstate.2, optionalComma_false, List.append_nil]
      exact hbefore.append (hwrites.cons ht)

/-- A list of expressions is printed as it was read, with the mark that closes it. -/
theorem retells_commaList (hfull : full.Retells Expr.unparse) {closing : Punct} {what : ListItem}
    (hclosing : closing ≠ .comma) :
    (commaList full closing what).Retells fun list =>
      separated (list.exprs.map Expr.unparse) ++ optionalComma list.trailingComma ++
        [.punct closing] := by
  intro eof ts ts' list h
  obtain ⟨hitems, hkind⟩ := reads_commaList.mp h
  have hlist := writes_items (fun exprs => exprs.toList.map Expr.unparse)
    (by simp [hclosing.symm]) ?_ rfl hitems
  · exact hlist.concat hkind
  · intro state after ts ts' hread
    obtain ⟨e, he, rfl⟩ := reads_pushExpr.mp hread
    exact ⟨e.unparse, by simp, hfull he⟩

/-- A well-formed expression that is a name is printed as this name. -/
theorem unparse_of_identifier {e : Expr} {name : String} (hwf : e.WellFormed)
    (h : e.identifier? = some name) : e.unparse = [.identifier name] := by
  obtain ⟨span, shape⟩ := e
  cases shape with
  | var id spelling =>
    have hid : id = name := Option.some.inj h
    have hspelling : id = spelling := hwf.shape
    rw [← hid, hspelling]
    exact Expr.unparse_node ..
  | _ => cases h

/-- Parameters were read as expressions; each of them is printed as the name it is. -/
theorem map_unparse_of_names {exprs : List Expr} {names : List String}
    (hwf : ∀ e ∈ exprs, e.WellFormed) (h : exprs.map Expr.identifier? = names.map some) :
    exprs.map Expr.unparse = names.map fun name => [.identifier name] := by
  -- The two lists are as long as each other, and go on item by item.
  induction exprs generalizing names with
  | nil =>
    cases names with
    | nil => rfl
    | cons name names => cases h
  | cons e exprs ih =>
    cases names with
    | nil => cases h
    | cons name names =>
      obtain ⟨hname, hnames⟩ := List.cons.inj h
      rw [List.forall_mem_cons] at hwf
      rw [List.map_cons, List.map_cons, unparse_of_identifier hwf.1 hname, ih hwf.2 hnames]

/-- Parameters behind the parenthesis that opens them. -/
theorem writes_parameters (hfull : full.Faithful) {what : ListItem} {t : Token} {p : Parameters}
    (ht : t.kind = .punct .parenL) (h : (parameters full what).Reads eof ts p ts') :
    Writes (t :: ts) p.print ts' := by
  obtain ⟨list, hlist, hnames, hcomma⟩ := reads_parameters.mp h
  -- The expressions are printed by their spellings, the parameters by their names.
  have hwf := (yields_commaList hfull.yields (by simp) hlist).1
  have hwrites : Writes ts (separated (list.exprs.map Expr.unparse) ++
      optionalComma list.trailingComma ++ [.punct .parenR]) ts' :=
    retells_commaList hfull.retells (by simp) hlist
  rw [map_unparse_of_names hwf hnames, ← hcomma] at hwrites
  exact hwrites.cons (.punct ht)

/-- Parameters that may be missing are printed as they were read. -/
theorem retells_optionalParameters (hfull : full.Faithful) {what : ListItem} :
    (optionalParameters full what).Retells Parameters.printOption := by
  intro eof ts ts' out h
  obtain ⟨t, rest, rfl, ht, p, hp, rfl⟩ | ⟨-, rfl, rfl⟩ := reads_optionalParameters.mp h
  · exact writes_parameters hfull ht hp
  · exact Writes.nil _

/-! ## Bindings and clauses -/

/-- The symbols of a binding. -/
def unparseBinding (b : Binding Expr) : List Symbol := (b.map Expr.unparse).print

/-- The symbols of a clause. -/
def unparseClause (c : Clause Expr) : List Symbol := (c.map Expr.unparse).print

/-- The symbols of a member. -/
def unparseMember (m : Member Expr) : List Symbol := (m.map Expr.unparse).print

/-- An object is printed by its members. -/
theorem unparse_object {span : Span} {members : List (Member Expr)} {trailingComma : Bool} :
    (Expr.node span (.object members trailingComma)).unparse =
      .punct .braceL :: separated (members.map unparseMember) ++ optionalComma trailingComma ++
        [.punct .braceR] := by
  rw [Expr.unparse_node, Shape.map, Shape.print, List.map_map]
  rfl

/-- An object comprehension is printed by its members and its clauses. -/
theorem unparse_objectComp {span : Span} {members : List (Member Expr)} {trailingComma : Bool}
    {cs : List (Clause Expr)} :
    (Expr.node span (.objectComp members trailingComma cs)).unparse =
      .punct .braceL :: separated (members.map unparseMember) ++ optionalComma trailingComma ++
        cs.flatMap unparseClause ++ [.punct .braceR] := by
  rw [Expr.unparse_node, Shape.map, Shape.print, List.map_map, List.flatMap_map]
  rfl

/-- A binding is printed as it was read. -/
theorem retells_binding (hfull : full.Faithful) {taken : String → Bool} :
    (binding full taken).Retells unparseBinding := by
  intro eof ts ts' b h
  obtain ⟨name, mid, rfl, hname, -, ps, mid', hps, assign, rest, rfl, hassign, body, hbody, rfl⟩ :=
    reads_binding.mp h
  have hparameters := retells_optionalParameters hfull hps
  have hvalue := (hfull.retells hbody).cons (.operator hassign)
  exact (hparameters.append hvalue).cons (.identifier hname)

/-- The bindings of a local expression are printed as they were read. -/
theorem retells_bindings (hfull : full.Faithful) :
    (bindings full).Retells fun bs => separated (bs.map unparseBinding) := by
  intro eof ts ts' bs h
  obtain ⟨first, mid, hfirst, all, hall, rfl⟩ := reads_bindings.mp h
  -- There is always a first binding, so each further one stands behind a comma.
  have hloop := hall.whileNext_induction
    (fun seen mid => Writes ts (separated (seen.toList.map unparseBinding)) mid ∧ seen.toList ≠ [])
      ?_ ?_
  · exact hloop.1.1
  · obtain ⟨b, hb, rfl⟩ := reads_pushBinding.mp hfirst
    exact ⟨by simpa using retells_binding hfull hb, by simp⟩
  · intro t rest choice before after mid hcomma hround hbefore
    obtain ⟨b, hb, rfl⟩ := reads_pushBinding.mp hround
    have hbinding := (retells_binding hfull hb).cons (.punct (comma?_eq_some.mp hcomma))
    refine ⟨?_, by simp⟩
    rw [Array.toList_push, List.map_append, List.map_singleton,
      separated_concat _ (by simpa using hbefore.2)]
    exact hbefore.1.append hbinding

/-- A `for` clause is printed as it was read, with its keyword. -/
theorem writes_loopClause (hfull : full.Faithful) {t : Token} {c : Clause Expr}
    (ht : t.kind = .keyword .for) (h : (loopClause full).Reads eof ts c ts') :
    Writes (t :: ts) (unparseClause c) ts' := by
  obtain ⟨name, mid, rfl, hname, among, rest, rfl, hamong, source, hsource, rfl⟩ :=
    reads_loopClause.mp h
  have hin := (hfull.retells hsource).cons (.keyword hamong)
  exact (hin.cons (.identifier hname)).cons (.keyword ht)

/-- A clause is printed as it was read, with its keyword. -/
theorem writes_clause (hfull : full.Faithful) {t : Token} {start : ClauseStart} {c : Clause Expr}
    (ht : ClauseStart.ofToken? t = some start) (h : (clause full start).Reads eof ts c ts') :
    Writes (t :: ts) (unparseClause c) ts' := by
  cases start with
  | loop => exact writes_loopClause hfull (ofToken?_eq_clause.mp ht) (reads_clause_loop.mp h)
  | condition =>
    obtain ⟨e, he, rfl⟩ := reads_clause_condition.mp h
    exact (hfull.retells he).cons (.keyword (ofToken?_eq_clause.mp ht))

/-- Clauses behind the `for` of the first of them, with the mark that closes them. -/
theorem writes_clauses (hfull : full.Faithful) {closing : Punct} {t : Token}
    {cs : List (Clause Expr)} {last : Span} (ht : t.kind = .keyword .for)
    (h : (clauses full closing).Reads eof ts (cs, last) ts') :
    Writes (t :: ts) (cs.flatMap unparseClause ++ [.punct closing]) ts' := by
  obtain ⟨first, mid, hfirst, all, mid', hall, found, rest, rfl, hfound, hout, rfl⟩ :=
    reads_clauses.mp h
  cases hout
  -- Each further clause is said behind the ones in front of it, with its own keyword.
  have hloop := hall.whileNext_induction
    (fun seen mid => Writes (t :: ts) (seen.toList.flatMap unparseClause) mid) ?_ ?_
  · exact hloop.1.concat (.punct hfound)
  · simpa using writes_loopClause hfull ht hfirst
  · intro t' rest' start before after mid hstart hround hbefore
    simp only [bind_pure_comp, reads_map] at hround
    obtain ⟨c, hc, rfl⟩ := hround
    rw [Array.toList_push, List.flatMap_append, List.flatMap_singleton]
    exact hbefore.append (writes_clause hfull hstart hc)

/-! ## Objects -/

/-- A condition with its message is printed as it was read. -/
theorem retells_condition (hfull : full.Faithful) :
    (condition full).Retells fun out => out.1.unparse ++ printMessage (out.2.map Expr.unparse) := by
  intro eof ts ts' out h
  obtain ⟨cond, mid, hcond, hmessage⟩ := reads_condition.mp h
  obtain ⟨colon, rest, rfl, hcolon, message, hread, rfl⟩ | ⟨-, rfl, rfl⟩ := hmessage
  · exact (hfull.retells hcond).append ((hfull.retells hread).cons (.operator hcolon))
  · exact (hfull.retells hcond).append (Writes.nil _)

/-- A string token says the literal that it stands for. -/
theorem spells_stringShape {t : Token} {form : StringForm} (ht : t.kind = .string form) :
    t.Spells
      (.string t.data form (if form = .block then t.block.map TextBlock.indent else none)) := by
  refine ⟨ht, rfl, ?_⟩
  rw [Token.blockIndent, ht]
  by_cases hform : form = .block
  · simp [hform]
  · simp [hform]

/-- The key of a field is printed as it was read, with its first token. -/
theorem writes_key (hfull : full.Faithful) {t : Token} (ht : StartsKey t.kind) {k : FieldKey Expr}
    (h : (key full t).Reads eof ts k ts') : Writes (t :: ts) (k.map Expr.unparse).print ts' := by
  obtain ⟨hkind, rfl, rfl⟩ | ⟨form, hkind, rfl, rfl⟩ | ⟨hkind, e, mid, he, closing, rfl, hclosing,
      rfl⟩ :=
    (reads_key ht).mp h
  · exact Writes.single (.identifier hkind) _
  · show Writes (t :: ts') (Expr.node t.span (t.stringShape form)).unparse ts'
    rw [Expr.unparse_node]
    exact Writes.single (spells_stringShape hkind) _
  · exact ((hfull.retells he).concat (.punct hclosing)).cons (.punct hkind)

/-- A field is printed as it was read, with the first token of its key. -/
theorem writes_field (hfull : full.Faithful) {t : Token} (ht : StartsKey t.kind)
    {seen : Array (Member Expr)} {f : Field Expr} (h : (field full t seen).Reads eof ts f ts') :
    Writes (t :: ts) (unparseMember (.field f)) ts' := by
  obtain ⟨k, mid, hk, method, mid', hmethod, visibility, plus, mid'', hassign, -, -, body, hbody,
      rfl⟩ :=
    reads_field.mp h
  obtain ⟨assign, rfl, hkind, hsymbol⟩ := reads_assignment.mp hassign
  -- The operator says the visibility and the plus sign that were read off it.
  have hvalue :
      Writes (assign :: mid'') (.operator (assignmentSymbol visibility plus) :: body.unparse) ts' :=
    (hfull.retells hbody).cons ⟨hkind, assignment?_eq_some.mp hsymbol⟩
  exact ((writes_key hfull ht hk).append (retells_optionalParameters hfull hmethod)).append hvalue

/-- One more member is read behind those that were read. -/
theorem writes_pushMember (hfull : full.Faithful) {seen out : Array (Member Expr)}
    (h : (pushMember full seen).Reads eof ts out ts') :
    ∃ m, out = seen.push m ∧ Writes ts (unparseMember m) ts' := by
  obtain ⟨start, rest, rfl, hmember⟩ := reads_pushMember.mp h
  obtain ⟨hkind, b, hb, rfl⟩ | ⟨hkind, cond, message, hcond, rfl⟩ | ⟨hkey, f, hf, rfl⟩ := hmember
  · exact ⟨_, rfl, (retells_binding hfull hb).cons (.keyword hkind)⟩
  · exact ⟨_, rfl, (retells_condition hfull hcond).cons (.keyword hkind)⟩
  · exact ⟨_, rfl, writes_field hfull hkey hf⟩

/-- An object behind the brace that opens it. -/
theorem writes_object (hfull : full.Faithful) {t : Token} (ht : t.kind = .punct .braceL)
    {opening : Span} {e : Expr} (h : (object full opening).Reads eof ts e ts') :
    Writes (t :: ts) e.unparse ts' := by
  obtain ⟨members, trailingComma, mid, hitems, found, rest, rfl, hend⟩ := reads_object.mp h
  -- The members between the braces, or in front of the clauses.
  have hmembers := writes_items (fun seen => seen.toList.map unparseMember) rfl ?_ rfl hitems
  · have hopened := hmembers.cons (.punct ht)
    obtain ⟨hfound, rfl, rfl⟩ | ⟨hfound, hcomp⟩ := hend
    · have hclosed := hopened.concat (.punct hfound)
      rw [unparse_object]
      exact hclosed
    · obtain ⟨-, cs, closing, hcs, rfl⟩ := reads_objectComp.mp hcomp
      have hclosed := hopened.append (writes_clauses hfull hfound hcs)
      rw [unparse_objectComp]
      simpa using hclosed
  · intro state after ts ts' hread
    obtain ⟨m, rfl, hwrites⟩ := writes_pushMember hfull hread
    exact ⟨unparseMember m, by simp, hwrites⟩

/-! ## Expressions led by a keyword -/

/-- A string literal is printed as a string. -/
theorem unparse_of_stringValue {e : Expr} {value : String} (h : e.stringValue? = some value) :
    ∃ form indent, e.unparse = [.string value form indent] := by
  obtain ⟨span, shape⟩ := e
  cases shape with
  | string text form indent =>
    have htext : text = value := Option.some.inj h
    rw [← htext]
    exact ⟨form, indent, Expr.unparse_node ..⟩
  | _ => cases h

/-- An assertion is printed as it was read. -/
theorem writes_assertForm (hfull : full.Faithful) {t : Token} {out : Expr}
    (ht : t.kind = .keyword .assert) (h : (assertForm full).Reads eof (t :: ts) out ts') :
    Writes (t :: ts) out.unparse ts' := by
  obtain ⟨cond, message, mid, hcond, semicolon, mid', rfl, hsemicolon, rest, hrest, rfl⟩ :=
    reads_assertForm.mp h
  have hcondition := (retells_condition hfull hcond).cons (.keyword ht)
  rw [Expr.unparse_node]
  exact hcondition.append ((hfull.retells hrest).cons (.punct hsemicolon))

/-- A conditional is printed as it was read. -/
theorem writes_conditionalForm (hfull : full.Faithful) {t : Token} {out : Expr}
    (ht : t.kind = .keyword .if) (h : (conditionalForm full).Reads eof (t :: ts) out ts') :
    Writes (t :: ts) out.unparse ts' := by
  obtain ⟨cond, mid, hcond, t', mid', rfl, ht', whenTrue, after, htrue, hend⟩ :=
    reads_conditionalForm.mp h
  have hcondition := (hfull.retells hcond).cons (.keyword ht)
  have hboth := hcondition.append ((hfull.retells htrue).cons (.keyword ht'))
  obtain ⟨t'', rest, rfl, ht'', whenFalse, hfalse, rfl⟩ | ⟨-, rfl, rfl⟩ := hend
  · rw [Expr.unparse_node]
    exact hboth.append ((hfull.retells hfalse).cons (.keyword ht''))
  · rw [Expr.unparse_node]
    exact hboth.append (Writes.nil _)

/-- A function literal is printed as it was read. -/
theorem writes_functionForm (hfull : full.Faithful) {t : Token} {out : Expr}
    (ht : t.kind = .keyword .function) (h : (functionForm full).Reads eof (t :: ts) out ts') :
    Writes (t :: ts) out.unparse ts' := by
  obtain ⟨opening, mid, rfl, hopening, ps, mid', hps, body, hbody, rfl⟩ := reads_functionForm.mp h
  have hparameters := (writes_parameters hfull hopening hps).cons (.keyword ht)
  rw [Expr.unparse_node]
  exact hparameters.append (hfull.retells hbody)

/-- An import keeps only the text of the string that names the file. -/
theorem writes_importForm (hfull : full.Faithful) {t : Token} {shape : String → Shape Expr}
    {word : Keyword} {out : Expr} (ht : t.kind = .keyword word)
    (hshape : ∀ span name, (Expr.node span (shape name)).unparse = [.keyword word, .file name])
    (h : (importForm full shape).Reads eof (t :: ts) out ts') :
    Writes (t :: ts) out.unparse ts' := by
  obtain ⟨file, hfile, name, hname, rfl⟩ := reads_importForm.mp h
  -- Whatever form the string has, its text is all that an import says.
  obtain ⟨form, indent, hunparse⟩ := unparse_of_stringValue hname
  have hstring := hfull.retells hfile
  rw [hunparse] at hstring
  rw [hshape]
  exact hstring.file.cons (.keyword ht)

/-- A local expression is printed as it was read. -/
theorem writes_localForm (hfull : full.Faithful) {t : Token} {out : Expr}
    (ht : t.kind = .keyword .local) (h : (localForm full).Reads eof (t :: ts) out ts') :
    Writes (t :: ts) out.unparse ts' := by
  obtain ⟨bs, mid, hbs, semicolon, rest, rfl, hsemicolon, body, hbody, rfl⟩ := reads_localForm.mp h
  have hbindings := (retells_bindings hfull hbs).cons (.keyword ht)
  have hlocal := hbindings.append ((hfull.retells hbody).cons (.punct hsemicolon))
  rw [Expr.unparse_node, Shape.map, Shape.print, List.map_map]
  exact hlocal

/-- Every form that a keyword leads is printed as it was read. -/
theorem writes_ledBy (hfull : full.Faithful) {form : Rule TokenStream Expr} {out : Expr}
    (hform : ledBy? full (eof.next ts).kind = some form) (h : form.Reads eof ts out ts') :
    Writes ts out.unparse ts' := by
  cases ts with
  | nil => simp [ledBy?] at hform
  | cons t ts =>
    rw [EndMark.next_cons] at hform
    -- One case for each keyword, in the order of `ledBy?`.
    unfold ledBy? at hform
    split at hform
    · next ht =>
      cases hform
      exact writes_assertForm hfull ht h
    · next ht =>
      cases hform
      obtain ⟨message, hmessage, rfl⟩ := reads_errorForm.mp h
      rw [Expr.unparse_node]
      exact (hfull.retells hmessage).cons (.keyword ht)
    · next ht =>
      cases hform
      exact writes_conditionalForm hfull ht h
    · next ht =>
      cases hform
      exact writes_functionForm hfull ht h
    · next ht =>
      cases hform
      exact writes_importForm hfull ht (fun _ _ => Expr.unparse_node ..) h
    · next ht =>
      cases hform
      exact writes_importForm hfull ht (fun _ _ => Expr.unparse_node ..) h
    · next ht =>
      cases hform
      exact writes_localForm hfull ht h
    · cases hform

/-! ## Operands -/

/-- A selector with the dot or the bracket in front of it. -/
theorem writes_selector (hfull : full.Faithful) {t : Token} {selector : Selector Expr} {last : Span}
    (h : t.kind = .punct .dot ∧ fieldSelector.Reads eof ts (selector, last) ts' ∨
      t.kind = .punct .bracketL ∧ (indexSelector full).Reads eof ts (selector, last) ts') :
    Writes (t :: ts) (selector.map Expr.unparse).print ts' := by
  obtain ⟨ht, hfield⟩ | ⟨ht, hindex⟩ := h
  · obtain ⟨name, rfl, hname, hout⟩ := reads_fieldSelector.mp hfield
    cases hout
    exact (Writes.single (.identifier hname) _).cons (.punct ht)
  · obtain ⟨index, mid, hread, closing, rfl, hclosing, hout⟩ := reads_indexSelector.mp hindex
    cases hout
    exact ((hfull.retells hread).concat (.punct hclosing)).cons (.punct ht)

/-- A token says the construct that it is on its own. -/
theorem writes_of_terminalShape {t : Token} {shape : Shape Expr} (h : terminalShape? t = some shape)
    (ts : List Token) : Writes (t :: ts) (shape.map Expr.unparse).print ts := by
  -- One case for each kind of token, in the order of `terminalShape?`.
  unfold terminalShape? at h
  split at h
  · next ht =>
    obtain ⟨value, -, rfl⟩ := Option.map_eq_some_iff.mp h
    exact Writes.single (.number ht) ts
  · next form ht =>
    cases h
    exact Writes.single (spells_stringShape ht) ts
  · next ht =>
    cases h
    exact Writes.single (.keyword ht) ts
  · next ht =>
    cases h
    exact Writes.single (.keyword ht) ts
  · next ht =>
    cases h
    exact Writes.single (.keyword ht) ts
  · next ht =>
    cases h
    exact Writes.single (.keyword ht) ts
  · next ht =>
    cases h
    exact Writes.single (.punct ht) ts
  · next ht =>
    cases h
    exact Writes.single (.identifier ht) ts
  · cases h

/-- An operand of one token is printed as that token. -/
theorem retells_terminal (hfull : full.Faithful) : (terminal full).Retells Expr.unparse := by
  intro eof ts ts' out h
  obtain ⟨t, rest, rfl, ⟨shape, hshape, rfl, rfl⟩ | ⟨ht, hsuper⟩⟩ := reads_terminal.mp h
  · rw [Expr.unparse_node]
    exact writes_of_terminalShape hshape _
  · obtain ⟨t', rest', rfl, selector, last, hselector, rfl⟩ := reads_superIndex.mp hsuper
    rw [Expr.unparse_node]
    exact (writes_selector hfull hselector).cons (.keyword ht)

/-- A comma that may be missing is printed if it was taken. -/
theorem retells_accept_comma :
    (accept (.punct .comma)).Retells optionalComma := by
  intro eof ts ts' comma h
  obtain ⟨t, rfl, ht, rfl⟩ | ⟨-, rfl, rfl⟩ := (reads_accept (by simp)).mp h
  · exact Writes.single (.punct ht) _
  · exact Writes.nil _

/-- An array behind the bracket that opens it. -/
theorem writes_array (hfull : full.Faithful) {t : Token} (ht : t.kind = .punct .bracketL)
    {opening : Span} {out : Expr} (h : (array full opening).Reads eof ts out ts') :
    Writes (t :: ts) out.unparse ts' := by
  obtain ⟨list, hlist, rfl⟩ |
    ⟨first, mid, hfirst, comma, mid', hcomma, found, rest, rfl, hfound, cs, closing, hcs, rfl⟩ :=
    h.array_cases
  · rw [Expr.unparse_node]
    exact (retells_commaList hfull.retells (by simp) hlist).cons (.punct ht)
  · have hbody := ((hfull.retells hfirst).append (retells_accept_comma hcomma)).cons (.punct ht)
    have hclosed := hbody.append (writes_clauses hfull hfound hcs)
    rw [Expr.unparse_node, Shape.map, Shape.print, List.flatMap_map]
    show Writes (t :: ts) (.punct .bracketL :: first.unparse ++ optionalComma comma ++
      cs.flatMap unparseClause ++ [.punct .bracketR]) ts'
    simpa using hclosed

/-- An operand without suffixes is printed as it was read. -/
theorem retells_primary (hfull : full.Faithful) : (primary full).Retells Expr.unparse := by
  intro eof ts ts' out h
  obtain ⟨t, rest, rfl, ⟨ht, hobject⟩ | ⟨ht, harray⟩ | ⟨ht, hparen⟩⟩ | ⟨-, -, -, hterminal⟩ :=
    reads_primary.mp h
  · exact writes_object hfull ht hobject
  · exact writes_array hfull ht harray
  · -- Here parentheses are dropped.
    obtain ⟨mid, hinner, closing, rfl, hclosing⟩ := reads_parenthesised.mp hparen
    have hwrites :=
      (hfull.retells hinner).paren_concat (by simp [Token.isParen, hclosing, Punct.isParen])
    exact hwrites.paren_cons (by simp [Token.isParen, ht, Punct.isParen])
  · exact retells_terminal hfull hterminal

/-- The mark `tailstrict` is printed if it was taken. -/
theorem retells_tailStrict :
    (accept (.keyword .tailstrict)).Retells fun tailStrict =>
      if tailStrict then [.keyword .tailstrict] else [] := by
  intro eof ts ts' tailStrict h
  obtain ⟨t, rfl, ht, rfl⟩ | ⟨-, rfl, rfl⟩ := (reads_accept (by simp)).mp h
  · exact Writes.single (.keyword ht) _
  · exact Writes.nil _

/-- A suffix with the token that opens it, behind its target. -/
theorem writes_suffix (hfull : full.Faithful) {start : Span} {opening : Token} {kind : Suffix}
    {target out : Expr} (hkind : opening.kind = .punct (suffixMark kind))
    (h : (suffix full start opening kind target).Reads eof ts out ts') :
    ∃ ps, out.unparse = target.unparse ++ ps ∧ Writes (opening :: ts) ps ts' := by
  obtain ⟨selector, last, hselector, rfl⟩ | ⟨rfl, list, mid, hlist, tailStrict, htail, rfl⟩ |
    ⟨rfl, right, hright, rfl⟩ := reads_suffix.mp h
  · refine ⟨(selector.map Expr.unparse).print, Expr.unparse_node .., ?_⟩
    obtain ⟨rfl, hfield⟩ | ⟨rfl, hindex⟩ := hselector
    · exact writes_selector hfull (.inl ⟨hkind, hfield⟩)
    · exact writes_selector hfull (.inr ⟨hkind, hindex⟩)
  · have harguments := (retells_commaList hfull.retells (by simp) hlist).cons (.punct hkind)
    refine ⟨.punct .parenL :: (separated (list.exprs.map Expr.unparse) ++
      optionalComma list.trailingComma ++ [.punct .parenR]) ++
        -- The parentheses of a call are tokens of its own, but they are left out like any others.
        (if tailStrict then [.keyword .tailstrict] else []), ?_, ?_⟩
    · simp [Shape.map, Shape.print]
    · exact harguments.append (retells_tailStrict htail)
  · exact ⟨right.unparse, Expr.unparse_node .., writes_object hfull hkind hright⟩

/-- An operand with its suffixes is printed as it was read. -/
theorem retells_operand (hfull : full.Faithful) : (operand full).Retells Expr.unparse := by
  intro eof ts ts' out h
  obtain ⟨first, mid, hfirst, hsuffixes⟩ := reads_operand.mp h
  -- A suffix is printed behind its target, which says all that was taken before.
  have hloop := hsuffixes.whileNext_induction (fun target mid => Writes ts target.unparse mid) ?_ ?_
  · exact hloop.1
  · exact retells_primary hfull hfirst
  · intro opening rest kind before after mid hopening hround hbefore
    obtain ⟨ps, hps, hwrites⟩ := writes_suffix hfull (ofToken?_eq_suffix.mp hopening) hround
    rw [hps]
    exact hbefore.append hwrites

/-! ## Levels -/

/-- What was read at a lower level is printed as it was read, and is well formed. -/
structure FaithfulLevel (g : Level TokenStream) : Prop where
  expr : ∀ {precedence}, (g.expr precedence).Faithful
  operand : g.operand.Retells Expr.unparse

/-- A unary operation is printed as it was read. -/
theorem retells_unary {g : Level TokenStream} (hg : FaithfulLevel g) :
    (unary g).Retells Expr.unparse := by
  intro eof ts ts' out h
  obtain ⟨t, rest, rfl, ht, op, hop, e, he, rfl⟩ | ⟨-, hplain⟩ := reads_unary.mp h
  · rw [Expr.unparse_node]
    exact (hg.operand he).cons ⟨ht, UnaryOp.ofSymbol?_eq_some.mp hop⟩
  · exact retells_operand hg.expr hplain

/-- Expressions of the next level are printed as they were read. -/
theorem retells_expression {g : Level TokenStream} (hg : FaithfulLevel g)
    {precedence : Precedence} :
    (expression g precedence).Retells Expr.unparse := by
  intro eof ts ts' out h
  obtain ⟨form, hform, hread⟩ | ⟨-, left, mid, hleft, hchain⟩ := reads_expression.mp h
  · exact writes_ledBy hg.expr hform hread
  · obtain ⟨hloop, -⟩ := reads_binaryChain.mp hchain
    -- The left operand says all that was taken in front of the operator.
    have hresult := hloop.whileNext_induction (fun left mid => Writes ts left.unparse mid) ?_ ?_
    · exact hresult.1
    · exact retells_unary hg hleft
    · intro t rest op before after mid hop hround hbefore
      obtain ⟨ht, hsymbol, -⟩ := binaryOp?_eq_some.mp hop
      simp only [bind_pure_comp, reads_map] at hround
      obtain ⟨right, hright, rfl⟩ := hround
      rw [Expr.unparse_node]
      exact hbefore.append ((hg.expr.retells hright).cons ⟨ht, hsymbol⟩)

/-- Operands of unary operators on the next level are printed as they were read. -/
theorem retells_unaryOperand {g : Level TokenStream} (hg : FaithfulLevel g) :
    (unaryOperand g).Retells Expr.unparse := by
  intro eof ts ts' out h
  obtain ⟨form, hform, hread⟩ | ⟨-, hunary⟩ := reads_unaryOperand.mp h
  · exact writes_ledBy hg.expr hform hread
  · exact retells_unary hg hunary

end Rule

/-- At every level of nesting, expressions are printed as they were read. -/
theorem Level.retells_upTo (n : Nat) {precedence : Precedence} :
    ((upTo n).expr precedence).Retells Expr.unparse := by
  -- The level below is faithful in both respects: its trees are well formed, too.
  have hlevels :=
    Level.reads_upTo_induction (P := fun _ ts e ts' => Writes ts e.unparse ts') ?_ ?_ n
  · intro eof ts ts' e h
    exact hlevels.1 h
  · intro n hexpr hoperand precedence eof ts e ts' h
    exact Rule.retells_expression ⟨⟨hexpr, Level.yields_upTo n⟩, hoperand⟩ h
  · intro n hexpr hoperand eof ts e ts' h
    exact Rule.retells_unaryOperand ⟨⟨hexpr, Level.yields_upTo n⟩, hoperand⟩ h

/-- Parsing loses nothing, makes nothing up and changes no order: parentheses apart, the tokens of a
    program say what its tree says from left to right. -/
theorem spelled_unparse_of_parse {tokens : List Token} {eof : Token} {root : Expr}
    (heof : eof.kind = .endOfFile) (htokens : ∀ t ∈ tokens, t.kind ≠ .endOfFile)
    (h : parse (tokens ++ [eof]) = .ok root) :
    Spelled (tokens.filter fun t => !t.isParen) (root.unparse.filter fun s => !s.isParen) := by
  have hread := parse_eq_ok_iff.mp h
  rw [tokensAhead_concat heof htokens] at hread
  -- Nothing is left, so everything was taken.
  obtain ⟨taken, htaken, hspelled⟩ := Level.retells_upTo maxNesting hread
  rw [List.append_nil] at htaken
  rw [htaken]
  exact hspelled

/-- `(import "a") + ((b)(c,) tailstrict)[d]`, with more parentheses than it needs. -/
def sampleTokens : List Token :=
  [.punct .parenL, .keyword .import, .string "a" .double none, .punct .parenR, .operator "+",
    .punct .parenL, .punct .parenL, .identifier "b", .punct .parenR,
    .punct .parenL, .identifier "c", .punct .comma, .punct .parenR, .keyword .tailstrict,
    .punct .parenR, .punct .bracketL, .identifier "d", .punct .bracketR].map Symbol.token

/-- The token behind the last one. -/
def sampleEnd : Token := { kind := .endOfFile, data := "", span := .unset "" }

/-- The sample is accepted, and its tree says its tokens. -/
theorem spelled_unparse_of_parse_sample :
    ∃ root, parse (sampleTokens ++ [sampleEnd]) = .ok root ∧
      Spelled (sampleTokens.filter fun t => !t.isParen)
        (root.unparse.filter fun s => !s.isParen) := by
  have hok : (parse (sampleTokens ++ [sampleEnd])).isOk = true := by decide +kernel
  cases h : parse (sampleTokens ++ [sampleEnd]) with
  | error e =>
    rw [h] at hok
    cases hok
  | ok root => exact ⟨root, rfl, spelled_unparse_of_parse rfl (by decide) h⟩

end JsonnetSyntax
