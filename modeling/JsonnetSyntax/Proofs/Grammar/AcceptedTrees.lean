import JsonnetSyntax.Proofs.Expr.WellFormed
import JsonnetSyntax.Proofs.Grammar.Counting

/-!
# Accepted trees are well formed

Everything that the grammar reads is well formed at every node.  For each rule a `yields_` lemma
says so under the assumption that the rule for whole expressions yields well-formed trees only; the
levels of nesting are then done by induction.  Where a rule looks back at what was read before it
(names that are taken, commas behind the last item), the lemma is about one round of a loop, and the
invariant of the loop is what makes the names of a whole list different.

## Key results

- `Rule.yields_commaList`, `Rule.yields_bindings`, `Rule.yields_object`: lists, bindings and members
- `Rule.yields_expression`, `Rule.yields_unaryOperand`: one level of nesting
- `Level.yields_upTo`: all levels of nesting
- `wellFormed_of_parse`: every node of an accepted tree is well formed
-/

namespace JsonnetSyntax

namespace Rule

variable {eof : EndMark} {ts ts' : List Token} {full : Rule TokenStream Expr}

/-! ## Lists -/

/-- A list of well-formed expressions, which a comma follows only if it is not empty. -/
def ListWellFormed (exprs : List Expr) (trailingComma : Bool) : Prop :=
  (∀ e ∈ exprs, e.WellFormed) ∧ CommaFollowsItem exprs trailingComma

/-- A list of expressions is well formed, with a comma behind an item only. -/
theorem yields_commaList (hfull : full.Yields Expr.WellFormed) {closing : Punct} {what : ListItem}
    (hclosing : closing ≠ .comma) :
    (commaList full closing what).Yields fun list =>
      ListWellFormed list.exprs list.trailingComma := by
  intro eof ts ts' list h
  obtain ⟨hitems, -⟩ := reads_commaList.mp h
  obtain ⟨-, hout, -⟩ | ⟨-, first, mid, hfirst, hmore⟩ := reads_items.mp hitems
  · -- No items at all: there is no comma either.
    have hexprs : list.exprs.toArray = #[] := congrArg Prod.fst hout
    have hcomma : list.trailingComma = false := congrArg Prod.snd hout
    have hnil : list.exprs = [] := by simpa using hexprs
    rw [hnil, hcomma]
    exact ⟨List.forall_mem_nil _, by simp [CommaFollowsItem]⟩
  · -- The invariant: there are items, all of them well formed.
    have hlist := hmore.moreItems_induction (by simp [hclosing.symm])
      (fun state _ => (∀ e ∈ state.1, e.WellFormed) ∧ state.1 ≠ #[]) ?_ (by simp) ?_ ?_
    · obtain ⟨hall, hne⟩ := hlist
      exact ⟨by simpa using hall, fun _ => by simpa using hne⟩
    · obtain ⟨e, he, rfl⟩ := reads_pushExpr.mp hfirst
      exact ⟨by simpa using hfull he, by simp⟩
    · intro t rest state _ _ hstate
      exact hstate
    · intro t rest state after mid _ hitem hstate
      obtain ⟨e, he, rfl⟩ := reads_pushExpr.mp hitem
      exact ⟨Array.forall_mem_push.mpr ⟨hfull he, hstate.1⟩, by simp⟩

/-- Parameters are well formed. -/
theorem yields_parameters (hfull : full.Yields Expr.WellFormed) {what : ListItem} :
    (parameters full what).Yields Parameters.WellFormed := by
  intro eof ts ts' p h
  obtain ⟨list, hlist, hnames, hcomma⟩ := reads_parameters.mp h
  have hwf := yields_commaList hfull (by simp) hlist
  intro htrailing hempty
  -- Without names there were no expressions, and no comma stands behind none.
  rw [hempty, List.map_nil, List.map_eq_nil_iff] at hnames
  exact hwf.2 (hcomma ▸ htrailing) hnames

/-- Parameters that may be missing are well formed where they are there. -/
theorem yields_optionalParameters (hfull : full.Yields Expr.WellFormed) {what : ListItem} :
    (optionalParameters full what).Yields fun out => ∀ p, out = some p → p.WellFormed := by
  intro eof ts ts' out h p hp
  obtain ⟨t, rest, -, -, p', hread, rfl⟩ | ⟨-, rfl, -⟩ := reads_optionalParameters.mp h
  · cases hp
    exact yields_parameters hfull hread
  · cases hp

/-! ## Bindings and clauses -/

/-- A binding that was read has a name that was not taken. -/
theorem yields_binding (hfull : full.Yields Expr.WellFormed) {taken : String → Bool} :
    (binding full taken).Yields fun b =>
      b.WellFormed ∧ b.body.WellFormed ∧ taken b.name = false := by
  intro eof ts ts' b h
  obtain ⟨name, mid, -, -, hfree, ps, mid', hps, assign, rest, -, -, body, hbody, rfl⟩ :=
    reads_binding.mp h
  exact ⟨yields_optionalParameters hfull hps, hfull hbody, hfree⟩

/-- Names stay different when a new one is added. -/
theorem nodup_names_concat {α : Type} {name? : α → Option String} {xs : List α} {x : α}
    (hnames : (xs.filterMap name?).Nodup)
    (hnew : ∀ name, name? x = some name → ∀ y ∈ xs, name? y ≠ some name) :
    ((xs ++ [x]).filterMap name?).Nodup := by
  rw [List.filterMap_append]
  cases hname : name? x with
  -- What has no name repeats none.
  | none =>
    rw [List.filterMap_cons_none hname, List.filterMap_nil, List.append_nil]
    exact hnames
  | some name =>
    rw [List.filterMap_cons_some hname, List.filterMap_nil, List.nodup_append]
    refine ⟨hnames, by simp, ?_⟩
    intro other hother name' hname' heq
    obtain ⟨y, hy, hyname⟩ := List.mem_filterMap.mp hother
    rw [List.mem_singleton] at hname'
    exact hnew name hname y hy (by rw [hyname, heq, hname'])

/-- A binding of a new name can be added to the bindings that were read. -/
theorem bindingsWellFormed_push (hfull : full.Yields Expr.WellFormed)
    {seen out : Array (Binding Expr)} (h : (pushBinding full seen).Reads eof ts out ts')
    (hnames : (seen.toList.map Binding.name).Nodup)
    (hseen : ∀ b ∈ seen.toList, b.WellFormed ∧ b.body.WellFormed) :
    BindingsWellFormed out.toList ∧ ∀ b ∈ out.toList, b.body.WellFormed := by
  obtain ⟨b, hb, rfl⟩ := reads_pushBinding.mp h
  obtain ⟨hwf, hbody, hfree⟩ := yields_binding hfull hb
  -- The rule has looked for the name among the bindings before it.
  have hnew : ∀ b' ∈ seen.toList, b'.name ≠ b.name := by
    simpa [← Array.any_toList] using hfree
  have hall : ∀ b' ∈ seen.toList ++ [b], b'.WellFormed ∧ b'.body.WellFormed := by
    rw [List.forall_mem_append, List.forall_mem_singleton]
    exact ⟨hseen, hwf, hbody⟩
  rw [Array.toList_push]
  refine ⟨⟨by simp, ?_, fun b' hmem => (hall b' hmem).1⟩, fun b' hmem => (hall b' hmem).2⟩
  rw [← List.filterMap_eq_map] at hnames ⊢
  refine nodup_names_concat hnames ?_
  intro name hname b' hb' hname'
  exact hnew b' hb' (Option.some.inj (hname'.trans hname.symm))

/-- Bindings have different names, and there is at least one. -/
theorem yields_bindings (hfull : full.Yields Expr.WellFormed) :
    (bindings full).Yields fun bs => BindingsWellFormed bs ∧ ∀ b ∈ bs, b.body.WellFormed := by
  intro eof ts ts' bs h
  obtain ⟨first, mid, hfirst, all, hall, rfl⟩ := reads_bindings.mp h
  -- The invariant: the bindings so far are well formed, and there is at least one.
  have hloop := hall.whileNext_induction
    (fun seen _ => BindingsWellFormed seen.toList ∧ ∀ b ∈ seen.toList, b.body.WellFormed) ?_ ?_
  · exact hloop.1
  · exact bindingsWellFormed_push hfull hfirst (by simp) (by simp)
  · intro t rest choice before after mid _ hround hbefore
    obtain ⟨hwf, hbodies⟩ := hbefore
    exact bindingsWellFormed_push hfull hround hwf.names fun b hb => ⟨hwf.each b hb, hbodies b hb⟩

/-- A `for` clause has a well-formed source. -/
theorem yields_loopClause (hfull : full.Yields Expr.WellFormed) :
    (loopClause full).Yields fun c =>
      ∃ name source, c = .forIn name source ∧ source.WellFormed := by
  intro eof ts ts' c h
  obtain ⟨name, mid, -, -, among, rest, -, -, source, hsource, rfl⟩ := reads_loopClause.mp h
  exact ⟨name.data, source, rfl, hfull hsource⟩

/-- A clause has a well-formed expression. -/
theorem yields_clause (hfull : full.Yields Expr.WellFormed) {start : ClauseStart} :
    (clause full start).Yields fun c => c.expr.WellFormed := by
  intro eof ts ts' c h
  cases start with
  | loop =>
    obtain ⟨name, source, rfl, hsource⟩ := yields_loopClause hfull (reads_clause_loop.mp h)
    exact hsource
  | condition =>
    obtain ⟨e, he, rfl⟩ := reads_clause_condition.mp h
    exact hfull he

/-- Clauses that a comprehension may have. -/
def ClausesWellFormed (cs : List (Clause Expr)) : Prop :=
  StartWithLoop cs ∧ ∀ c ∈ cs, c.expr.WellFormed

/-- Clauses start with a loop, and their expressions are well formed. -/
theorem yields_clauses (hfull : full.Yields Expr.WellFormed) {closing : Punct} :
    (clauses full closing).Yields fun out => ClausesWellFormed out.1 := by
  intro eof ts ts' out h
  obtain ⟨first, mid, hfirst, all, mid', hall, t, rest, -, -, rfl, -⟩ := reads_clauses.mp h
  -- The first clause is a loop, and it stays the first: further clauses are put behind it.
  have hloop := hall.whileNext_induction (fun seen _ => ClausesWellFormed seen.toList) ?_ ?_
  · exact hloop.1
  · obtain ⟨name, source, rfl, hsource⟩ := yields_loopClause hfull hfirst
    exact ⟨⟨name, source, [], rfl⟩, List.forall_mem_singleton.mpr hsource⟩
  · intro t rest start before after mid _ hround hbefore
    obtain ⟨⟨name, source, cs, hcs⟩, hexprs⟩ := hbefore
    simp only [bind_pure_comp, reads_map] at hround
    obtain ⟨c, hc, rfl⟩ := hround
    rw [Array.toList_push]
    refine ⟨⟨name, source, cs ++ [c], by rw [hcs, List.cons_append]⟩, ?_⟩
    rw [List.forall_mem_append, List.forall_mem_singleton]
    exact ⟨hexprs, yields_clause hfull hc⟩

/-! ## Objects -/

/-- A condition is well formed, and so is its message. -/
theorem yields_condition (hfull : full.Yields Expr.WellFormed) :
    (condition full).Yields fun out =>
      out.1.WellFormed ∧ ∀ message ∈ out.2.toList, message.WellFormed := by
  intro eof ts ts' out h
  obtain ⟨cond, mid, hcond, hmessage⟩ := reads_condition.mp h
  obtain ⟨colon, rest, -, -, message, hread, rfl⟩ | ⟨-, rfl, -⟩ := hmessage
  · exact ⟨hfull hcond, List.forall_mem_singleton.mpr (hfull hread)⟩
  · exact ⟨hfull hcond, List.forall_mem_nil _⟩

/-- The literal that a string token stands for is well formed. -/
theorem wellFormed_stringShape (span : Span) (t : Token) (form : StringForm) :
    (Expr.node span (t.stringShape form)).WellFormed := by
  refine Expr.wellFormed_node.mpr ⟨?_, List.forall_mem_nil _⟩
  show (if form = .block then t.block.map TextBlock.indent else none).isSome → form = .block
  intro hindent
  by_cases hform : form = .block
  · exact hform
  · rw [if_neg hform] at hindent
    cases hindent

/-- The key of a field: a string key is a literal. -/
theorem wellFormed_of_reads_key (hfull : full.Yields Expr.WellFormed) {t : Token}
    (ht : StartsKey t.kind) {k : FieldKey Expr} (h : (key full t).Reads eof ts k ts') :
    (∀ e ∈ k.children, e.WellFormed) ∧
      ∀ literal, k = .string literal → ∃ name, literal.stringValue? = some name := by
  obtain ⟨-, rfl, -⟩ | ⟨form, -, rfl, -⟩ | ⟨-, e, mid, he, closing, -, -, rfl⟩ :=
    (reads_key ht).mp h
  · exact ⟨List.forall_mem_nil _, fun literal hk => by cases hk⟩
  · refine ⟨List.forall_mem_singleton.mpr (wellFormed_stringShape _ _ _), ?_⟩
    intro literal hk
    cases hk
    exact ⟨t.data, rfl⟩
  · exact ⟨List.forall_mem_singleton.mpr (hfull he), fun literal hk => by cases hk⟩

/-- A field that was read has a name that no field before it has. -/
theorem wellFormed_of_reads_field (hfull : full.Yields Expr.WellFormed) {t : Token}
    (ht : StartsKey t.kind) {seen : Array (Member Expr)} {f : Field Expr}
    (h : (field full t seen).Reads eof ts f ts') :
    f.WellFormed ∧ (∀ e ∈ f.children, e.WellFormed) ∧
      ∀ name, f.key.literalName? = some name → ∀ m ∈ seen.toList, m.fieldName? ≠ some name := by
  obtain ⟨k, mid, hk, method, mid', hmethod, visibility, plus, mid'', -, hsugar, hfresh, body,
      hbody, rfl⟩ :=
    reads_field.mp h
  -- What the rule has checked is what a field is asked for: its key, its sign and its name.
  obtain ⟨hchildren, hliteral⟩ := wellFormed_of_reads_key hfull ht hk
  refine ⟨⟨hliteral, hsugar, yields_optionalParameters hfull hmethod⟩, ?_, hfresh⟩
  show ∀ e ∈ k.children ++ [body], e.WellFormed
  rw [List.forall_mem_append, List.forall_mem_singleton]
  exact ⟨hchildren, hfull hbody⟩

/-- Members that an object may have, with their sub-expressions. -/
def MembersRead (members : List (Member Expr)) : Prop :=
  MembersWellFormed members ∧ ∀ m ∈ members, ∀ e ∈ m.children, e.WellFormed

/-- A member can be added to those that were read if its names are new. -/
theorem membersRead_concat {members : List (Member Expr)} {m : Member Expr}
    (hmembers : MembersRead members) (hwf : m.WellFormed)
    (hchildren : ∀ e ∈ m.children, e.WellFormed)
    (hfield : ∀ name, m.fieldName? = some name → ∀ m' ∈ members, m'.fieldName? ≠ some name)
    (hlocal : ∀ name, m.localName? = some name → ∀ m' ∈ members, m'.localName? ≠ some name) :
    MembersRead (members ++ [m]) := by
  obtain ⟨⟨heach, hfieldNames, hlocalNames⟩, hall⟩ := hmembers
  refine ⟨⟨?_, nodup_names_concat hfieldNames hfield, nodup_names_concat hlocalNames hlocal⟩, ?_⟩
  · rw [List.forall_mem_append, List.forall_mem_singleton]
    exact ⟨heach, hwf⟩
  · rw [List.forall_mem_append, List.forall_mem_singleton]
    exact ⟨hall, hchildren⟩

/-- One more member can be read behind those that were read. -/
theorem membersRead_push (hfull : full.Yields Expr.WellFormed) {seen out : Array (Member Expr)}
    (h : (pushMember full seen).Reads eof ts out ts') (hseen : MembersRead seen.toList) :
    MembersRead out.toList ∧ out.toList ≠ [] := by
  obtain ⟨start, rest, -, hmember⟩ := reads_pushMember.mp h
  -- A local binding brings a local name, a field the name of a field, an assertion none.
  obtain ⟨-, b, hb, rfl⟩ | ⟨-, cond, message, hcond, rfl⟩ | ⟨hkey, f, hf, rfl⟩ := hmember
  · obtain ⟨hwf, hbody, hfree⟩ := yields_binding hfull hb
    have hnew : ∀ m ∈ seen.toList, m.localName? ≠ some b.name := by
      simpa [← Array.any_toList] using hfree
    rw [Array.toList_push]
    refine ⟨membersRead_concat hseen hwf (List.forall_mem_singleton.mpr hbody) ?_ ?_, by simp⟩
    · intro name hname
      cases hname
    · intro name hname m hm
      cases hname
      exact hnew m hm
  · obtain ⟨hcondition, hmessage⟩ := yields_condition hfull hcond
    rw [Array.toList_push]
    refine ⟨membersRead_concat hseen trivial (List.forall_mem_cons.mpr ⟨hcondition, hmessage⟩) ?_
      ?_, by simp⟩
    · intro name hname
      cases hname
    · intro name hname
      cases hname
  · obtain ⟨hwf, hchildren, hfresh⟩ := wellFormed_of_reads_field hfull hkey hf
    rw [Array.toList_push]
    refine ⟨membersRead_concat hseen hwf hchildren hfresh ?_, by simp⟩
    intro name hname
    cases hname

/-- The members in front of the end of an object. -/
theorem membersRead_items (hfull : full.Yields Expr.WellFormed) {out : Array (Member Expr) × Bool}
    (h : (items endsMembers (pushMember full) #[]).Reads eof ts out ts') :
    MembersRead out.1.toList ∧ CommaFollowsItem out.1.toList out.2 := by
  have hnone : MembersRead [] := ⟨⟨by simp, by simp, by simp⟩, by simp⟩
  obtain ⟨-, rfl, -⟩ | ⟨-, first, mid, hfirst, hmore⟩ := reads_items.mp h
  · exact ⟨hnone, by simp [CommaFollowsItem]⟩
  · -- The invariant: there are members, and they are those of an object.
    have hmembers := hmore.moreItems_induction rfl
      (fun state _ => MembersRead state.1.toList ∧ state.1.toList ≠ []) ?_ (by simp) ?_ ?_
    · exact ⟨hmembers.1, fun _ => hmembers.2⟩
    · exact membersRead_push hfull hfirst hnone
    · intro t rest state _ _ hstate
      exact hstate
    · intro t rest state after mid _ hitem hstate
      exact membersRead_push hfull hitem hstate.1

/-- An object is well formed, be it a comprehension or not. -/
theorem yields_object (hfull : full.Yields Expr.WellFormed) {opening : Span} :
    (object full opening).Yields fun e => e.WellFormed ∧ e.isObject = true := by
  intro eof ts ts' e h
  obtain ⟨members, trailingComma, mid, hitems, t, rest, -, hend⟩ := reads_object.mp h
  obtain ⟨⟨hmembers, hchildren⟩, hcomma⟩ := membersRead_items hfull hitems
  -- The sub-expressions of an object are those of its members, and of its clauses besides.
  have hexprs : ∀ e ∈ members.toList.flatMap Member.children, e.WellFormed := by
    intro e he
    obtain ⟨m, hm, hmem⟩ := List.mem_flatMap.mp he
    exact hchildren m hm e hmem
  obtain ⟨-, -, rfl⟩ | ⟨-, hcomp⟩ := hend
  · exact ⟨Expr.wellFormed_node.mpr ⟨⟨hmembers, hcomma⟩, hexprs⟩, rfl⟩
  · obtain ⟨hfault, cs, closing, hcs, rfl⟩ := reads_objectComp.mp hcomp
    obtain ⟨hstart, hclauses⟩ := yields_clauses hfull hcs
    have hcomprehensible := comprehensionFault?_eq_none.mp hfault
    refine ⟨Expr.wellFormed_node.mpr ⟨⟨⟨hmembers, hcomma⟩, hcomprehensible, hstart⟩, ?_⟩, rfl⟩
    show ∀ e ∈ members.toList.flatMap Member.children ++ cs.map Clause.expr, e.WellFormed
    rw [List.forall_mem_append, List.forall_mem_map]
    exact ⟨hexprs, hclauses⟩

/-! ## Expressions led by a keyword -/

/-- An assertion is well formed. -/
theorem yields_assertForm (hfull : full.Yields Expr.WellFormed) {t : Token} {out : Expr}
    (h : (assertForm full).Reads eof (t :: ts) out ts') : out.WellFormed := by
  obtain ⟨cond, message, mid, hcond, semicolon, mid', -, -, rest, hrest, rfl⟩ :=
    reads_assertForm.mp h
  obtain ⟨hcondition, hmessage⟩ := yields_condition hfull hcond
  refine Expr.wellFormed_node.mpr ⟨trivial, ?_⟩
  show ∀ e ∈ cond :: (message.toList ++ [rest]), e.WellFormed
  rw [List.forall_mem_cons, List.forall_mem_append, List.forall_mem_singleton]
  exact ⟨hcondition, hmessage, hfull hrest⟩

/-- A conditional is well formed. -/
theorem yields_conditionalForm (hfull : full.Yields Expr.WellFormed) {t : Token} {out : Expr}
    (h : (conditionalForm full).Reads eof (t :: ts) out ts') : out.WellFormed := by
  obtain ⟨cond, mid, hcond, t', mid', -, -, whenTrue, after, htrue, hend⟩ :=
    reads_conditionalForm.mp h
  obtain ⟨t'', rest, -, -, whenFalse, hfalse, rfl⟩ | ⟨-, rfl, -⟩ := hend
  · refine Expr.wellFormed_node.mpr ⟨trivial, ?_⟩
    show ∀ e ∈ [cond, whenTrue, whenFalse], e.WellFormed
    simp [hfull hcond, hfull htrue, hfull hfalse]
  · refine Expr.wellFormed_node.mpr ⟨trivial, ?_⟩
    show ∀ e ∈ [cond, whenTrue], e.WellFormed
    simp [hfull hcond, hfull htrue]

/-- A local expression is well formed. -/
theorem yields_localForm (hfull : full.Yields Expr.WellFormed) {t : Token} {out : Expr}
    (h : (localForm full).Reads eof (t :: ts) out ts') : out.WellFormed := by
  obtain ⟨bs, mid, hbs, semicolon, rest, -, -, body, hbody, rfl⟩ := reads_localForm.mp h
  obtain ⟨hwf, hbodies⟩ := yields_bindings hfull hbs
  refine Expr.wellFormed_node.mpr ⟨hwf, ?_⟩
  show ∀ e ∈ bs.map Binding.body ++ [body], e.WellFormed
  rw [List.forall_mem_append, List.forall_mem_map, List.forall_mem_singleton]
  exact ⟨hbodies, hfull hbody⟩

/-- Every form that a keyword leads is read as a well-formed tree. -/
theorem wellFormed_of_reads_ledBy (hfull : full.Yields Expr.WellFormed)
    {form : Rule TokenStream Expr} {out : Expr} (hform : ledBy? full (eof.next ts).kind = some form)
    (h : form.Reads eof ts out ts') :
    out.WellFormed := by
  cases ts with
  | nil => simp [ledBy?] at hform
  | cons t ts =>
    rw [EndMark.next_cons] at hform
    -- One case for each keyword, in the order of `ledBy?`.
    unfold ledBy? at hform
    split at hform
    · cases hform
      exact yields_assertForm hfull h
    · cases hform
      obtain ⟨message, hmessage, rfl⟩ := reads_errorForm.mp h
      exact Expr.wellFormed_node.mpr ⟨trivial, List.forall_mem_singleton.mpr (hfull hmessage)⟩
    · cases hform
      exact yields_conditionalForm hfull h
    · cases hform
      obtain ⟨opening, mid, -, -, ps, mid', hps, body, hbody, rfl⟩ := reads_functionForm.mp h
      exact Expr.wellFormed_node.mpr
        ⟨yields_parameters hfull hps, List.forall_mem_singleton.mpr (hfull hbody)⟩
    · cases hform
      obtain ⟨file, -, name, -, rfl⟩ := reads_importForm.mp h
      exact Expr.wellFormed_node.mpr ⟨trivial, List.forall_mem_nil _⟩
    · cases hform
      obtain ⟨file, -, name, -, rfl⟩ := reads_importForm.mp h
      exact Expr.wellFormed_node.mpr ⟨trivial, List.forall_mem_nil _⟩
    · cases hform
      exact yields_localForm hfull h
    · cases hform

/-! ## Operands -/

/-- A selector behind a dot or a bracket. -/
theorem wellFormed_of_reads_selector (hfull : full.Yields Expr.WellFormed)
    {selector : Selector Expr} {last : Span} {P Q : Prop}
    (h : P ∧ fieldSelector.Reads eof ts (selector, last) ts' ∨
      Q ∧ (indexSelector full).Reads eof ts (selector, last) ts') :
    ∀ e ∈ selector.children, e.WellFormed := by
  -- Only an index is an expression; a name is none.
  obtain ⟨-, hfield⟩ | ⟨-, hindex⟩ := h
  · obtain ⟨name, -, -, hout⟩ := reads_fieldSelector.mp hfield
    cases hout
    exact List.forall_mem_nil _
  · obtain ⟨index, mid, hread, closing, -, -, hout⟩ := reads_indexSelector.mp hindex
    cases hout
    exact List.forall_mem_singleton.mpr (hfull hread)

/-- The construct that a token is on its own is well formed and has no sub-expressions. -/
theorem wellFormed_of_terminalShape {t : Token} {span : Span} {shape : Shape Expr}
    (h : terminalShape? t = some shape) : (Expr.node span shape).WellFormed := by
  -- One case for each kind of token; numbers, strings and names have something to show.
  unfold terminalShape? at h
  split at h
  · obtain ⟨value, hvalue, rfl⟩ := Option.map_eq_some_iff.mp h
    exact Expr.wellFormed_node.mpr ⟨hvalue, List.forall_mem_nil _⟩
  · cases h
    exact wellFormed_stringShape _ _ _
  · cases h
    exact Expr.wellFormed_node.mpr ⟨trivial, List.forall_mem_nil _⟩
  · cases h
    exact Expr.wellFormed_node.mpr ⟨trivial, List.forall_mem_nil _⟩
  · cases h
    exact Expr.wellFormed_node.mpr ⟨trivial, List.forall_mem_nil _⟩
  · cases h
    exact Expr.wellFormed_node.mpr ⟨trivial, List.forall_mem_nil _⟩
  · cases h
    exact Expr.wellFormed_node.mpr ⟨trivial, List.forall_mem_nil _⟩
  · cases h
    exact Expr.wellFormed_node.mpr ⟨rfl, List.forall_mem_nil _⟩
  · cases h

/-- An operand of one token is well formed. -/
theorem yields_terminal (hfull : full.Yields Expr.WellFormed) :
    (terminal full).Yields Expr.WellFormed := by
  intro eof ts ts' out h
  obtain ⟨t, rest, -, ⟨shape, hshape, rfl, -⟩ | ⟨-, hsuper⟩⟩ := reads_terminal.mp h
  · exact wellFormed_of_terminalShape hshape
  · obtain ⟨t', rest', -, selector, last, hselector, rfl⟩ := reads_superIndex.mp hsuper
    exact Expr.wellFormed_node.mpr ⟨trivial, wellFormed_of_reads_selector hfull hselector⟩

/-- An array is well formed, be it a comprehension or not. -/
theorem yields_array (hfull : full.Yields Expr.WellFormed) {opening : Span} :
    (array full opening).Yields Expr.WellFormed := by
  intro eof ts ts' out h
  obtain ⟨list, hlist, rfl⟩ | ⟨first, mid, hfirst, comma, mid', -, t, rest, -, -, cs, closing, hcs,
      rfl⟩ :=
    h.array_cases
  · obtain ⟨helements, hcomma⟩ := yields_commaList hfull (by simp) hlist
    exact Expr.wellFormed_node.mpr ⟨hcomma, helements⟩
  · obtain ⟨hstart, hclauses⟩ := yields_clauses hfull hcs
    refine Expr.wellFormed_node.mpr ⟨hstart, ?_⟩
    show ∀ e ∈ first :: cs.map Clause.expr, e.WellFormed
    rw [List.forall_mem_cons, List.forall_mem_map]
    exact ⟨hfull hfirst, hclauses⟩

/-- An operand without suffixes is well formed. -/
theorem yields_primary (hfull : full.Yields Expr.WellFormed) :
    (primary full).Yields Expr.WellFormed := by
  intro eof ts ts' out h
  obtain ⟨t, rest, -, ⟨-, hobject⟩ | ⟨-, harray⟩ | ⟨-, hparen⟩⟩ | ⟨-, -, -, hterminal⟩ :=
    reads_primary.mp h
  · exact (yields_object hfull hobject).1
  · exact yields_array hfull harray
  · obtain ⟨mid, hinner, -⟩ := reads_parenthesised.mp hparen
    exact hfull hinner
  · exact yields_terminal hfull hterminal

/-- A suffix of a well-formed expression makes a well-formed expression. -/
theorem wellFormed_of_reads_suffix (hfull : full.Yields Expr.WellFormed) {start : Span}
    {opening : Token} {kind : Suffix} {target out : Expr} (htarget : target.WellFormed)
    (h : (suffix full start opening kind target).Reads eof ts out ts') : out.WellFormed := by
  obtain ⟨selector, last, hselector, rfl⟩ | ⟨-, list, mid, hlist, tailStrict, -, rfl⟩ |
    ⟨-, right, hright, rfl⟩ := reads_suffix.mp h
  -- The target is the first sub-expression of whatever the suffix makes of it.
  · refine Expr.wellFormed_node.mpr ⟨trivial, ?_⟩
    exact List.forall_mem_cons.mpr ⟨htarget, wellFormed_of_reads_selector hfull hselector⟩
  · obtain ⟨harguments, hcomma⟩ := yields_commaList hfull (by simp) hlist
    exact Expr.wellFormed_node.mpr ⟨hcomma, List.forall_mem_cons.mpr ⟨htarget, harguments⟩⟩
  · obtain ⟨hwf, hobject⟩ := yields_object hfull hright
    refine Expr.wellFormed_node.mpr ⟨hobject, ?_⟩
    exact List.forall_mem_cons.mpr ⟨htarget, List.forall_mem_singleton.mpr hwf⟩

/-- An operand with its suffixes is well formed. -/
theorem yields_operand (hfull : full.Yields Expr.WellFormed) :
    (operand full).Yields Expr.WellFormed := by
  intro eof ts ts' out h
  obtain ⟨first, mid, hfirst, hsuffixes⟩ := reads_operand.mp h
  -- Each suffix has all that was read before it as its target.
  have hloop := hsuffixes.whileNext_induction (fun target _ => target.WellFormed) ?_ ?_
  · exact hloop.1
  · exact yields_primary hfull hfirst
  · intro t rest kind before after mid _ hround hbefore
    exact wellFormed_of_reads_suffix hfull hbefore hround

/-! ## Levels -/

/-- A unary operation is well formed. -/
theorem yields_unary {g : Level TokenStream}
    (hexpr : ∀ {precedence}, (g.expr precedence).Yields Expr.WellFormed)
    (hoperand : g.operand.Yields Expr.WellFormed) : (unary g).Yields Expr.WellFormed := by
  intro eof ts ts' out h
  obtain ⟨t, rest, -, -, op, -, e, he, rfl⟩ | ⟨-, hplain⟩ := reads_unary.mp h
  · exact Expr.wellFormed_node.mpr ⟨trivial, List.forall_mem_singleton.mpr (hoperand he)⟩
  · exact yields_operand hexpr hplain

/-- Expressions of the next level are well formed. -/
theorem yields_expression {g : Level TokenStream}
    (hexpr : ∀ {precedence}, (g.expr precedence).Yields Expr.WellFormed)
    (hoperand : g.operand.Yields Expr.WellFormed) {precedence : Precedence} :
    (expression g precedence).Yields Expr.WellFormed := by
  intro eof ts ts' out h
  obtain ⟨form, hform, hread⟩ | ⟨-, left, mid, hleft, hchain⟩ := reads_expression.mp h
  · exact wellFormed_of_reads_ledBy hexpr hform hread
  · obtain ⟨hloop, -⟩ := reads_binaryChain.mp hchain
    -- Each operator has all that was read before it as its left operand.
    have hresult := hloop.whileNext_induction (fun left _ => left.WellFormed) ?_ ?_
    · exact hresult.1
    · exact yields_unary hexpr hoperand hleft
    · intro t rest op before after mid _ hround hbefore
      simp only [bind_pure_comp, reads_map] at hround
      obtain ⟨right, hright, rfl⟩ := hround
      refine Expr.wellFormed_node.mpr ⟨trivial, ?_⟩
      exact List.forall_mem_cons.mpr ⟨hbefore, List.forall_mem_singleton.mpr (hexpr hright)⟩

/-- Operands of unary operators on the next level are well formed. -/
theorem yields_unaryOperand {g : Level TokenStream}
    (hexpr : ∀ {precedence}, (g.expr precedence).Yields Expr.WellFormed)
    (hoperand : g.operand.Yields Expr.WellFormed) : (unaryOperand g).Yields Expr.WellFormed := by
  intro eof ts ts' out h
  obtain ⟨form, hform, hread⟩ | ⟨-, hunary⟩ := reads_unaryOperand.mp h
  · exact wellFormed_of_reads_ledBy hexpr hform hread
  · exact yields_unary hexpr hoperand hunary

end Rule

/-- At every level of nesting, only well-formed trees are read. -/
theorem Level.yields_upTo (n : Nat) {precedence : Precedence} :
    ((upTo n).expr precedence).Yields Expr.WellFormed :=
  (Level.reads_upTo_induction (P := fun _ _ e _ => e.WellFormed)
    (fun _ hexpr hoperand => Rule.yields_expression hexpr hoperand)
    (fun _ hexpr hoperand => Rule.yields_unaryOperand hexpr hoperand) n).1

/-- Every node of an accepted tree is well formed: names that have to be different are, commas
    behind the last item follow an item, comprehensions start with a loop, and so on down
    `Shape.WellFormed`. -/
theorem wellFormed_of_parse {tokens : List Token} {root : Expr} (h : parse tokens = .ok root) :
    ∀ e : Expr, e.IsWithin root → e.shape.WellFormed := by
  have hread := parse_eq_ok_iff.mp h
  exact Level.yields_upTo maxNesting hread

/-- A program with methods, literal and computed keys, an assertion, trailing commas, a text block
    and comprehensions. -/
def sampleSource : String :=
  "local f(x,) = x, y = self; \x7b a: 1, 'b'+:: f(y,), local z = $, assert y : \"m\" \x7d" ++
    "\x7b ['k' + k]: super.v, for k in [|||\n  a\n|||,] if [!k for k in y] \x7d"

/-- The sample is accepted, and each node of its tree is well formed. -/
theorem wellFormed_of_parse_sample :
    ∃ tokens root, lex "sample" sampleSource = .ok tokens ∧ parse tokens = .ok root ∧
      ∀ e : Expr, e.IsWithin root → e.shape.WellFormed := by
  have hok : (parseSource "sample" sampleSource).isOk = true := by decide +kernel
  obtain ⟨tokens, root, hlex, hparse⟩ := exists_of_isOk_parseSource hok
  exact ⟨tokens, root, hlex, hparse, wellFormed_of_parse hparse⟩

end JsonnetSyntax
