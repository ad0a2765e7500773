import JsonnetSyntax.Proofs.Grammar.RoundTrip
import JsonnetSyntax.Proofs.Grammar.Transfer

/-!
# Expressions on their own

Every rule of the grammar reads the same from tokens that are alike, up to places, and a level of
the grammar reads what a lower one reads.  So an expression can be read from its own tokens alone:
nothing that stands around them matters.

## Key results

- `Rule.transfers_expression`, `Rule.transfers_unaryOperand`: one level of nesting
- `Level.transfers_upTo`: a level reads what a lower one reads
- `Level.Builds.reads`: what is built from tokens is what these tokens alone are read as
-/

namespace JsonnetSyntax

namespace Rule

/-- Expressions that are the same up to places. -/
abbrev SameExpr : Expr → Expr → Prop := Same Expr.erase

/-- Nodes of the same shape, up to places, are the same expression up to places. -/
theorem sameExpr_node {span span' : Span} {shape shape' : Shape Expr}
    (h : shape'.map Expr.erase = shape.map Expr.erase) :
    SameExpr (.node span shape) (.node span' shape') := by
  show Expr.erase _ = Expr.erase _
  rw [Expr.erase_node, Expr.erase_node, h]

/-! ## Lists -/

section Productions

variable {σ : Type} {cut : Bool} {full full' : Rule TokenStream Expr}

/-- Behind a comma, both sides end the list or both read one more item. -/
theorem transfers_afterComma {R : σ → σ → Prop} {stops : TokenKind → Bool}
    {item item' : σ → Rule TokenStream σ}
    (hitem : ∀ state state', R state state' → (item state).Transfers false R (item' state'))
    {state state' : σ} (hstate : R state state') :
    (afterComma stops item state).Transfers false (fun out out' => R out.1 out'.1 ∧ out'.2 = out.2)
      (afterComma stops item' state') := by
  -- The list ends in front of a token that is looked at, so such a token must follow on both sides.
  refine Transfers.peek_bind (fun t u halike => ?_) fun hcut => absurd hcut (by simp)
  rw [halike.kind]
  split
  · exact Transfers.pure ⟨hstate, rfl⟩
  · exact (hitem state state' hstate).bind fun after after' hafter => Transfers.pure ⟨hafter, rfl⟩

/-- Items behind commas are read from tokens that are alike. -/
theorem transfers_moreItems {R : σ → σ → Prop} {stops : TokenKind → Bool}
    {item item' : σ → Rule TokenStream σ}
    (hitem : ∀ state state', R state state' → (item state).Transfers false R (item' state'))
    {start start' : σ × Bool} (hstart : R start.1 start'.1 ∧ start'.2 = start.2) :
    (moreItems stops item start).Transfers false (fun out out' => R out.1 out'.1 ∧ out'.2 = out.2)
      (moreItems stops item' start') :=
  Transfers.whileNext (fun _ _ halike => comma?_of_kind halike.kind)
    (fun _ _ _ _ _ _ hstate => transfers_afterComma hitem hstate.1) hstart

/-- A list of items is read from tokens that are alike, from states that are alike. -/
theorem transfers_items {R : σ → σ → Prop} {stops : TokenKind → Bool}
    {item item' : σ → Rule TokenStream σ}
    (hitem : ∀ state state', R state state' → (item state).Transfers false R (item' state'))
    {state state' : σ} (hstate : R state state') :
    (items stops item state).Transfers false (fun out out' => R out.1 out'.1 ∧ out'.2 = out.2)
      (items stops item' state') := by
  refine Transfers.peek_bind (fun t u halike => ?_) fun hcut => absurd hcut (by simp)
  rw [halike.kind]
  split
  · exact Transfers.pure ⟨hstate, rfl⟩
  · exact (hitem state state' hstate).bind fun first first' hfirst =>
      transfers_moreItems hitem ⟨hfirst, rfl⟩

/-- Items that were read so far have the same views. -/
abbrev SameItems {α γ : Type} (view : α → γ) : Array α → Array α → Prop :=
  Same fun items => items.toList.map view

/-- One more item with the same view. -/
theorem Same.push {α γ : Type} {view : α → γ} {items items' : Array α} {item item' : α}
    (hitems : SameItems view items items') (hitem : Same view item item') :
    SameItems view (items.push item) (items'.push item') := by
  -- Arrays are compared by their lists, where one more item stands behind the others.
  show (items'.push item').toList.map view = (items.push item).toList.map view
  rw [map_toList_push hitems hitem, Array.toList_push]

/-- Expressions that were read so far are the same up to places. -/
abbrev SameExprs : Array Expr → Array Expr → Prop := SameItems Expr.erase

/-- One more element is read from tokens that are alike. -/
theorem transfers_pushExpr (hfull : full.Transfers cut SameExpr full') {exprs exprs' : Array Expr}
    (hexprs : SameExprs exprs exprs') :
    (pushExpr full exprs).Transfers cut SameExprs (pushExpr full' exprs') := by
  exact hfull.bind fun e e' he => Transfers.pure (hexprs.push he)

/-- Lists of the same expressions. -/
def SameList (list list' : CommaList) : Prop :=
  list'.exprs.map Expr.erase = list.exprs.map Expr.erase ∧ list'.trailingComma = list.trailingComma

/-- A mark that closes a list is taken. -/
theorem takes_closeList {closing : Punct} {what : ListItem} (list : Array Expr × Bool) :
    (closeList closing what list).Takes := by
  intro eof ts out ts' h
  obtain ⟨rfl, -, -⟩ := reads_closeList.mp h
  exact ⟨_, _, rfl, List.suffix_refl _⟩

/-- A list closes at tokens that are alike. -/
theorem transfers_closeList {closing : Punct} {what : ListItem} {list list' : Array Expr × Bool}
    (hlist : SameExprs list.1 list'.1 ∧ list'.2 = list.2) :
    (closeList closing what list).Transfers cut SameList (closeList closing what list') := by
  unfold closeList nextIs
  -- The look at the mark and the taking of it see the same token.
  simp only [bind_assoc, pure_bind]
  refine .peek_bind (fun t u halike => ?_) fun _ eof eof' t ts out hread => ?_
  · rw [halike.kind]
    split
    · exact transfers_pop.bind fun _ _ _ => Transfers.pure ⟨hlist.1, hlist.2⟩
    · exact Transfers.peek_bind (fun _ _ _ => Transfers.fail) fun _ _ _ _ _ _ h =>
        absurd h reads_fail
  · -- A list that takes nothing more was never closed.
    split at hread
    · exact absurd hread not_reads_pop_bind
    · exact absurd (reads_peek_bind.mp hread) reads_fail

/-- A list of expressions is the same when it is read from tokens that are alike. -/
theorem transfers_commaList (hfull : full.Transfers false SameExpr full') {closing : Punct}
    {what : ListItem} :
    (commaList full closing what).Transfers cut SameList (commaList full' closing what) :=
  (transfers_items (fun _ _ hexprs => transfers_pushExpr hfull hexprs) rfl).bind_of_takes
    (fun _ _ hlist => transfers_closeList hlist) takes_closeList

/-- Identifiers are not places. -/
theorem identifier?_erase (e : Expr) : e.erase.identifier? = e.identifier? :=
  e.identifier?_mapSpan _

/-- Expressions that are the same up to places have the same names. -/
theorem map_identifier?_of_erase {exprs exprs' : List Expr}
    (h : exprs'.map Expr.erase = exprs.map Expr.erase) :
    exprs'.map Expr.identifier? = exprs.map Expr.identifier? := by
  have hnames := congrArg (List.map Expr.identifier?) h
  simpa only [List.map_map, Function.comp_def, identifier?_erase] using hnames

/-- Parameters are read from tokens that are alike, and are equal: names have no place. -/
theorem transfers_parameters (hfull : full.Transfers false SameExpr full') {what : ListItem} :
    (parameters full what).Transfers cut Eq (parameters full' what) := by
  constructor
  intro eof eof' ts ts' us us' out htwin hfits hread
  -- Parameters are what is left of a list of expressions, so the list is moved as a whole.
  obtain ⟨list, hlist, hnames, hcomma⟩ := reads_parameters.mp hread
  obtain ⟨list', hlist', hexprs, hcomma'⟩ := (transfers_commaList hfull).read htwin hfits hlist
  refine ⟨out, reads_parameters.mpr ⟨list', hlist', ?_, ?_⟩, rfl⟩
  · rw [map_identifier?_of_erase hexprs, hnames]
  · rw [hcomma', hcomma]

/-- Parameters that may be missing are missing on both sides or on neither. -/
theorem transfers_optionalParameters (hfull : full.Transfers false SameExpr full')
    {what : ListItem} :
    (optionalParameters full what).Transfers cut Eq (optionalParameters full' what) := by
  refine (transfers_accept (by simp)).bind fun present _ heq => ?_
  subst heq
  split
  · refine (transfers_parameters hfull).bind fun ps _ heq => ?_
    subst heq
    exact Transfers.pure rfl
  · exact Transfers.pure rfl

/-! ## Bindings and clauses -/

/-- Bindings that are the same up to places. -/
abbrev SameBinding : Binding Expr → Binding Expr → Prop := Same (Binding.map Expr.erase)

/-- A binding is the same when it is read from tokens that are alike. -/
theorem transfers_binding (hfull : full.Transfers true SameExpr full') {taken : String → Bool} :
    (binding full taken).Transfers cut SameBinding (binding full' taken) := by
  refine (transfers_expect (by simp)).bind fun name name' hname => ?_
  rw [hname.eq]
  split
  · exact Transfers.fail
  -- The body is read up to the end, so the parts in front of it may be taken strictly.
  · refine (transfers_optionalParameters hfull.strict).bind fun ps _ heq => ?_
    subst heq
    refine transfers_expectOperator.bind fun _ _ _ => hfull.strict.bind fun body body' hbody => ?_
    refine Transfers.pure ?_
    show Binding.map Expr.erase _ = Binding.map Expr.erase _
    simp [Binding.map, hbody.eq]

/-- The names that are taken are not places. -/
theorem any_of_map_eq {α : Type} {name? : α → Option String} {items items' : Array α}
    (h : items'.toList.map name? = items.toList.map name?) (name : String) :
    (items'.any fun item => name? item == some name) = items.any fun item =>
      name? item == some name := by
  have hany := congrArg (List.any · (· == some name)) h
  simpa only [List.any_map, Array.any_toList, Function.comp_def] using hany

/-- One more binding is the same, behind bindings that are. -/
theorem transfers_pushBinding (hfull : full.Transfers true SameExpr full')
    {seen seen' : Array (Binding Expr)} (hseen : SameItems (Binding.map Expr.erase) seen seen') :
    (pushBinding full seen).Transfers cut (SameItems (Binding.map Expr.erase))
      (pushBinding full' seen') := by
  -- Names are not places, so both sides refuse the same names.
  have htaken : (fun name => seen'.any fun b => b.name == name) =
      fun name => seen.any fun b => b.name == name := by
    funext name
    have hnames := map_name_of_map_erase hseen
    have hany := congrArg (List.any · (· == name)) hnames
    simpa only [List.any_map, Array.any_toList, Function.comp_def] using hany
  unfold pushBinding
  rw [htaken]
  exact (transfers_binding hfull).bind fun b b' hb => Transfers.pure (hseen.push hb)

/-- Bindings in a list that are the same up to places. -/
abbrev SameBindings : List (Binding Expr) → List (Binding Expr) → Prop :=
  Same (List.map (Binding.map Expr.erase))

/-- The bindings of a local expression are the same from tokens that are alike. -/
theorem transfers_bindings (hfull : full.Transfers true SameExpr full') :
    (bindings full).Transfers cut SameBindings (bindings full') := by
  refine (transfers_pushBinding hfull rfl).bind fun first first' hfirst => ?_
  refine (Transfers.whileNext (fun _ _ halike => comma?_of_kind halike.kind)
    (fun _ _ _ _ _ _ hseen => transfers_pushBinding hfull hseen) hfirst).bind
      fun all all' hall => ?_
  exact Transfers.pure hall

/-- Clauses that are the same up to places. -/
abbrev SameClause : Clause Expr → Clause Expr → Prop := Same (Clause.map Expr.erase)

/-- A `for` clause is the same when it is read from tokens that are alike. -/
theorem transfers_loopClause (hfull : full.Transfers cut SameExpr full') :
    (loopClause full).Transfers cut SameClause (loopClause full') := by
  refine (transfers_expect (by simp)).bind fun name name' hname => ?_
  refine (transfers_expect (by simp)).bind fun _ _ _ => hfull.bind fun source source' hsource => ?_
  refine Transfers.pure ?_
  show Clause.map Expr.erase _ = Clause.map Expr.erase _
  rw [hname.eq]
  simp [Clause.map, hsource.eq]

/-- A clause is the same from tokens that are alike, whichever keyword starts it. -/
theorem transfers_clause (hfull : full.Transfers cut SameExpr full') (start : ClauseStart) :
    (clause full start).Transfers cut SameClause (clause full' start) := by
  cases start with
  | loop => exact transfers_loopClause hfull
  | condition =>
    refine hfull.bind fun e e' he => Transfers.pure ?_
    show Clause.map Expr.erase _ = Clause.map Expr.erase _
    simp [Clause.map, he.eq]

/-- The clauses of a comprehension are the same from tokens that are alike. -/
theorem transfers_clauses (hfull : full.Transfers true SameExpr full') {closing : Punct} :
    (clauses full closing).Transfers cut (Same fun out => out.1.map (Clause.map Expr.erase))
      (clauses full' closing) := by
  refine (transfers_loopClause hfull.strict).bind fun first first' hfirst => ?_
  -- The loop starts from one clause on each side.
  have hstart : SameItems (Clause.map Expr.erase) #[first] #[first'] := by
    show [first'].map _ = [first].map _
    simp only [List.map_singleton, hfirst.eq]
  refine (Transfers.whileNext (fun _ _ halike => clauseStart_of_kind halike.kind)
    (fun _ _ start _ _ _ hseen => (transfers_clause hfull.strict start).bind
      fun c c' hc => Transfers.pure (hseen.push hc)) hstart).bind fun all all' hall => ?_
  refine transfers_pop.bind fun found found' halike => ?_
  rw [halike.kind]
  split
  · exact Transfers.pure hall
  · exact Transfers.fail

/-! ## Objects -/

/-- A condition is the same from tokens that are alike, with its message or without one. -/
theorem transfers_condition (hfull : full.Transfers true SameExpr full') :
    (condition full).Transfers cut (Same fun out => (out.1.erase, out.2.map Expr.erase))
      (condition full') := by
  refine hfull.strict.bind fun cond cond' hcond => ?_
  unfold nextIsOperator
  simp only [bind_assoc, pure_bind]
  -- Whether a message follows is seen at the next token, which may lie behind what is moved.
  refine .peek_bind (fun t u halike => ?_) fun _ eof eof' t ts out hread => ?_
  · rw [halike.isOperator]
    split
    · refine transfers_pop.bind fun _ _ _ => hfull.strict.bind fun message message' hmessage => ?_
      refine Transfers.pure ?_
      show (cond'.erase, some message'.erase) = (cond.erase, some message.erase)
      rw [hcond.eq, hmessage.eq]
    · refine Transfers.pure ?_
      show (cond'.erase, none) = (cond.erase, none)
      rw [hcond.eq]
  · -- The condition is the last thing read: the end mark is no colon either, so no message follows.
    split at hread
    · exact absurd hread not_reads_pop_bind
    · obtain ⟨rfl, -⟩ := reads_pure.mp hread
      refine ⟨(cond', none), by simp, ?_⟩
      show (cond'.erase, none) = (cond.erase, none)
      rw [hcond.eq]

/-- Keys that are the same up to places. -/
abbrev SameKey : FieldKey Expr → FieldKey Expr → Prop := Same (FieldKey.map Expr.erase)

/-- Tokens that are alike have the same literal, unless they are end marks. -/
theorem stringShape_alike {t u : Token} (h : t.Alike u) (ht : t.kind ≠ .endOfFile)
    (form : StringForm) :
    u.stringShape form = t.stringShape form := by
  rw [Token.stringShape, Token.stringShape, h.data ht, h.block ht]

/-- The key of a field is the same, for first tokens that are alike. -/
theorem transfers_key (hfull : full.Transfers true SameExpr full') {t u : Token} (h : t.Alike u) :
    (key full t).Transfers cut SameKey (key full' u) := by
  unfold key
  rw [h.kind]
  split
  -- The kind of a key is told by its first token, whose text is the same unless it is an end mark.
  · next ht =>
    rw [h.data (by simp [ht])]
    exact Transfers.pure rfl
  · next form ht =>
    rw [stringShape_alike h (by simp [ht])]
    refine Transfers.pure ?_
    show FieldKey.string _ = FieldKey.string _
    rw [Expr.erase_node, Expr.erase_node]
  · refine hfull.strict.bind fun e e' he => (transfers_expect (by simp)).bind fun _ _ _ => ?_
    refine Transfers.pure ?_
    show FieldKey.computed _ = FieldKey.computed _
    rw [he.eq]

/-- The operator of a field assigns in the same way on both sides. -/
theorem transfers_assignment : assignment.Transfers cut Eq assignment := by
  refine (transfers_expect (by simp)).bind fun found found' hfound => ?_
  rw [hfound.eq]
  split
  · exact Transfers.pure rfl
  · exact Transfers.fail

/-- Members that were read so far are the same up to places. -/
abbrev SameMembers : Array (Member Expr) → Array (Member Expr) → Prop :=
  SameItems (Member.map Expr.erase)

/-- A field that is new on one side is new on the other. -/
theorem transfers_freshField {t u : Token} {k k' : FieldKey Expr} {seen seen' : Array (Member Expr)}
    (hk : SameKey k k') (hseen : SameMembers seen seen') :
    (freshField t k seen).Transfers cut Eq (freshField u k' seen') := by
  -- A name in a key has no place, so both sides see the same name.
  have hname : k'.literalName? = k.literalName? := by
    rw [← literalName?_map_erase k', hk.eq, literalName?_map_erase]
  have htaken := any_of_map_eq (map_name?_of_map_erase fieldName?_map_erase hseen)
  unfold freshField
  rw [hname]
  split
  · exact Transfers.pure rfl
  · rw [htaken]
    split
    · exact Transfers.fail
    · exact Transfers.pure rfl

/-- A field is the same, behind members that are. -/
theorem transfers_field (hfull : full.Transfers true SameExpr full') {t u : Token} (h : t.Alike u)
    {seen seen' : Array (Member Expr)} (hseen : SameMembers seen seen') :
    (field full t seen).Transfers cut (Same (Field.map Expr.erase)) (field full' u seen') := by
  refine (transfers_key hfull h).bind fun k k' hk => ?_
  refine (transfers_optionalParameters hfull.strict).bind fun method _ heq => ?_
  subst heq
  refine transfers_assignment.bind fun result _ heq => ?_
  subst heq
  obtain ⟨visibility, plus⟩ := result
  dsimp only
  split
  · exact Transfers.fail
  · refine (transfers_freshField hk hseen).bind fun _ _ _ =>
      hfull.strict.bind fun body body' hbody => ?_
    refine Transfers.pure ?_
    show Field.map Expr.erase _ = Field.map Expr.erase _
    simp only [Field.map, hk.eq, hbody.eq]

/-- One more member is the same, behind members that are. -/
theorem transfers_pushMember (hfull : full.Transfers true SameExpr full')
    {seen seen' : Array (Member Expr)} (hseen : SameMembers seen seen') :
    (pushMember full seen).Transfers cut SameMembers (pushMember full' seen') := by
  -- The names of the members so far are the same on both sides.
  have htaken := any_of_map_eq (map_name?_of_map_erase localName?_map_erase hseen)
  refine transfers_pop.bind fun start start' halike => ?_
  rw [halike.kind]
  split
  · rw [funext htaken]
    refine (transfers_binding hfull).bind fun b b' hb => Transfers.pure (hseen.push ?_)
    show Member.binding _ = Member.binding _
    rw [hb.eq]
  · refine (transfers_condition hfull).bind fun out out' hout => Transfers.pure (hseen.push ?_)
    obtain ⟨hcond, hmessage⟩ := Prod.mk.inj hout.eq
    show Member.assertion _ _ = Member.assertion _ _
    rw [hcond, hmessage]
  · refine (transfers_field hfull halike hseen).bind fun f f' hf => Transfers.pure (hseen.push ?_)
    show Member.field _ = Member.field _
    rw [hf.eq]
  · exact Transfers.fail

/-- An object comprehension is the same, for members that are. -/
theorem transfers_objectComp (hfull : full.Transfers true SameExpr full')
    {opening opening' start start' : Span} {members members' : List (Member Expr)}
    {trailingComma : Bool}
    (hmembers : members'.map (Member.map Expr.erase) = members.map (Member.map Expr.erase)) :
    (objectComp full opening start members trailingComma).Transfers cut SameExpr
      (objectComp full' opening' start' members' trailingComma) := by
  -- Whether members can be turned into a comprehension is seen from their shapes.
  have hfault : comprehensionFault? members' = comprehensionFault? members := by
    rw [← comprehensionFault?_map Expr.erase members', hmembers, comprehensionFault?_map]
  unfold objectComp
  rw [hfault]
  split
  · exact Transfers.fail
  · refine (transfers_clauses hfull).bind fun out out' hout => Transfers.pure (sameExpr_node ?_)
    simp only [Shape.map, hmembers, hout.eq]

/-- An object is the same when it is read from tokens that are alike. -/
theorem transfers_object (hfull : full.Transfers true SameExpr full') {opening opening' : Span} :
    (object full opening).Transfers cut SameExpr (object full' opening') := by
  refine Transfers.bind_of_takes (transfers_items (R := SameMembers)
    (fun _ _ hseen => transfers_pushMember hfull hseen) rfl) (fun out out' hout => ?_) ?_
  · obtain ⟨members, trailingComma⟩ := out
    obtain ⟨members', trailingComma'⟩ := out'
    have hmembers : SameMembers members members' := hout.1
    have hcomma : trailingComma' = trailingComma := hout.2
    subst hcomma
    refine transfers_pop.bind fun found found' halike => ?_
    rw [halike.kind]
    split
    · exact Transfers.pure (sameExpr_node (by simp only [Shape.map, hmembers.eq]))
    · exact transfers_objectComp hfull hmembers.eq
    · exact Transfers.fail
  · -- The token behind the members is a brace or a keyword, never the end mark.
    intro out eof ts value ts' hread
    cases ts with
    | nil => simp [reads_pop] at hread
    | cons t rest => exact ⟨t, rest, rfl, (reads_pop_cons_bind.mp hread).suffix⟩

/-! ## Expressions led by a keyword -/

/-- An assertion is the same when it is read from tokens that are alike. -/
theorem transfers_assertForm (hfull : full.Transfers true SameExpr full') :
    (assertForm full).Transfers cut SameExpr (assertForm full') := by
  refine transfers_pop.bind fun start start' _ =>
    (transfers_condition hfull).bind fun out out' hout => ?_
  obtain ⟨hcond, hmessage⟩ := Prod.mk.inj hout.eq
  refine (transfers_expect (by simp)).bind fun _ _ _ => hfull.strict.bind fun rest rest' hrest => ?_
  exact Transfers.pure (sameExpr_node (by simp only [Shape.map, hcond, hmessage, hrest.eq]))

/-- An error expression is the same when it is read from tokens that are alike. -/
theorem transfers_errorForm (hfull : full.Transfers true SameExpr full') :
    (errorForm full).Transfers cut SameExpr (errorForm full') := by
  refine transfers_pop.bind fun start start' _ => hfull.strict.bind fun message message' hmessage =>
    ?_
  exact Transfers.pure (sameExpr_node (by simp only [Shape.map, hmessage.eq]))

/-- A conditional is the same when it is read from tokens that are alike. -/
theorem transfers_conditionalForm (hfull : full.Transfers true SameExpr full') :
    (conditionalForm full).Transfers cut SameExpr (conditionalForm full') := by
  refine transfers_pop.bind fun start start' _ => hfull.strict.bind fun cond cond' hcond => ?_
  refine (transfers_expect (by simp)).bind fun _ _ _ => hfull.strict.bind fun yes yes' hyes => ?_
  refine (transfers_accept (by simp)).bind fun present _ heq => ?_
  subst heq
  split
  · refine hfull.strict.bind fun no no' hno => Transfers.pure (sameExpr_node ?_)
    simp only [Shape.map, hcond.eq, hyes.eq, Option.map_some, hno.eq]
  · exact Transfers.pure
      (sameExpr_node (by simp only [Shape.map, hcond.eq, hyes.eq, Option.map_none]))

/-- A function literal is the same when it is read from tokens that are alike. -/
theorem transfers_functionForm (hfull : full.Transfers true SameExpr full') :
    (functionForm full).Transfers cut SameExpr (functionForm full') := by
  refine transfers_pop.bind fun start start' _ => transfers_pop.bind fun found found' halike => ?_
  rw [halike.kind]
  split
  · refine (transfers_parameters hfull.strict).bind fun ps _ heq => ?_
    subst heq
    refine hfull.strict.bind fun body body' hbody => Transfers.pure (sameExpr_node ?_)
    simp only [Shape.map, hbody.eq]
  · exact Transfers.fail

/-- An import is the same when it is read from tokens that are alike. -/
theorem transfers_importForm (hfull : full.Transfers true SameExpr full')
    {shape : String → Shape Expr} :
    (importForm full shape).Transfers cut SameExpr (importForm full' shape) := by
  refine transfers_pop.bind fun start start' _ => hfull.strict.bind fun file file' hfile => ?_
  -- The name of the file is the text of a literal, which has no place.
  have hname : file'.stringValue? = file.stringValue? := by
    rw [← stringValue?_erase file', hfile.eq, stringValue?_erase]
  rw [hname]
  split
  · exact Transfers.pure (sameExpr_node rfl)
  · exact Transfers.fail

/-- A local expression is the same when it is read from tokens that are alike. -/
theorem transfers_localForm (hfull : full.Transfers true SameExpr full') :
    (localForm full).Transfers cut SameExpr (localForm full') := by
  refine transfers_pop.bind fun start start' _ => (transfers_bindings hfull).bind fun bs bs' hbs =>
    ?_
  refine transfers_pop.bind fun found found' halike => ?_
  rw [halike.kind]
  split
  · refine hfull.strict.bind fun body body' hbody => Transfers.pure (sameExpr_node ?_)
    simp only [Shape.map, hbs.eq, hbody.eq]
  · exact Transfers.fail

/-- The same keyword leads the same form. -/
theorem transfers_ledBy (hfull : full.Transfers true SameExpr full') {kind : TokenKind}
    {form : Rule TokenStream Expr} (h : ledBy? full kind = some form) :
    ∃ form', ledBy? full' kind = some form' ∧ form.Transfers cut SameExpr form' := by
  unfold ledBy? at h ⊢
  -- One case for each keyword, in the order of `ledBy?`.
  split at h
  · cases h
    exact ⟨_, rfl, transfers_assertForm hfull⟩
  · cases h
    exact ⟨_, rfl, transfers_errorForm hfull⟩
  · cases h
    exact ⟨_, rfl, transfers_conditionalForm hfull⟩
  · cases h
    exact ⟨_, rfl, transfers_functionForm hfull⟩
  · cases h
    exact ⟨_, rfl, transfers_importForm hfull⟩
  · cases h
    exact ⟨_, rfl, transfers_importForm hfull⟩
  · cases h
    exact ⟨_, rfl, transfers_localForm hfull⟩
  · cases h

/-- Which kinds of tokens lead a form does not depend on how sub-expressions are read. -/
theorem ledBy?_eq_none {kind : TokenKind} (h : ledBy? full kind = none) :
    ledBy? full' kind = none := by
  unfold ledBy? at h ⊢
  split at h <;> simp_all

/-! ## Operands -/

/-- Selectors that are the same up to places. -/
abbrev SameSelector : Selector Expr × Span → Selector Expr × Span → Prop :=
  Same fun out => out.1.map Expr.erase

/-- The name behind a dot is the same from tokens that are alike. -/
theorem transfers_fieldSelector : fieldSelector.Transfers cut SameSelector fieldSelector := by
  refine (transfers_expect (by simp)).bind fun name name' hname => Transfers.pure ?_
  show Selector.field _ = Selector.field _
  rw [hname.eq]

/-- An index is the same when it is read from tokens that are alike. -/
theorem transfers_indexSelector (hfull : full.Transfers true SameExpr full') :
    (indexSelector full).Transfers cut SameSelector (indexSelector full') := by
  refine hfull.strict.bind fun index index' hindex => (transfers_expect (by simp)).bind fun _ _ _ =>
    ?_
  refine Transfers.pure ?_
  show Selector.expr _ = Selector.expr _
  rw [hindex.eq]

/-- A selection from `super` is the same when it is read from tokens that are alike. -/
theorem transfers_superIndex (hfull : full.Transfers true SameExpr full') {start start' : Span} :
    (superIndex full start).Transfers cut SameExpr (superIndex full' start') := by
  refine transfers_pop.bind fun t t' halike => ?_
  rw [halike.kind]
  split
  · refine transfers_fieldSelector.bind fun out out' hout => Transfers.pure (sameExpr_node ?_)
    simp only [Shape.map, hout.eq]
  · refine (transfers_indexSelector hfull).bind fun out out' hout =>
      Transfers.pure (sameExpr_node ?_)
    simp only [Shape.map, hout.eq]
  · exact Transfers.fail

/-- An operand of one token is the same for a token that is alike. -/
theorem transfers_terminal (hfull : full.Transfers true SameExpr full') :
    (terminal full).Transfers cut SameExpr (terminal full') := by
  refine transfers_pop.bind fun t t' halike => ?_
  rw [halike.kind]
  split
  · next ht =>
    rw [halike.data (by simp [ht])]
    split
    · exact Transfers.pure (sameExpr_node rfl)
    · exact Transfers.fail
  · next form ht =>
    rw [stringShape_alike halike (by simp [ht])]
    exact Transfers.pure (sameExpr_node rfl)
  · exact Transfers.pure (sameExpr_node rfl)
  · exact Transfers.pure (sameExpr_node rfl)
  · exact Transfers.pure (sameExpr_node rfl)
  · exact Transfers.pure (sameExpr_node rfl)
  · exact Transfers.pure (sameExpr_node rfl)
  · next ht =>
    rw [halike.data (by simp [ht])]
    exact Transfers.pure (sameExpr_node rfl)
  · exact transfers_superIndex hfull
  · exact Transfers.fail
  · exact Transfers.fail

/-- The bracket that closes an array is taken. -/
theorem takes_array {opening : Span} : (array full opening).Takes := by
  intro eof ts out ts' h
  obtain ⟨list, hlist, rfl⟩ |
    ⟨first, mid, hfirst, comma, mid', hcomma, t, rest, rfl, -, cs, closing, hcs, rfl⟩ :=
      h.array_cases
  · obtain ⟨hitems, -⟩ := reads_commaList.mp hlist
    exact exists_cons_of_suffix hitems.suffix (List.suffix_refl _)
  · exact exists_cons_of_suffix (hcomma.suffix.trans hfirst.suffix) hcs.suffix

/-- What follows the first element of an array takes the bracket that closes it. -/
theorem takes_arrayEnd {opening : Span} (start : Array Expr × Bool) :
    (arrayEnd full opening start).Takes :=
  .bind_right fun all => (takes_closeList all).bind_left

/-- What follows the first element of an array is the same, for elements that are. -/
theorem transfers_arrayEnd (hfull : full.Transfers true SameExpr full') {opening opening' : Span}
    {start start' : Array Expr × Bool} (hstart : SameExprs start.1 start'.1 ∧ start'.2 = start.2) :
    (arrayEnd full opening start).Transfers cut SameExpr (arrayEnd full' opening' start') := by
  refine Transfers.bind_of_takes
    (transfers_moreItems (fun _ _ hexprs => transfers_pushExpr hfull.strict hexprs) hstart)
    (fun all all' hall => ?_) fun all => (takes_closeList all).bind_left
  refine (transfers_closeList hall).bind fun list list' hlist => Transfers.pure (sameExpr_node ?_)
  simp only [Shape.map, hlist.1, hlist.2]

/-- An array is the same when it is read from tokens that are alike. -/
theorem transfers_array (hfull : full.Transfers true SameExpr full') {opening opening' : Span} :
    (array full opening).Transfers cut SameExpr (array full' opening') := by
  have htakes : (array full opening).Takes := takes_array
  unfold array nextIs at htakes ⊢
  simp only [bind_assoc, pure_bind] at htakes ⊢
  -- Whether the array is empty is seen at the next token, which it takes if so.
  refine .peek_bind (fun t u halike => ?_) fun _ eof eof' t ts out hread => ?_
  · rw [halike.kind]
    split
    · exact transfers_pop.bind fun _ _ _ => Transfers.pure (sameExpr_node rfl)
    · refine hfull.strict.bind fun first first' hfirst => ?_
      have hitems : SameExprs #[first] #[first'] := by
        show [first'].map _ = [first].map _
        simp only [List.map_singleton, hfirst.eq]
      refine (transfers_accept (by simp)).bind fun comma _ heq => ?_
      subst heq
      refine (transfers_accept (by simp)).bind fun present _ heq => ?_
      subst heq
      split
      · refine (transfers_clauses hfull).bind fun out out' hout => Transfers.pure (sameExpr_node ?_)
        simp only [Shape.map, hfirst.eq, hout.eq]
      · split
        · exact Transfers.bind_of_takes (transfers_afterComma (fun _ _ hexprs =>
            transfers_pushExpr hfull.strict hexprs) hitems)
            (fun start start' hstart => transfers_arrayEnd hfull hstart) takes_arrayEnd
        · exact transfers_arrayEnd hfull ⟨hitems, rfl⟩
  · -- An array cannot end without its bracket.
    obtain ⟨_, rest, hcons, hrest⟩ := htakes eof (t :: ts) out (t :: ts) (reads_peek_bind.mpr hread)
    cases hcons
    have hlength := hrest.length_le
    rw [List.length_cons] at hlength
    omega

/-- An expression in parentheses is the same when it is read from tokens that are alike. -/
theorem transfers_parenthesised (hfull : full.Transfers true SameExpr full') :
    (parenthesised full).Transfers cut SameExpr (parenthesised full') :=
  hfull.strict.bind fun _ _ hinner => (transfers_expect (by simp)).bind fun _ _ _ =>
    Transfers.pure hinner

/-- An operand without suffixes is the same when it is read from tokens that are alike. -/
theorem transfers_primary (hfull : full.Transfers true SameExpr full') :
    (primary full).Transfers cut SameExpr (primary full') := by
  refine Transfers.peek_bind (fun t u halike => ?_) fun _ eof eof' t ts out hread => ?_
  · rw [halike.kind]
    split
    · exact transfers_pop.bind fun _ _ _ => transfers_object hfull
    · exact transfers_pop.bind fun _ _ _ => transfers_array hfull
    · exact transfers_pop.bind fun _ _ _ => transfers_parenthesised hfull
    · exact transfers_terminal hfull
  · -- An operand takes a token in every case.
    split at hread
    · exact absurd hread not_reads_pop_bind
    · exact absurd hread not_reads_pop_bind
    · exact absurd hread not_reads_pop_bind
    · exact absurd hread not_reads_pop_bind

/-- An operand without suffixes takes a token. -/
theorem takes_primary : (primary full).Takes := by
  intro eof ts out ts' h
  obtain ⟨t, rest, rfl, ⟨-, hread⟩ | ⟨-, hread⟩ | ⟨-, hread⟩⟩ | ⟨-, -, -, hread⟩ :=
    reads_primary.mp h
  · exact ⟨t, rest, rfl, hread.suffix⟩
  · exact ⟨t, rest, rfl, hread.suffix⟩
  · exact ⟨t, rest, rfl, hread.suffix⟩
  · obtain ⟨t, rest, rfl, ⟨shape, -, -, rfl⟩ | ⟨-, hsuper⟩⟩ := reads_terminal.mp hread
    · exact ⟨t, ts', rfl, List.suffix_refl _⟩
    · exact ⟨t, rest, rfl, hsuper.suffix⟩

/-- A suffix is the same, for targets that are. -/
theorem transfers_suffix (hfull : full.Transfers true SameExpr full') {start : Span} (start' : Span)
    {opening opening' : Token} (kind : Suffix) {target target' : Expr}
    (htarget : SameExpr target target') :
    (suffix full start opening kind target).Transfers cut SameExpr
      (suffix full' start' opening' kind target') := by
  cases kind with
  | field =>
    refine transfers_fieldSelector.bind fun out out' hout => Transfers.pure (sameExpr_node ?_)
    simp only [Shape.map, htarget.eq, hout.eq]
  | index =>
    refine (transfers_indexSelector hfull).bind fun out out' hout =>
      Transfers.pure (sameExpr_node ?_)
    simp only [Shape.map, htarget.eq, hout.eq]
  | arguments =>
    refine (transfers_commaList hfull.strict).bind fun list list' hlist => ?_
    have hshape : ∀ tailStrict, (Shape.apply target' list'.exprs list'.trailingComma tailStrict).map
        Expr.erase =
          (Shape.apply target list.exprs list.trailingComma tailStrict).map Expr.erase := by
      intro tailStrict
      simp only [Shape.map, htarget.eq, hlist.1, hlist.2]
    refine Transfers.peek_bind (fun t u halike => ?_) fun _ eof eof' t ts out hread => ?_
    · refine (transfers_accept (by simp)).bind fun tailStrict _ heq => ?_
      subst heq
      exact Transfers.pure (sameExpr_node (hshape tailStrict))
    · -- Where nothing is taken, `tailstrict` does not follow.
      obtain ⟨tailStrict, mid, haccept, hout⟩ := reads_bind.mp hread
      obtain ⟨rfl, rfl⟩ := reads_pure.mp hout
      obtain ⟨_, hcons, -, -⟩ | ⟨-, -, rfl⟩ := (reads_accept (by simp)).mp haccept
      · have hlength := congrArg List.length hcons
        simp at hlength
      · refine ⟨_, reads_bind.mpr ⟨false, [], ?_, reads_pure.mpr ⟨rfl, rfl⟩⟩,
          sameExpr_node (hshape false)⟩
        exact (reads_accept (by simp)).mpr (.inr ⟨by simp, rfl, rfl⟩)
  | extension =>
    refine (transfers_object hfull).bind fun right right' hright =>
      Transfers.pure (sameExpr_node ?_)
    simp only [Shape.map, htarget.eq, hright.eq]

/-- An operand is the same when it is read from tokens that are alike. -/
theorem transfers_operand (hfull : full.Transfers true SameExpr full') :
    (operand full).Transfers cut SameExpr (operand full') := by
  constructor
  intro eof eof' ts ts' us us' out htwin hfits hread
  -- An operand is read as a whole, so that its suffixes may end where the moved tokens do.
  obtain ⟨first, mid, hfirst, hsuffixes⟩ := reads_operand.mp hread
  obtain ⟨first', mid', hfirst', hsame, hrest⟩ :=
    (transfers_primary hfull).step eof' htwin hfits hfirst hsuffixes.suffix
  obtain ⟨out', hsuffixes', hout⟩ :=
    (Transfers.whileNext (fun _ _ halike => suffix_of_kind halike.kind)
    (fun _ _ kind _ _ _ htarget => transfers_suffix hfull _ kind htarget) hsame).read hrest hfits
      hsuffixes
  exact ⟨out', reads_operand.mpr ⟨first', mid', hfirst', hsuffixes'⟩, hout⟩

/-- An operand takes a token. -/
theorem takes_operand : (operand full).Takes := by
  intro eof ts out ts' h
  obtain ⟨first, mid, hfirst, hsuffixes⟩ := reads_operand.mp h
  obtain ⟨t, rest, rfl, hrest⟩ := takes_primary eof ts first mid hfirst
  exact ⟨t, rest, rfl, hsuffixes.suffix.trans hrest⟩

end Productions

end Rule

/-! ## Operators -/

/-- What one level reads, another level reads from tokens that are alike. -/
structure Level.Transfers (g g' : Level TokenStream) : Prop where
  expr : ∀ precedence, (g.expr precedence).Transfers true Rule.SameExpr (g'.expr precedence)
  operand : g.operand.Transfers true Rule.SameExpr g'.operand

namespace Rule

variable {cut : Bool} {g g' : Level TokenStream}

/-- A unary operation takes a token. -/
theorem takes_unary : (unary g).Takes := by
  intro eof ts out ts' h
  obtain ⟨t, rest, rfl, -, op, -, e, he, rfl⟩ | ⟨-, hplain⟩ := reads_unary.mp h
  · exact ⟨t, rest, rfl, he.suffix⟩
  · exact takes_operand eof ts out ts' hplain

/-- A unary operation is the same when it is read from tokens that are alike. -/
theorem transfers_unary (hg : g.Transfers g') : (unary g).Transfers cut SameExpr (unary g') := by
  constructor
  intro eof eof' ts ts' us us' out htwin hfits hread
  -- A unary operation takes a token in any case, so the tokens on both sides are not empty.
  obtain ⟨t, rest, rfl, hrest⟩ := takes_unary eof ts out ts' hread
  -- The first token is looked at before it is taken, so both sides must have one.
  have htwin' := htwin
  obtain ⟨u, us₁, rfl, halike, htail⟩ := htwin.uncons hrest
  obtain ⟨_, _, hcons, ht, op, hop, e, he, rfl⟩ | ⟨ht, hplain⟩ := reads_unary.mp hread
  · cases hcons
    obtain ⟨e', he', hsame⟩ := hg.operand.read htail hfits.loose he
    refine ⟨_, reads_unary.mpr (.inl ⟨u, us₁, rfl, ?_, op, ?_, e', he', rfl⟩), sameExpr_node ?_⟩
    · rw [halike.kind, ht]
    · rw [halike.data (by simp [ht]), hop]
    · simp only [Shape.map, hsame.eq]
  · obtain ⟨out', hplain', hsame⟩ := (transfers_operand (hg.expr .loosest)).read htwin' hfits hplain
    refine ⟨out', reads_unary.mpr (.inr ⟨?_, hplain'⟩), hsame⟩
    rw [EndMark.next_cons, halike.kind]
    exact ht

/-- A round of a chain builds the same operation, for left operands that are the same. -/
theorem transfers_chainRound (hg : g.Transfers g') {start : Span} (start' : Span) (t u : Token)
    (op : BinaryOp) {left left' : Expr} (hleft : SameExpr left left') :
    (chainRound g start t op left).Transfers cut SameExpr (chainRound g' start' u op left') := by
  refine (hg.expr _).strict.bind fun right right' hright => Transfers.pure (sameExpr_node ?_)
  simp only [Shape.map, hleft.eq, hright.eq]

/-- Tokens that are alike go on with the same chains of operators. -/
theorem binaryOp?_alike {precedence : Precedence} {t u : Token} (h : t.Alike u) :
    binaryOp? precedence u = binaryOp? precedence t := by
  -- The text matters only for operators; of two end marks it may differ.
  by_cases ht : t.kind = .operator
  · rw [binaryOp?, binaryOp?, h.kind, h.data (by simp [ht])]
  · simp [binaryOp?, h.kind, ht]

/-- Tokens that are alike are both left behind as operators, or neither is. -/
theorem isStrayOperator_alike {t u : Token} (h : t.Alike u) :
    isStrayOperator u = isStrayOperator t := by
  by_cases ht : t.kind = .operator
  · rw [isStrayOperator, isStrayOperator, h.kind, h.data (by simp [ht])]
  · simp [isStrayOperator, h.kind, beq_eq_false_iff_ne.mpr ht]

/-- An end mark is no operator that was left behind. -/
@[simp] theorem isStrayOperator_val (eof : EndMark) : isStrayOperator eof.1 = false := by
  simp [isStrayOperator]

/-- A chain of binary operators is read from tokens that are alike as well. -/
theorem transfers_binaryChain (hg : g.Transfers g') {precedence : Precedence} {start start' : Span}
    {left left' : Expr} (hleft : SameExpr left left') :
    (binaryChain g precedence start left).Transfers cut SameExpr
      (binaryChain g' precedence start' left') := by
  constructor
  intro eof eof' ts ts' us us' out htwin hfits hread
  obtain ⟨hloop, hstray⟩ := reads_binaryChain.mp hread
  obtain ⟨out', hloop', hout⟩ := (Transfers.whileNext (fun _ _ halike => binaryOp?_alike halike)
    (fun t u op _ _ _ hleft => transfers_chainRound hg start' t u op hleft) hleft).read htwin hfits
      hloop
  refine ⟨out', reads_binaryChain.mpr ⟨hloop', ?_⟩, hout⟩
  -- The check for a stray operator looks one token past the chain, at what fits on both sides.
  obtain ⟨rfl, -⟩ | ⟨t, rest, u, rest', rfl, rfl, halike⟩ := hfits
  · simp
  · rw [EndMark.next_cons, isStrayOperator_alike halike]
    exact hstray

/-- The keyword that leads a form is taken. -/
theorem suffix_of_ledBy {full form : Rule TokenStream Expr} {kind : TokenKind}
    (hform : ledBy? full kind = some form) {eof : EndMark} {t : Token} {ts ts' : List Token}
    {out : Expr} (h : form.Reads eof (t :: ts) out ts') :
    ts' <:+ ts := by
  unfold ledBy? at hform
  split at hform <;> cases hform <;> exact (reads_pop_cons_bind.mp h).suffix

/-- A form that a keyword leads is led by the same keyword on the other side. -/
theorem exists_form (hg : g.Transfers g') {eof : EndMark} (eof' : EndMark)
    {ts ts' us us' : List Token} {form : Rule TokenStream Expr} {out : Expr}
    (htwin : Twin ts ts' us us') (hfits : Fits cut ts' us')
    (hform : ledBy? g.full (eof.next ts).kind = some form) (hread : form.Reads eof ts out ts') :
    ∃ form', ledBy? g'.full (eof'.next us).kind = some form' ∧
      ∃ out', form'.Reads eof' us out' us' ∧ SameExpr out out' := by
  cases ts with
  | nil => simp [ledBy?] at hform
  | cons t rest =>
    have htwin' := htwin
    obtain ⟨u, us₁, rfl, halike, -⟩ := htwin.uncons (suffix_of_ledBy hform hread)
    rw [EndMark.next_cons] at hform ⊢
    obtain ⟨form', hform', htransfers⟩ := transfers_ledBy (hg.expr .loosest) hform
    rw [halike.kind]
    exact ⟨form', hform', htransfers.read htwin' hfits hread⟩

/-- Where no keyword leads a form, none does on the other side. -/
theorem ledBy?_twin (g' : Level TokenStream) {eof : EndMark} (eof' : EndMark)
    {ts ts' us us' mid : List Token} {out : Expr} (htwin : Twin ts ts' us us')
    (hunary : (unary g).Reads eof ts out mid) (hend : ts' <:+ mid)
    (hnone : ledBy? g.full (eof.next ts).kind = none) :
    ledBy? g'.full (eof'.next us).kind = none := by
  obtain ⟨t, rest, rfl, hrest⟩ := takes_unary eof ts out mid hunary
  obtain ⟨u, us₁, rfl, halike, -⟩ := htwin.uncons (hend.trans hrest)
  rw [EndMark.next_cons] at hnone ⊢
  rw [halike.kind]
  exact ledBy?_eq_none hnone

/-- Expressions are the same from tokens that are alike, one level further up. -/
theorem transfers_expression (hg : g.Transfers g') {precedence : Precedence} :
    (expression g precedence).Transfers cut SameExpr (expression g' precedence) := by
  constructor
  intro eof eof' ts ts' us us' out htwin hfits hread
  -- The keyword decides, and then the unary operation in front of a chain.
  obtain ⟨form, hform, hform'⟩ | ⟨hnone, left, mid, hleft, hchain⟩ := reads_expression.mp hread
  · obtain ⟨form', hled, out', hread', hsame⟩ := exists_form hg eof' htwin hfits hform hform'
    exact ⟨out', reads_expression.mpr (.inl ⟨form', hled, hread'⟩), hsame⟩
  · have hnone' := ledBy?_twin g' eof' htwin hleft hchain.suffix hnone
    obtain ⟨left', mid', hleft', hsame, hrest⟩ :=
      (transfers_unary hg).step eof' htwin hfits hleft hchain.suffix
    obtain ⟨out', hchain', hout⟩ := (transfers_binaryChain hg hsame).read hrest hfits hchain
    exact ⟨out', reads_expression.mpr (.inr ⟨hnone', left', mid', hleft', hchain'⟩), hout⟩

/-- Operands of unary operators are the same from tokens that are alike, one level further up. -/
theorem transfers_unaryOperand (hg : g.Transfers g') :
    (unaryOperand g).Transfers cut SameExpr (unaryOperand g') := by
  constructor
  intro eof eof' ts ts' us us' out htwin hfits hread
  obtain ⟨form, hform, hform'⟩ | ⟨hnone, hunary⟩ := reads_unaryOperand.mp hread
  · obtain ⟨form', hled, out', hread', hsame⟩ := exists_form hg eof' htwin hfits hform hform'
    exact ⟨out', reads_unaryOperand.mpr (.inl ⟨form', hled, hread'⟩), hsame⟩
  · have hnone' := ledBy?_twin g' eof' htwin hunary (List.suffix_refl _) hnone
    obtain ⟨out', hunary', hsame⟩ := (transfers_unary hg).read htwin hfits hunary
    exact ⟨out', reads_unaryOperand.mpr (.inr ⟨hnone', hunary'⟩), hsame⟩

end Rule

/-! ## Levels -/

/-- A level reads what a lower level reads. -/
theorem Level.transfers_upTo {n m : Nat} (h : n ≤ m) : (upTo n).Transfers (upTo m) := by
  induction n generalizing m with
  | zero =>
    -- The lowest level reads nothing at all.
    exact ⟨fun _ => ⟨fun _ _ hread => absurd hread reads_exhausted_expr⟩,
      ⟨fun _ _ hread => absurd hread reads_exhausted_operand⟩⟩
  | succ n ih =>
    cases m with
    | zero => omega
    | succ m =>
      have hg := ih (Nat.le_of_succ_le_succ h)
      refine ⟨fun precedence => ⟨fun htwin hfits hread => ?_⟩, ⟨fun htwin hfits hread => ?_⟩⟩
      · exact (Rule.transfers_expression hg).read htwin hfits (reads_deepen_expr.mp hread)
      · obtain ⟨out', hread', hsame⟩ :=
          (Rule.transfers_unaryOperand hg).read htwin hfits (reads_deepen_operand.mp hread)
        exact ⟨out', reads_deepen_operand.mpr hread', hsame⟩

/-! ## Expressions on their own -/

namespace Rule

variable {eof : EndMark}

/-- Rounds of a loop that stops behind them. -/
theorem Rounds.reads_whileNext {β σ : Type} {select : Token → Option β}
    {body : Token → β → σ → Rule TokenStream σ} {state last out : σ} {ts mid ts' : List Token}
    (h : Rounds select body eof state ts last mid)
    (hloop : (whileNext select body last).Reads eof mid out ts') :
    (whileNext select body state).Reads eof ts out ts' := by
  -- Each round is put in front of the rounds behind it.
  induction h with
  | start => exact hloop
  | @round before after t choice rest mid _ hselect hbody ih =>
    exact ih
      (Rule.reads_whileNext.mpr (.inr ⟨t, rest, choice, after, mid, rfl, hselect, hbody, hloop⟩))

/-- An operand starts with a token that starts nothing else. -/
theorem next_of_primary {full : Rule TokenStream Expr} (full' : Rule TokenStream Expr)
    {ts ts' : List Token} {out : Expr} (h : (primary full).Reads eof ts out ts') :
    (eof.next ts).kind ≠ .operator ∧ ledBy? full' (eof.next ts).kind = none := by
  obtain ⟨t, rest, rfl, ⟨ht, -⟩ | ⟨ht, -⟩ | ⟨ht, -⟩⟩ | ⟨-, -, -, hterminal⟩ := reads_primary.mp h
  · simp [ht, ledBy?]
  · simp [ht, ledBy?]
  · simp [ht, ledBy?]
  · obtain ⟨t, rest, rfl, ⟨shape, hshape, -, -⟩ | ⟨ht, -⟩⟩ := reads_terminal.mp hterminal
    · have hkind := @kind_of_terminalShape full' t shape hshape
      exact ⟨hkind.1, hkind.2.1⟩
    · simp [ht, ledBy?]

/-- A unary operation starts with a token that leads no form. -/
theorem next_of_unary {g : Level TokenStream} {full : Rule TokenStream Expr} {ts ts' : List Token}
    {out : Expr} (h : (unary g).Reads eof ts out ts') : ledBy? full (eof.next ts).kind = none := by
  obtain ⟨t, rest, rfl, ht, -⟩ | ⟨-, hplain⟩ := reads_unary.mp h
  · simp [ht, ledBy?]
  · obtain ⟨first, mid, hfirst, -⟩ := reads_operand.mp hplain
    exact (next_of_primary full hfirst).2

/-- No operator binds more loosely than whole expressions do. -/
theorem binaryOp?_loosest {precedence : Precedence} {t : Token} {op : BinaryOp}
    (h : binaryOp? precedence t = some op) : binaryOp? .loosest t = some op := by
  obtain ⟨ht, hsymbol, -⟩ := binaryOp?_eq_some.mp h
  refine binaryOp?_eq_some.mpr ⟨ht, hsymbol, ?_⟩
  cases op <;> decide

/-- A left operand with rounds of operators up to the end of the file is an expression. -/
theorem reads_expression_of_rounds {g : Level TokenStream} {us mid : List Token} {left out : Expr}
    (hleft : (unary g).Reads eof us left mid)
    (hrounds : Rounds (binaryOp? .loosest) (chainRound g (eof.next us).span) eof left mid out []) :
    (expression g .loosest).Reads eof us out [] := by
  have hstop :
      (whileNext (binaryOp? .loosest) (chainRound g (eof.next us).span) out).Reads eof [] out [] :=
    Rule.reads_whileNext.mpr (.inl ⟨rfl, rfl, rfl⟩)
  refine reads_expression.mpr (.inr ⟨next_of_unary hleft, left, mid, hleft, ?_⟩)
  exact reads_binaryChain.mpr ⟨hrounds.reads_whileNext hstop, isStrayOperator_val eof⟩

end Rule

/-- What is built from tokens is what these tokens alone are read as, wherever they stand. -/
theorem Level.Builds.reads {g g' : Level TokenStream} (hg : g.Transfers g') {eof eof' : EndMark}
    {own ts' us : List Token} {e : Expr} (h : g.Builds eof (own ++ ts') e ts')
    (halike : List.Forall₂ Token.Alike own us) :
    ∃ e', (Rule.expression g' .loosest).Reads eof' us e' [] ∧ e'.erase = e.erase := by
  -- Nothing follows on the other side, and an end mark fits behind every expression.
  have htwin : Twin (own ++ ts') ts' us [] := ⟨own, us, rfl, (List.append_nil us).symm, halike⟩
  have hfits : Fits true ts' [] := .inl ⟨rfl, .inl rfl⟩
  cases h with
  | form hform hread =>
    obtain ⟨form', hled, e', hread', hsame⟩ := Rule.exists_form hg eof' htwin hfits hform hread
    exact ⟨e', Rule.reads_expression.mpr (.inl ⟨form', hled, hread'⟩), hsame⟩
  | operand hfirst hrounds =>
    obtain ⟨first', mid', hfirst', hsame, hrest⟩ :=
      (Rule.transfers_primary (hg.expr .loosest)).step eof' htwin hfits hfirst hrounds.suffix
    -- The suffixes so far are all there are, since the tokens end behind them.
    obtain ⟨e', hrounds', hout⟩ := hrounds.transfers eof'
      (fun _ _ _ halike hselect => (Rule.suffix_of_kind halike.kind).trans hselect)
      (fun _ _ kind _ _ _ htarget =>
        Rule.transfers_suffix (hg.expr .loosest) (eof'.next us).span kind htarget)
      hsame hrest hfits
    have hoperand : (Rule.operand g'.full).Reads eof' us e' [] :=
      Rule.reads_operand.mpr ⟨first', mid', hfirst',
        hrounds'.reads_whileNext (Rule.reads_whileNext.mpr (.inl ⟨rfl, rfl, rfl⟩))⟩
    have hunary : (Rule.unary g').Reads eof' us e' [] :=
      Rule.reads_unary.mpr (.inr ⟨(Rule.next_of_primary g'.full hfirst').1, hoperand⟩)
    exact ⟨e', Rule.reads_expression_of_rounds hunary .start, hout⟩
  | chain hleft hrounds =>
    obtain ⟨left', mid', hleft', hsame, hrest⟩ :=
      (Rule.transfers_unary hg).step eof' htwin hfits hleft hrounds.suffix
    -- An operator that bound tightly enough where the chain stood does so at the loosest
    -- precedence.
    obtain ⟨e', hrounds', hout⟩ := hrounds.transfers eof'
      (fun _ _ _ halike hselect =>
        (Rule.binaryOp?_alike halike).trans (Rule.binaryOp?_loosest hselect))
      (fun t u op _ _ _ hleft => Rule.transfers_chainRound hg (eof'.next us).span t u op hleft)
      hsame hrest hfits
    exact ⟨e', Rule.reads_expression_of_rounds hleft' hrounds', hout⟩

end JsonnetSyntax
