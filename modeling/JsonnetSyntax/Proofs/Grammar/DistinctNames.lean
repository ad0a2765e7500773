import JsonnetSyntax.Proofs.Grammar.Declarations
import JsonnetSyntax.Proofs.Grammar.Nesting
import JsonnetSyntax.Proofs.Grammar.RoundTrip

/-!
# Names that are declared once

Objects and `local` expressions made of plain declarations are accepted exactly if no name is
declared twice.  The names of fields and those of local bindings are kept apart; otherwise the first
declaration that repeats a name is the error.

## Key results

- `PlainObject.reads_object`, `PlainObject.failsWith_object`: the two ways to read an object
- `PlainLocal.reads_localForm_iff`, `PlainLocal.failsWith_localForm`: the same for `local`
  expressions
- `parse_ok_iff_distinctNames`: programs
-/

namespace JsonnetSyntax

namespace Rule

/-! ## Expressions that fail -/

variable {eof : EndMark} {g : Level TokenStream}

/-- An expression fails where the form that its first token leads fails. -/
theorem failsWith_expression_of_form {form : Rule TokenStream Expr} {ts : List Token}
    {error : Error} {precedence : Precedence} (hform : ledBy? g.full (eof.next ts).kind = some form)
    (h : form.FailsWith eof ts error) : (expression g precedence).FailsWith eof ts error := by
  have hnext : TokenStream.next ⟨ts, eof.1⟩ = eof.next ts := by
    cases ts <;> rfl
  unfold FailsWith
  rw [expression, run_keywordForm?_bind, hnext, hform]
  exact h.bind

/-- An expression that starts with a brace fails where the object behind the brace fails. -/
theorem failsWith_expression_of_object {opening : TokenOf (.punct .braceL)} {ts : List Token}
    {error : Error} {precedence : Precedence}
    (h : (object g.full opening.1.span).FailsWith eof ts error) :
    (expression g precedence).FailsWith eof (opening.1 :: ts) error := by
  have hnext : TokenStream.next ⟨opening.1 :: ts, eof.1⟩ = opening.1 := rfl
  have hpeek : peek.Reads eof (opening.1 :: ts) opening.1 (opening.1 :: ts) :=
    reads_peek.mpr ⟨rfl, rfl⟩
  have hpop : pop.Reads eof (opening.1 :: ts) opening.1 ts := reads_pop_cons.mpr ⟨rfl, rfl⟩
  -- The rules on the way to the object look at the brace, and the last of them takes it.
  have hprimary : (primary g.full).FailsWith eof (opening.1 :: ts) error := by
    apply hpeek.bind_failsWith
    rw [opening.2]
    exact hpop.bind_failsWith h
  -- The brace is no operator, so an operand is read.
  have hunary : (unary g).FailsWith eof (opening.1 :: ts) error := by
    unfold FailsWith
    rw [run_unary, hnext, if_neg (by simp [opening.2])]
    exact hpeek.bind_failsWith hprimary.bind
  have hled : ledBy? g.full (TokenStream.next ⟨opening.1 :: ts, eof.1⟩).kind = none := by
    rw [hnext, opening.2]
    rfl
  unfold FailsWith
  rw [expression, run_keywordForm?_bind, hled]
  exact hpeek.bind_failsWith hunary.bind

end Rule

/-! ## Objects -/

/-- An object with plain members, and with or without a comma behind the last of them. -/
structure PlainObject where
  opening : TokenOf (.punct .braceL)
  members : CommaSeparated PlainMember
  trailing : Option (TokenOf (.punct .comma))
  closing : TokenOf (.punct .braceR)

namespace PlainObject

/-- The tokens behind the last member. -/
def ending (o : PlainObject) : List Token :=
  match o.trailing with
  | some comma => [comma.1, o.closing.1]
  | none => [o.closing.1]

/-- The tokens behind the opening brace. -/
def inside (o : PlainObject) : List Token :=
  o.members.tokens (fun m => m.declaration.tokens) ++ o.ending

/-- The tokens of the object. -/
def tokens (o : PlainObject) : List Token := o.opening.1 :: o.inside

/-- The names of the fields. -/
def fieldNames (o : PlainObject) : List String :=
  o.members.items.filterMap fun m => m.declaration.name.fieldName?

/-- The names of the local bindings. -/
def localNames (o : PlainObject) : List String :=
  o.members.items.filterMap fun m => m.declaration.name.bindingName?

/-- Members are declared once if the names of fields are distinct and those of bindings are. -/
theorem distinct_iff (o : PlainObject) :
    Distinct PlainMember.declaration o.members.items ↔ o.fieldNames.Nodup ∧ o.localNames.Nodup := by
  rw [Distinct, Declared.nodup_iff, List.filterMap_map, List.filterMap_map]
  rfl

variable {eof : EndMark} {full : Rule TokenStream Expr}

/-- What stands behind the last member ends an expression. -/
theorem endsExpr_ending (o : PlainObject) : (eof.next o.ending).EndsExpr := by
  unfold ending
  cases o.trailing with
  | none => exact .of_kind o.closing.2 rfl
  | some comma => exact .of_kind comma.2 rfl

/-- Behind the last member, a comma is passed over and the closing brace is found. -/
theorem reads_ending (o : PlainObject) (eof : EndMark) (full : Rule TokenStream Expr)
    (members : Array (Member Expr)) :
    ∃ flag, (Rule.moreDeclarations (Rule.nextMember full) (members, false)).Reads eof o.ending
      (members, flag) [o.closing.1] := by
  have hstop : comma? (eof.next [o.closing.1]) = none := by
    simp [Rule.comma?_eq_none, o.closing.2]
  have hends : endsMembers (eof.next [o.closing.1]).kind = true := by
    rw [EndMark.next_cons, o.closing.2]
    rfl
  unfold ending
  -- With a comma, the loop makes one more round, which finds the end.
  cases o.trailing with
  | none => exact ⟨false, Rule.reads_whileNext_stop hstop⟩
  | some comma =>
    have hround : (Rule.nextMember full (members, false)).Reads eof [o.closing.1] (members, true)
        [o.closing.1] := Rule.reads_afterComma.mpr (.inl ⟨hends, rfl, rfl⟩)
    refine ⟨true, Rule.reads_whileNext.mpr (.inr ?_)⟩
    exact ⟨comma.1, _, (), _, _, rfl, Rule.comma?_eq_some.mpr comma.2, hround,
      Rule.reads_whileNext_stop hstop⟩

/-- The members are read by the same steps from the first one on. -/
theorem run_items (o : PlainObject) :
    (Rule.items endsMembers (Rule.pushMember full) #[]).run ⟨o.inside, eof.1⟩ =
      (Rule.nextMember full (#[], false) >>= Rule.moreDeclarations (Rule.nextMember full)).run
        ⟨o.inside, eof.1⟩ := by
  have hopen : endsMembers (eof.next o.inside).kind = false := by
    rw [inside, CommaSeparated.tokens, List.append_assoc]
    exact Rule.endsMembers_plainMember o.members.first
  have hpeek : Rule.peek.Reads eof o.inside (eof.next o.inside) o.inside :=
    Rule.reads_peek.mpr ⟨rfl, rfl⟩
  -- Both start by looking for the end of the members, and do not find it.
  rw [Rule.items, Rule.nextMember, Rule.afterComma, bind_assoc, hpeek.run_bind, hpeek.run_bind]
  simp only [hopen, Bool.false_eq_true, if_false, bind_assoc, pure_bind]
  rfl

/-- An object whose names are distinct is read. -/
theorem reads_object (o : PlainObject) (hterminals : full.ReadsTerminals)
    (hnames : Distinct PlainMember.declaration o.members.items) :
    ∃ root, (Rule.object full o.opening.1.span).Reads eof o.inside root [] := by
  have hstart : Rule.KnowsMembers (#[], false) [] := ⟨rfl, rfl⟩
  obtain ⟨⟨members, flag⟩, ⟨-, hflag⟩, hrun⟩ :=
    (Rule.readsNew_members hterminals).run_items hstart hnames o.endsExpr_ending
  obtain rfl : flag = false := hflag
  obtain ⟨trailing, hending⟩ := o.reads_ending eof full members
  have hitems :
      (Rule.items endsMembers (Rule.pushMember full) #[]).Reads eof o.inside (members, trailing)
      [o.closing.1] := by
    unfold Rule.Reads
    rw [o.run_items]
    exact hrun.trans hending
  exact ⟨_, Rule.reads_object.mpr
    ⟨members, trailing, _, hitems, o.closing.1, [], rfl, .inl ⟨o.closing.2, rfl, rfl⟩⟩⟩

/-- An object fails at the first name that is declared again. -/
theorem failsWith_object (o : PlainObject) (hterminals : full.ReadsTerminals) {m : PlainMember}
    (hm : IsFirstRepeat PlainMember.declaration o.members.items m) :
    (Rule.object full o.opening.1.span).FailsWith eof o.inside m.declaration.error := by
  have hstart : Rule.KnowsMembers (#[], false) [] := ⟨rfl, rfl⟩
  have hfails : (Rule.items endsMembers (Rule.pushMember full) #[]).FailsWith eof o.inside
      m.declaration.error := by
    unfold Rule.FailsWith
    rw [o.run_items]
    exact (Rule.readsNew_members hterminals).failsWith_items hstart hm
  rw [Rule.object]
  exact hfails.bind

end PlainObject

/-! ## Local expressions -/

/-- The bindings of a `local` expression, with the keyword and the semicolon around them. -/
structure PlainLocal where
  word : TokenOf (.keyword .local)
  bindings : CommaSeparated PlainBinding
  semicolon : TokenOf (.punct .semicolon)

namespace PlainLocal

/-- The tokens behind the keyword. -/
def inside (l : PlainLocal) : List Token :=
  l.bindings.tokens (fun b => b.declaration.tokens) ++ [l.semicolon.1]

/-- The tokens in front of the body. -/
def tokens (l : PlainLocal) : List Token := l.word.1 :: l.inside

/-- The names that are bound. -/
def names (l : PlainLocal) : List String := l.bindings.items.map fun b => b.name.data

/-- Bindings are declared once if their names are distinct. -/
theorem distinct_iff (l : PlainLocal) :
    Distinct PlainBinding.declaration l.bindings.items ↔ l.names.Nodup := by
  have hnames :
      l.bindings.items.map (fun b => b.declaration.name) = l.names.map Declared.binding := by
    rw [names, List.map_map]
    rfl
  rw [Distinct, hnames]
  exact List.nodup_map_iff fun _ _ h => Declared.binding.inj h

variable {eof : EndMark} {full : Rule TokenStream Expr} {body : List Token}

/-- The bindings are read by the same steps from the first one on. -/
theorem bindings_eq (full : Rule TokenStream Expr) :
    Rule.bindings full =
      (Rule.pushBinding full #[] >>= Rule.moreDeclarations (Rule.pushBinding full)) >>=
      fun all => pure all.toList := by
  rw [bind_assoc]
  rfl

/-- Bindings of distinct names are read up to the semicolon. -/
theorem reads_bindings (l : PlainLocal) (eof : EndMark) (body : List Token)
    (hterminals : full.ReadsTerminals)
    (hnames : Distinct PlainBinding.declaration l.bindings.items) :
    ∃ bs, (Rule.bindings full).Reads eof (l.inside ++ body) bs (l.semicolon.1 :: body) := by
  have hstart : Rule.KnowsBindings #[] [] := rfl
  have hends : (eof.next (l.semicolon.1 :: body)).EndsExpr := .of_kind l.semicolon.2 rfl
  have hstop : comma? (eof.next (l.semicolon.1 :: body)) = none := by
    simp [Rule.comma?_eq_none, l.semicolon.2]
  obtain ⟨all, -, hrun⟩ := (Rule.readsNew_bindings hterminals).run_items hstart hnames hends
  refine ⟨all.toList, ?_⟩
  rw [bindings_eq, inside, List.append_assoc, List.singleton_append]
  exact Rule.reads_bind.mpr
    ⟨all, _, hrun.trans (Rule.reads_whileNext_stop hstop), Rule.reads_pure.mpr ⟨rfl, rfl⟩⟩

/-- With distinct names, a `local` expression is read exactly if its body is. -/
theorem reads_localForm_iff (l : PlainLocal) (hterminals : full.ReadsTerminals)
    (hnames : Distinct PlainBinding.declaration l.bindings.items) {rest : List Token} :
    (∃ root, (Rule.localForm full).Reads eof (l.tokens ++ body) root rest) ↔
      ∃ e, full.Reads eof body e rest := by
  obtain ⟨bs, hbindings⟩ := l.reads_bindings eof body hterminals hnames
  rw [tokens, List.cons_append]
  constructor
  · intro h
    obtain ⟨root, h⟩ := h
    obtain ⟨bs', mid, hread, semicolon, rest', rfl, -, e, hbody, -⟩ := Rule.reads_localForm.mp h
    -- The bindings have one reading only.
    obtain ⟨-, hsame⟩ := Outcome.done.inj (hbindings.symm.trans hread)
    cases hsame
    exact ⟨e, hbody⟩
  · intro h
    obtain ⟨e, hbody⟩ := h
    exact ⟨_, Rule.reads_localForm.mpr
      ⟨bs, _, hbindings, l.semicolon.1, body, rfl, l.semicolon.2, e, hbody, rfl⟩⟩

/-- A `local` expression fails at the first name that is bound again, whatever its body is. -/
theorem failsWith_localForm (l : PlainLocal) (hterminals : full.ReadsTerminals) {b : PlainBinding}
    (hb : IsFirstRepeat PlainBinding.declaration l.bindings.items b) :
    (Rule.localForm full).FailsWith eof (l.tokens ++ body) b.declaration.error := by
  have hstart : Rule.KnowsBindings #[] [] := rfl
  have hpop : Rule.pop.Reads eof (l.tokens ++ body) l.word.1 (l.inside ++ body) :=
    Rule.reads_pop_cons.mpr ⟨rfl, rfl⟩
  have hfails : (Rule.bindings full).FailsWith eof (l.inside ++ body) b.declaration.error := by
    rw [bindings_eq, inside, List.append_assoc]
    exact ((Rule.readsNew_bindings hterminals).failsWith_items hstart hb).bind
  exact hpop.bind_failsWith hfails.bind

end PlainLocal

/-! ## Programs -/

/-- A program whose outermost level fails is rejected with the error of the level. -/
theorem parse_eq_error_of_failsWith {tokens : List Token} {e : Error}
    (h : (Level.upTo maxNesting).full.FailsWith (.ofTokens tokens) (tokensAhead tokens) e) :
    parse tokens = .error e := by
  have hprogram : (programOutcome tokens).error? = some e := h.bind
  rw [parse, (program_ofTokens tokens).1]
  exact Outcome.error?_eq_some_iff.mp hprogram

/-- A program is accepted if all of its tokens are one expression. -/
theorem exists_parse_iff {tokens : List Token} :
    (∃ root, parse tokens = .ok root) ↔
      ∃ root, (Rule.expression (.upTo (maxNesting - 1)) .loosest).Reads (.ofTokens tokens)
        (tokensAhead tokens)
        root [] :=
  exists_congr fun _ => parse_eq_ok_iff

/-- Tokens are an expression at depth one if the level below the outermost one reads all of them. -/
theorem exists_program_iff {tokens body : List Token} {eof : EndMark}
    (hbody : body <:+ tokensAhead tokens) :
    (∃ e, (Session.program ⟨⟨body, eof.1⟩, 1⟩).1 = .ok e) ↔
      ∃ e, (Level.upTo (maxNesting - 1)).full.Reads eof body e [] := by
  simp only [Session.result_program]
  constructor
  · intro h
    obtain ⟨e, h⟩ := h
    -- What the program does with the body is decided by its outcome.
    cases hrun : Session.outcome ⟨⟨body, eof.1⟩, 1⟩ with
    | failed failure rest =>
      rw [hrun] at h
      cases h
    | done out rest =>
      -- The program ends at an end mark, and the tokens of the body hold none.
      obtain ⟨hread, hend⟩ := Rule.reads_program.mp (Rule.Reads.of_run hrun)
      rw [eq_nil_of_next_kind (hread.suffix.trans hbody) hend] at hread
      exact ⟨out, hread⟩
  · intro h
    obtain ⟨e, h⟩ := h
    have hprogram : Session.outcome ⟨⟨body, eof.1⟩, 1⟩ = .done e ⟨[], eof.1⟩ :=
      Rule.reads_program.mpr ⟨h, EndMark.kind_val eof⟩
    exact ⟨e, by rw [hprogram]; rfl⟩

/-- The tokens are no program because of a declaration: the error complains about its name, at the
    name. -/
def RejectedAt (tokens : List Token) (d : Declaration) : Prop :=
  ∃ e, parse tokens = .error e ∧ e.fault.message = d.name.complaint ∧ e.span = d.place.span

/-- What is rejected is not accepted. -/
theorem RejectedAt.not_ok {tokens : List Token} {d : Declaration} (h : RejectedAt tokens d) :
    ¬ ∃ root, parse tokens = .ok root := by
  obtain ⟨e, he, -, -⟩ := h
  rintro ⟨root, hroot⟩
  rw [he] at hroot
  cases hroot

/-- Where reading fails with the error of a declaration, the tokens are rejected at it. -/
theorem rejectedAt_of_failsWith {tokens : List Token} {d : Declaration}
    (h : (Rule.expression (.upTo (maxNesting - 1)) .loosest).FailsWith (.ofTokens tokens)
      (tokensAhead tokens)
      d.error) : RejectedAt tokens d :=
  ⟨d.error, parse_eq_error_of_failsWith h, d.name.message_repeated, rfl⟩

/-- One level down, single tokens are read as operands. -/
theorem readsTerminals_nested : (Level.upTo (maxNesting - 1)).full.ReadsTerminals :=
  Rule.readsTerminals_expression

namespace PlainObject

variable {o : PlainObject} {tokens : List Token}

/-- An object of distinct names is a program. -/
theorem exists_parse (htokens : tokensAhead tokens = o.tokens)
    (hnames : Distinct PlainMember.declaration o.members.items) :
    ∃ root, parse tokens = .ok root := by
  obtain ⟨root, hread⟩ := o.reads_object readsTerminals_nested hnames
  -- The object is the first operand, and the end mark ends the expression.
  have hend : ((EndMark.ofTokens tokens).next []).EndsExpr := .of_kind (EndMark.kind_val _) rfl
  refine exists_parse_iff.mpr ⟨root, ?_⟩
  rw [htokens]
  apply Rule.reads_expression_of_primary o.opening.2 _ hend
  exact Rule.reads_primary.mpr (.inl ⟨o.opening.1, _, rfl, .inl ⟨o.opening.2, hread⟩⟩)

/-- An object with a repeated name is rejected at the first repetition. -/
theorem rejectedAt (htokens : tokensAhead tokens = o.tokens) {m : PlainMember}
    (hm : IsFirstRepeat PlainMember.declaration o.members.items m) :
    RejectedAt tokens m.declaration := by
  apply rejectedAt_of_failsWith
  rw [htokens]
  exact Rule.failsWith_expression_of_object (o.failsWith_object readsTerminals_nested hm)

end PlainObject

namespace PlainLocal

variable {l : PlainLocal} {tokens body : List Token}

/-- The keyword leads to the rule for `local` expressions. -/
theorem ledBy?_next (l : PlainLocal) (full : Rule TokenStream Expr) (eof : EndMark)
    (body : List Token) :
    Rule.ledBy? full (eof.next (l.tokens ++ body)).kind = some (Rule.localForm full) := by
  have hkind : (eof.next (l.tokens ++ body)).kind = .keyword .local := l.word.2
  rw [hkind]
  rfl

/-- Bindings of distinct names are a program exactly if their body can stand at depth one. -/
theorem exists_parse_iff (htokens : tokensAhead tokens = l.tokens ++ body)
    (hnames : Distinct PlainBinding.declaration l.bindings.items) :
    (∃ root, parse tokens = .ok root) ↔
      ∃ e, (Session.program ⟨⟨body, (EndMark.ofTokens tokens).1⟩, 1⟩).1 = .ok e := by
  have hbody : body <:+ tokensAhead tokens := htokens ▸ List.suffix_append l.tokens body
  rw [JsonnetSyntax.exists_parse_iff, exists_program_iff hbody,
    ← l.reads_localForm_iff readsTerminals_nested hnames, htokens]
  simp [Rule.reads_expression, l.ledBy?_next]

/-- A `local` expression with a repeated name is rejected at the first repetition. -/
theorem rejectedAt (htokens : tokensAhead tokens = l.tokens ++ body) {b : PlainBinding}
    (hb : IsFirstRepeat PlainBinding.declaration l.bindings.items b) :
    RejectedAt tokens b.declaration := by
  apply rejectedAt_of_failsWith
  rw [htokens]
  exact Rule.failsWith_expression_of_form (l.ledBy?_next _ _ body)
    (l.failsWith_localForm readsTerminals_nested hb)

end PlainLocal

/-- Names may be declared once.  An object of plain fields and bindings is a program exactly if the
    names of its fields are distinct and those of its bindings are; a field and a binding may have
    the same name.  Bindings in front of a body that can stand at depth one are a program exactly if
    their names are distinct.  Otherwise the error complains about the first name that is declared
    again, at the token of the name. -/
theorem parse_ok_iff_distinctNames :
    (∀ (o : PlainObject) (tokens : List Token), tokensAhead tokens = o.tokens →
      ((∃ root, parse tokens = .ok root) ↔ o.fieldNames.Nodup ∧ o.localNames.Nodup) ∧
      (¬ (o.fieldNames.Nodup ∧ o.localNames.Nodup) →
        ∃ m, IsFirstRepeat PlainMember.declaration o.members.items m ∧
          RejectedAt tokens m.declaration)) ∧
    (∀ (l : PlainLocal) (body tokens : List Token), tokensAhead tokens = l.tokens ++ body →
      ((∃ root, parse tokens = .ok root) ↔ l.names.Nodup ∧
        ∃ e, (Session.program ⟨⟨body, (EndMark.ofTokens tokens).1⟩, 1⟩).1 = .ok e) ∧
      (¬ l.names.Nodup →
        ∃ b, IsFirstRepeat PlainBinding.declaration l.bindings.items b ∧
          RejectedAt tokens b.declaration)) := by
  constructor
  · intro o tokens htokens
    rw [← o.distinct_iff]
    have hrejected (h : ¬ Distinct PlainMember.declaration o.members.items) :
        ∃ m, IsFirstRepeat PlainMember.declaration o.members.items m ∧
          RejectedAt tokens m.declaration := by
      obtain ⟨m, hm⟩ := exists_isFirstRepeat h
      exact ⟨m, hm, o.rejectedAt htokens hm⟩
    refine ⟨⟨fun hok => ?_, PlainObject.exists_parse htokens⟩, hrejected⟩
    -- What is accepted is not rejected, so nothing is declared again.
    by_contra h
    obtain ⟨m, -, hm⟩ := hrejected h
    exact hm.not_ok hok
  · intro l body tokens htokens
    rw [← l.distinct_iff]
    have hrejected (h : ¬ Distinct PlainBinding.declaration l.bindings.items) :
        ∃ b, IsFirstRepeat PlainBinding.declaration l.bindings.items b ∧
          RejectedAt tokens b.declaration := by
      -- Without distinct names the first repetition is the error, whatever the body is.
      obtain ⟨b, hb⟩ := exists_isFirstRepeat h
      exact ⟨b, hb, l.rejectedAt htokens hb⟩
    refine ⟨?_, hrejected⟩
    by_cases hnames : Distinct PlainBinding.declaration l.bindings.items
    · simp only [hnames, true_and]
      exact PlainLocal.exists_parse_iff htokens hnames
    · obtain ⟨b, -, hb⟩ := hrejected hnames
      simp only [hnames, false_and, iff_false]
      exact hb.not_ok

namespace SampleNames

/-- A token on the first line of a file. -/
def token (kind : TokenKind) (data : String) (column : Nat) : Token :=
  { kind := kind, data := data, span := .point "sample" ⟨1, column⟩ }

/-- The binding `a = null`. -/
def binding (column : Nat) : PlainBinding :=
  ⟨token .identifier "a" column, token .operator "=" (column + 2),
    token (.keyword .null) "null" (column + 4), .null, rfl, rfl, rfl⟩

/-- The object `{a: self, local a = null, "a":: self,}`. -/
def object : PlainObject where
  opening := ⟨token (.punct .braceL) "\x7b" 1, rfl⟩
  members :=
    { first :=
      .field ⟨token .identifier "a" 2, token .operator ":" 3, token (.keyword .self) "self" 5,
        .inherit, false, .self, .inl rfl, rfl, rfl, rfl⟩
      later :=
        [(⟨token (.punct .comma) "," 9, rfl⟩,
          .binding ⟨token (.keyword .local) "local" 11, rfl⟩ (binding 17)),
         (⟨token (.punct .comma) "," 25, rfl⟩,
          .field ⟨token (.string .double) "a" 27, token .operator "::" 30,
            token (.keyword .self) "self" 33, .hidden, false, .self, .inr ⟨.double, rfl⟩, rfl, rfl,
            rfl⟩)] }
  trailing := some ⟨token (.punct .comma) "," 37, rfl⟩
  closing := ⟨token (.punct .braceR) "\x7d" 38, rfl⟩

/-- The start `local a = null;` of an expression. -/
def chain : PlainLocal where
  word := ⟨token (.keyword .local) "local" 1, rfl⟩
  bindings := { first := binding 7, later := [] }
  semicolon := ⟨token (.punct .semicolon) ";" 15, rfl⟩

/-- The end of the file. -/
def eof : Token := token .endOfFile "" 40

end SampleNames

open SampleNames in
/-- The second field of the name is rejected, the binding in front of it is not; a body that uses a
    bound name is accepted. -/
theorem parse_ok_iff_distinctNames_sample :
    tokensAhead (object.tokens ++ [eof]) = object.tokens ∧
    (∃ m, IsFirstRepeat PlainMember.declaration object.members.items m ∧
      RejectedAt (object.tokens ++ [eof]) m.declaration) ∧
    tokensAhead (chain.tokens ++ [token .identifier "a" 17] ++ [eof]) =
      chain.tokens ++ [token .identifier "a" 17] ∧
    ∃ root, parse (chain.tokens ++ [token .identifier "a" 17] ++ [eof]) = .ok root := by
  obtain ⟨hobject, hlocal⟩ := parse_ok_iff_distinctNames
  have htokens : tokensAhead (object.tokens ++ [eof]) = object.tokens := by decide +kernel
  have hbody : tokensAhead (chain.tokens ++ [token .identifier "a" 17] ++ [eof]) =
      chain.tokens ++ [token .identifier "a" 17] := by decide +kernel
  have hnames : ¬ (object.fieldNames.Nodup ∧ object.localNames.Nodup) := by decide +kernel
  refine ⟨htokens, (hobject object _ htokens).2 hnames, hbody,
    (hlocal chain _ _ hbody).1.mpr ⟨?_, ?_⟩⟩
  · decide +kernel
  · -- A body of one token can stand at any depth.
    have hshape : Rule.terminalShape? (token .identifier "a" 17) = some (.var "a" "a") := rfl
    have hsuffix : [token .identifier "a" 17] <:+
        tokensAhead (chain.tokens ++ [token .identifier "a" 17] ++ [eof]) := by
      rw [hbody]
      exact List.suffix_append _ _
    exact (exists_program_iff hsuffix).mpr
      ⟨_, readsTerminals_nested hshape (.of_kind (EndMark.kind_val _) rfl)⟩

end JsonnetSyntax
