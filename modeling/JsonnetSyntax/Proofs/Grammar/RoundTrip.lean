import JsonnetSyntax.Proofs.Grammar.Reread

/-!
# Parsing undoes printing

A well-formed tree that is not too high is read back from its printed form.  Each construct is read
by the rule that is meant for it and stops at its own end, since its sub-expressions stand in
parentheses.  A level of the tree takes up to two levels of nesting: one for the sub-expression in
parentheses, and one for what stands between them.

## Key results

- `Rule.rereads_object`, `Rule.rereads_array`: objects and arrays
- `Rule.rereadsBare_expression`: one construct, from its sub-expressions
- `Level.rereadsBare_upTo`: all trees, by induction on the tree
- `parse_print`: a well-formed tree comes back from its printed form, up to places
-/

namespace JsonnetSyntax

namespace Rule

variable {eof : EndMark} {full : Rule TokenStream Expr}

/-! ## Printed constructs

What is printed for a construct with lists in it, in terms of what is printed for an item. -/

/-- A call is printed as its target, its arguments in a list, and the word behind them. -/
theorem print_apply {span : Span} {target : Expr} {arguments : List Expr}
    {trailingComma tailStrict : Bool} :
    (Expr.node span (.apply target arguments trailingComma tailStrict)).print =
      parenthesise target.print ++
        .punct .parenL :: (separated (arguments.map fun e => parenthesise e.print) ++
          optionalComma trailingComma ++ [.punct .parenR]) ++
        if tailStrict then [.keyword .tailstrict] else [] := by
  simp [Shape.map, Shape.group, Shape.print, Function.comp_def]

/-- An array is printed as its elements between brackets. -/
theorem print_array {span : Span} {elements : List Expr} {trailingComma : Bool} :
    (Expr.node span (.array elements trailingComma)).print =
      .punct .bracketL :: (separated (elements.map fun e => parenthesise e.print) ++
        optionalComma trailingComma ++ [.punct .bracketR]) := by
  simp [Shape.map, Shape.group, Shape.print, Function.comp_def]

/-- An array comprehension is printed as its body, a comma if there is one, and its clauses. -/
theorem print_arrayComp {span : Span} {body : Expr} {trailingComma : Bool}
    {cs : List (Clause Expr)} :
    (Expr.node span (.arrayComp body trailingComma cs)).print =
      .punct .bracketL :: (parenthesise body.print ++ optionalComma trailingComma ++
        (cs.flatMap printClause ++ [.punct .bracketR])) := by
  rw [Expr.print_node, Shape.map, Shape.group, Shape.map, Shape.print, List.map_map,
    List.flatMap_map, ← List.append_assoc]
  · rfl
  all_goals simp

/-- Local bindings are printed in front of the expression, with a semicolon between them. -/
theorem print_local {span : Span} {bs : List (Binding Expr)} {body : Expr} :
    (Expr.node span (.local bs body)).print =
      .keyword .local :: (separated (bs.map printBinding) ++
        .punct .semicolon :: parenthesise body.print) := by
  rw [Expr.print_node, Shape.map, Shape.group, Shape.map, Shape.print, List.map_map, List.map_map]
  · rfl
  all_goals simp

/-- An object is printed as its members between braces. -/
theorem print_object {span : Span} {members : List (Member Expr)} {trailingComma : Bool} :
    (Expr.node span (.object members trailingComma)).print =
      .punct .braceL :: (separated (members.map printMember) ++ optionalComma trailingComma ++
        [.punct .braceR]) := by
  rw [Expr.print_node, Shape.map, Shape.group, Shape.print, List.map_map, List.map_map]
  rfl

/-- An object comprehension is printed as its members and then its clauses, between braces. -/
theorem print_objectComp {span : Span} {members : List (Member Expr)} {trailingComma : Bool}
    {cs : List (Clause Expr)} :
    (Expr.node span (.objectComp members trailingComma cs)).print =
      .punct .braceL :: (separated (members.map printMember) ++ optionalComma trailingComma ++
        (cs.flatMap printClause ++ [.punct .braceR])) := by
  rw [Expr.print_node, Shape.map, Shape.group, Shape.print, List.map_map, List.map_map,
    List.map_map, List.flatMap_map, ← List.append_assoc]
  rfl

/-! ## Objects -/

/-- An object is read back behind the brace that opens it. -/
theorem rereads_object (hterminals : full.ReadsTerminals) {e : Expr} (hobject : e.isObject = true)
    (hwf : e.shape.WellFormed) (hchildren : ∀ c ∈ e.children, full.Rereads c)
    {tokens : List Token} (htokens : Spelled tokens e.print) (eof : EndMark) (rest : List Token) :
    ∃ t tail, tokens = t :: tail ∧ t.kind = .punct .braceL ∧ ∀ opening, ∃ e',
      (object full opening).Reads eof (tail ++ rest) e' rest ∧ e'.erase = e.erase := by
  obtain ⟨span, shape⟩ := e
  cases shape with
  | object members trailingComma =>
    obtain ⟨hmembers, htrailing⟩ := hwf
    rw [print_object] at htokens
    obtain ⟨t, tail, ht, htail, rfl⟩ := spelled_cons.mp htokens
    -- The printed form is the brace, the members and the comma, and the closing brace.
    obtain ⟨front, closing, hfront, hclosing, rfl⟩ := spelled_concat.mp htail
    have hkind : closing.kind = .punct .braceR := hclosing
    have hend : endsMembers (eof.next (closing :: rest)).kind = true := by
      simp [endsMembers, hkind]
    have heach : ∀ m ∈ members, ∀ c ∈ m.children, full.Rereads c := by
      intro m hm c hc
      exact hchildren c (List.mem_flatMap.mpr ⟨m, hm, hc⟩)
    obtain ⟨out, hout, herase⟩ := rereads_members hterminals hmembers htrailing heach hfront hend
    refine ⟨t, _, rfl, ht, fun opening => ?_⟩
    refine ⟨.node (.between opening closing.span) (.object out.toList trailingComma), ?_, ?_⟩
    · rw [List.append_assoc, List.singleton_append]
      exact reads_object.mpr
        ⟨out, trailingComma, _, hout, closing, rest, rfl, .inl ⟨hkind, rfl, rfl⟩⟩
    · simp [Shape.map, herase]
  | objectComp members trailingComma cs =>
    obtain ⟨⟨hmembers, htrailing⟩, hcomprehensible, hstart⟩ := hwf
    rw [print_objectComp] at htokens
    obtain ⟨t, tail, ht, htail, rfl⟩ := spelled_cons.mp htokens
    obtain ⟨front, back, hfront, hback, rfl⟩ := spelled_append.mp htail
    obtain ⟨hmembersChildren, hclauses⟩ := List.forall_mem_append.mp hchildren
    have heach : ∀ m ∈ members, ∀ c ∈ m.children, full.Rereads c := by
      intro m hm c hc
      exact hmembersChildren c (List.mem_flatMap.mpr ⟨m, hm, hc⟩)
    rw [List.forall_mem_map] at hclauses
    obtain ⟨found, tail', cs', last, rfl, hfound, hread, hcs⟩ :=
      rereads_clauses hstart hclauses rfl hback
    have hend : endsMembers (eof.next (found :: (tail' ++ rest))).kind = true := by
      simp [endsMembers, hfound]
    obtain ⟨out, hout, herase⟩ := rereads_members hterminals hmembers htrailing heach hfront hend
    -- The members that were read pass the check since those that were printed do.
    have hfault : comprehensionFault? out.toList = none := by
      rw [← comprehensionFault?_map Expr.erase, herase, comprehensionFault?_map]
      exact comprehensionFault?_eq_none.mpr hcomprehensible
    refine ⟨t, _, rfl, ht, fun opening => ?_⟩
    refine ⟨.node (.between opening last) (.objectComp out.toList trailingComma cs'), ?_, ?_⟩
    · rw [List.append_assoc, List.cons_append]
      refine reads_object.mpr ⟨out, trailingComma, _, hout, found, _, rfl, .inr ⟨hfound, ?_⟩⟩
      exact reads_objectComp.mpr ⟨hfault, cs', last, hread, rfl⟩
    · simp [Shape.map, herase, hcs]
  | _ => cases hobject

/-! ## Arrays -/

/-- An array with a first element is read up to its bracket like any other list, if no `for` follows
    the element and the comma behind it. -/
theorem reads_array_of_moreItems {opening : Span} {ts mid mid' rest : List Token} {first : Expr}
    {comma : Bool} {out : Array Expr × Bool} {closing : Token}
    (hopen : (eof.next ts).kind ≠ .punct .bracketR) (hfirst : full.Reads eof ts first mid)
    (hcomma : (accept (.punct .comma)).Reads eof mid comma mid')
    (hfor : (eof.next mid').kind ≠ .keyword .for)
    (hmore : (moreItems (· == .punct .bracketR) (pushExpr full) (#[first], false)).Reads eof mid out
      (closing :: rest))
    (hclosing : closing.kind = .punct .bracketR) :
    (array full opening).Reads eof ts
      (.node (.between opening closing.span) (.array out.1.toList out.2)) rest := by
  rw [array, reads_nextIs_bind, reads_ite]
  -- The bracket is not closed at once, and behind the element and its comma no `for` is found.
  refine .inr ⟨by simpa using hopen, reads_bind.mpr ⟨first, mid, hfirst, ?_⟩⟩
  refine reads_bind.mpr ⟨comma, mid', hcomma, ?_⟩
  rw [reads_accept_bind (by simp)]
  refine .inr ⟨hfor, ?_⟩
  rw [if_neg (by simp)]
  -- What was looked at is the front of the further items, which are read as in any list.
  refine (reads_moreItems_bind hcomma).mpr (reads_bind.mpr ⟨out, _, hmore, ?_⟩)
  refine reads_bind.mpr ⟨⟨out.1.toList, out.2, closing⟩, rest, ?_, reads_pure.mpr ⟨rfl, rfl⟩⟩
  exact reads_closeList.mpr ⟨rfl, hclosing, rfl⟩

/-- A comma behind the first element is accepted, and no `for` follows it. -/
theorem accept_comma_of_spelled {later : List Expr} {trailingComma : Bool} {tokens : List Token}
    {closing : Token} (hclosing : closing.kind = .punct .bracketR)
    (h : Spelled tokens (later.flatMap (fun e => .punct .comma :: parenthesise e.print) ++
      optionalComma trailingComma)) (eof : EndMark) (rest : List Token) :
    ∃ comma mid, (accept (.punct .comma)).Reads eof (tokens ++ closing :: rest) comma mid ∧
      (eof.next mid).kind ≠ .keyword .for := by
  -- What follows the first element is a comma if there are further ones, or if one is printed.
  cases later with
  | nil =>
    cases trailingComma with
    | false =>
      have hnil : tokens = [] := spelled_nil.mp h
      rw [hnil]
      refine ⟨false, _, (reads_accept (by simp)).mpr (.inr ⟨?_, rfl, rfl⟩), ?_⟩
      · simp [hclosing]
      · simp [hclosing]
    | true =>
      obtain ⟨t, ht, rfl⟩ := spelled_singleton.mp h
      refine ⟨true, closing :: rest, (reads_accept (by simp)).mpr (.inl ⟨t, rfl, ht, rfl⟩), ?_⟩
      simp [hclosing]
  | cons e later =>
    rw [List.flatMap_cons, List.append_assoc, List.cons_append] at h
    obtain ⟨t, tail, ht, htail, rfl⟩ := spelled_cons.mp h
    obtain ⟨front, back, hfront, -, rfl⟩ := spelled_append.mp htail
    refine ⟨true, front ++ back ++ closing :: rest,
      (reads_accept (by simp)).mpr (.inl ⟨t, rfl, ht, rfl⟩), ?_⟩
    -- Behind that comma stands a parenthesis.
    rw [List.append_assoc, next_of_spelled_punct hfront]
    simp

/-- An array is read back behind the bracket that opens it. -/
theorem rereads_array {elements : List Expr} {trailingComma : Bool}
    (htrailing : CommaFollowsItem elements trailingComma)
    (helements : ∀ e ∈ elements, full.Rereads e) {tokens : List Token}
    (htokens : Spelled tokens (separated (elements.map fun e => parenthesise e.print) ++
      optionalComma trailingComma ++ [.punct .bracketR])) (opening : Span) (rest : List Token) :
    ∃ span elements', (array full opening).Reads eof (tokens ++ rest)
        (.node span (.array elements' trailingComma)) rest ∧
      elements'.map Expr.erase = elements.map Expr.erase := by
  obtain ⟨items, closing, hitems, hclosing, rfl⟩ := spelled_concat.mp htokens
  rw [List.append_assoc, List.singleton_append]
  have hkind : closing.kind = .punct .bracketR := hclosing
  have hend : ((eof.next (closing :: rest)).kind == .punct .bracketR) = true := by simp [hkind]
  have heach : ReadsEach eof (· == .punct .bracketR) (pushExpr full) (fun e => parenthesise e.print)
      (fun read done => read.toList.map Expr.erase = done.map Expr.erase) elements :=
    readsEach_exprs helements (by simp) (by simp) rfl
  cases elements with
  | nil =>
    rw [htrailing.eq_false] at hitems ⊢
    have hnil : items = [] := spelled_nil.mp hitems
    rw [hnil]
    refine ⟨.between opening closing.span, [], ?_, rfl⟩
    rw [array, reads_nextIs_bind, reads_ite]
    exact .inl ⟨hend, reads_pop_cons_bind.mpr (reads_pure.mpr ⟨rfl, rfl⟩)⟩
  | cons first later =>
    rw [List.map_cons, separated_cons, List.flatMap_map, List.append_assoc] at hitems
    obtain ⟨front, back, hfront, hback, rfl⟩ := spelled_append.mp hitems
    have hbehind : (eof.next (back ++ closing :: rest)).EndsExpr := by
      obtain hcomma | rfl := next_of_spelled_more hback
      · exact .of_kind hcomma rfl
      · exact .of_kind hkind rfl
    obtain ⟨first', hfirst, herase⟩ := helements first (List.mem_cons_self ..) hfront hbehind
    -- The rule looks behind the first element for a comprehension and finds none.
    obtain ⟨comma, mid, hcomma, hfor⟩ := accept_comma_of_spelled hkind hback eof rest
    have hseen : #[first'].toList.map Expr.erase = [first].map Expr.erase := by
      rw [List.map_singleton, List.map_singleton, herase]
    have hsplit : first :: later = [first] ++ later := rfl
    obtain ⟨out, hout, hall⟩ := reads_moreItems_of_spelled heach hend hsplit hseen hback
    refine ⟨.between opening closing.span, out.toList, ?_, hall⟩
    rw [List.append_assoc]
    refine reads_array_of_moreItems ?_ hfirst hcomma hfor hout hkind
    rw [next_of_spelled_punct hfront]
    simp

/-- An array comprehension is read back behind the bracket that opens it. -/
theorem rereads_arrayComp {body : Expr} {trailingComma : Bool} {cs : List (Clause Expr)}
    (hstart : StartWithLoop cs) (hbody : full.Rereads body)
    (hclauses : ∀ c ∈ cs, full.Rereads c.expr) {tokens : List Token}
    (htokens : Spelled tokens (parenthesise body.print ++
      optionalComma trailingComma ++ (cs.flatMap printClause ++ [.punct .bracketR])))
    (opening : Span) (rest : List Token) :
    ∃ span body' cs', (array full opening).Reads eof (tokens ++ rest)
        (.node span (.arrayComp body' trailingComma cs')) rest ∧
      body'.erase = body.erase ∧
      cs'.map (Clause.map Expr.erase) = cs.map (Clause.map Expr.erase) := by
  -- The body, the comma behind it if there is one, and the clauses.
  obtain ⟨front, back, hfront, hback, rfl⟩ := spelled_append.mp htokens
  obtain ⟨bodyTokens, comma, hbodyTokens, hcomma, rfl⟩ := spelled_append.mp hfront
  obtain ⟨t, tail, cs', last, rfl, ht, hread, hcs⟩ := rereads_clauses hstart hclauses rfl hback
  have haccept : (accept (.punct .comma)).Reads eof (comma ++ t :: (tail ++ rest)) trailingComma
      (t :: (tail ++ rest)) :=
    reads_accept_of_spelled hcomma (by simp [ht]) (by simp) fun _ hc => hc
  have hbehind : (eof.next (comma ++ t :: (tail ++ rest))).EndsExpr := by
    cases trailingComma with
    | false =>
      have hnil : comma = [] := spelled_nil.mp hcomma
      rw [hnil]
      exact .of_kind ht rfl
    | true =>
      obtain ⟨c, hc, rfl⟩ := spelled_singleton.mp hcomma
      exact .of_kind hc rfl
  obtain ⟨body', hbodyRead, herase⟩ := hbody hbodyTokens hbehind
  refine ⟨.between opening last, body', cs', ?_, herase, hcs⟩
  -- The rule reads the body and the comma as for an array, and then finds the clauses.
  rw [List.append_assoc, List.append_assoc, List.cons_append, array, reads_nextIs_bind, reads_ite,
    next_of_spelled_punct hbodyTokens]
  refine .inr
    ⟨by simp, reads_bind.mpr ⟨body', _, hbodyRead, reads_bind.mpr ⟨trailingComma, _, haccept, ?_⟩⟩⟩
  rw [reads_accept_bind (by simp)]
  refine .inl ⟨t, _, rfl, ht, ?_⟩
  exact reads_bind.mpr ⟨(cs', last), rest, hread, reads_pure.mpr ⟨rfl, rfl⟩⟩

/-! ## Operands and operators -/

variable {g : Level TokenStream} {ts rest : List Token} {e : Expr}

/-- An operand without suffixes. -/
theorem reads_operand_of_primary (h : (primary full).Reads eof ts e rest)
    (hrest : (eof.next rest).EndsExpr) : (operand full).Reads eof ts e rest :=
  reads_operand.mpr ⟨e, rest, h, reads_whileNext_stop hrest.suffix⟩

/-- An operand with one suffix. -/
theorem reads_operand_of_suffix (kind : Suffix) {first : Expr} {opening : Token} {mid : List Token}
    (hfirst : (primary full).Reads eof ts first (opening :: mid))
    (hopening : opening.kind = .punct (suffixMark kind))
    (hsuffix : (suffix full (eof.next ts).span opening kind first).Reads eof mid e rest)
    (hrest : (eof.next rest).EndsExpr) : (operand full).Reads eof ts e rest := by
  refine reads_operand.mpr ⟨first, _, hfirst, reads_whileNext.mpr (.inr ?_)⟩
  exact ⟨opening, mid, kind, e, rest, rfl, ofToken?_eq_suffix.mpr hopening, hsuffix,
    reads_whileNext_stop hrest.suffix⟩

/-- An operand with its unary operators on its own is an expression. -/
theorem reads_expression_of_unary (hled : ledBy? g.full (eof.next ts).kind = none)
    (h : (unary g).Reads eof ts e rest) (hrest : (eof.next rest).EndsExpr)
    {precedence : Precedence} :
    (expression g precedence).Reads eof ts e rest := by
  have hchain : (binaryChain g precedence (eof.next ts).span e).Reads eof rest e rest :=
    reads_binaryChain.mpr ⟨reads_whileNext_stop (hrest.binaryOp _), hrest.isStrayOperator⟩
  exact reads_expression.mpr (.inr ⟨hled, e, rest, h, hchain⟩)

/-- An operand on its own is an expression. -/
theorem reads_expression_of_operand (hkind : (eof.next ts).kind ≠ .operator)
    -- Neither an operator nor a keyword leads the operand, so nothing but the operand is tried.
    (hled : ledBy? g.full (eof.next ts).kind = none) (h : (operand g.full).Reads eof ts e rest)
    (hrest : (eof.next rest).EndsExpr) {precedence : Precedence} :
    (expression g precedence).Reads eof ts e rest := by
  have hunary : (unary g).Reads eof ts e rest := reads_unary.mpr (.inr ⟨hkind, h⟩)
  exact reads_expression_of_unary hled hunary hrest

/-- An operand that starts with a bracket of any kind is an expression. -/
theorem reads_expression_of_punct {mark : Punct} (hkind : (eof.next ts).kind = .punct mark)
    (h : (operand g.full).Reads eof ts e rest) (hrest : (eof.next rest).EndsExpr)
    {precedence : Precedence} : (expression g precedence).Reads eof ts e rest := by
  refine reads_expression_of_operand ?_ ?_ h hrest
  · simp [hkind]
  · simp [hkind, ledBy?]

/-- An operand without suffixes that starts with a bracket of any kind is an expression. -/
theorem reads_expression_of_primary {t : Token} {mark : Punct} (ht : t.kind = .punct mark)
    (h : (primary g.full).Reads eof (t :: ts) e rest) (hrest : (eof.next rest).EndsExpr)
    {precedence : Precedence} : (expression g precedence).Reads eof (t :: ts) e rest := by
  have hkind : (eof.next (t :: ts)).kind = .punct mark := ht
  exact reads_expression_of_punct hkind (reads_operand_of_primary h hrest) hrest

/-- An expression that is read back where it stands alone is read back from between parentheses, as
    an operand without suffixes. -/
theorem rereads_primary {c : Expr} (hbare : full.RereadsBare c) {tokens : List Token}
    (htokens : Spelled tokens (parenthesise c.print)) (eof : EndMark) (rest : List Token) :
    ∃ c', (primary full).Reads eof (tokens ++ rest) c' rest ∧ c'.erase = c.erase := by
  obtain ⟨t, tail, ht, htail, rfl⟩ := spelled_cons.mp htokens
  obtain ⟨inner, closing, hinner, hclosing, rfl⟩ := spelled_concat.mp htail
  have hend : (eof.next (closing :: rest)).kind = .punct .parenR ∨
      (eof.next (closing :: rest)).kind = .endOfFile := .inl hclosing
  obtain ⟨c', hread, herase⟩ := hbare hinner hend
  refine ⟨c', ?_, herase⟩
  rw [List.cons_append, List.append_assoc, List.singleton_append]
  refine reads_primary.mpr (.inl ⟨t, _, rfl, .inr (.inr ⟨ht, ?_⟩)⟩)
  exact reads_parenthesised.mpr ⟨_, hread, closing, rfl, hclosing⟩

/-- At any precedence, an expression is read back from between parentheses. -/
theorem rereads_expression {c : Expr} (hbare : g.full.RereadsBare c) {precedence : Precedence} :
    (expression g precedence).Rereads c := by
  intro eof tokens rest htokens hrest
  obtain ⟨c', hread, herase⟩ := rereads_primary hbare htokens eof rest
  have hkind : (eof.next (tokens ++ rest)).kind = .punct .parenL :=
    next_of_spelled_punct htokens eof rest
  exact ⟨c', reads_expression_of_punct hkind (reads_operand_of_primary hread hrest) hrest, herase⟩

/-- As the operand of a unary operator, an expression is read back from between parentheses. -/
theorem rereads_unaryOperand {c : Expr} (hbare : g.full.RereadsBare c) :
    (unaryOperand g).Rereads c := by
  intro eof tokens rest htokens hrest
  obtain ⟨c', hread, herase⟩ := rereads_primary hbare htokens eof rest
  have hkind : (eof.next (tokens ++ rest)).kind = .punct .parenL :=
    next_of_spelled_punct htokens eof rest
  refine ⟨c', reads_unaryOperand.mpr (.inr ⟨?_, reads_unary.mpr (.inr ⟨?_, ?_⟩)⟩), herase⟩
  · simp [hkind, ledBy?]
  · simp [hkind]
  · exact reads_operand_of_primary hread hrest

/-- An operand that starts with no bracket of any kind is an expression. -/
theorem reads_expression_of_terminal {t : Token} (hkind : t.kind ≠ .operator)
    (hled : ledBy? g.full t.kind = none) (hbrace : t.kind ≠ .punct .braceL)
    (hbracket : t.kind ≠ .punct .bracketL) (hparen : t.kind ≠ .punct .parenL)
    (h : (terminal g.full).Reads eof (t :: ts) e rest) (hrest : (eof.next rest).EndsExpr)
    {precedence : Precedence} : (expression g precedence).Reads eof (t :: ts) e rest := by
  have hprimary : (primary g.full).Reads eof (t :: ts) e rest :=
    reads_primary.mpr (.inr ⟨hbrace, hbracket, hparen, h⟩)
  refine reads_expression_of_operand ?_ ?_ (reads_operand_of_primary hprimary hrest) hrest
  · exact hkind
  · exact hled

/-- Every token that is an operand on its own is an expression. -/
theorem readsTerminals_expression {precedence : Precedence} :
    (expression g precedence).ReadsTerminals := by
  intro eof t shape rest hshape hrest
  have hterminal : (terminal g.full).Reads eof (t :: rest) (.node t.span shape) rest :=
    reads_terminal.mpr ⟨t, rest, rfl, .inl ⟨shape, hshape, rfl, rfl⟩⟩
  -- The token is none of those that open a bracket or lead a form.
  obtain ⟨hoperator, hled, hbrace, hbracket, hparen⟩ := kind_of_terminalShape hshape
  exact reads_expression_of_terminal hoperator hled hbrace hbracket hparen hterminal hrest

/-! ## Expressions led by a keyword -/

/-- An expression that a keyword leads. -/
theorem reads_expression_of_form {t : Token} {word : Keyword} {form : Rule TokenStream Expr}
    (ht : t.kind = .keyword word) (hform : ledBy? g.full (.keyword word) = some form)
    (h : form.Reads eof (t :: ts) e rest) {precedence : Precedence} :
    (expression g precedence).Reads eof (t :: ts) e rest := by
  refine reads_expression.mpr (.inl ⟨form, ?_, h⟩)
  rw [EndMark.next_cons, ht]
  exact hform

/-- An assertion is read back behind its keyword, up to the end of the expression behind it. -/
theorem rereads_assertForm {cond body : Expr} {message : Option Expr} (hcond : full.Rereads cond)
    (hmessage : ∀ m ∈ message.toList, full.Rereads m) (hbody : full.Rereads body) {t : Token}
    {tokens : List Token} (htokens : Spelled tokens (parenthesise cond.print ++
      printMessage ((message.map Expr.print).map parenthesise) ++
      .punct .semicolon :: parenthesise body.print)) (hrest : (eof.next rest).EndsExpr) :
    ∃ span cond' message' body', (assertForm full).Reads eof (t :: (tokens ++ rest))
        (.node span (.assert cond' message' body')) rest ∧
      cond'.erase = cond.erase ∧ message'.map Expr.erase = message.map Expr.erase ∧
      body'.erase = body.erase := by
  obtain ⟨front, back, hfront, hback, rfl⟩ := spelled_append.mp htokens
  obtain ⟨semicolon, tail, hsemicolon, htail, rfl⟩ := spelled_cons.mp hback
  have hkind : semicolon.kind = .punct .semicolon := hsemicolon
  have hend : (eof.next (semicolon :: (tail ++ rest))).kind.endsOperand = true := by
    rw [EndMark.next_cons, hkind]
    rfl
  -- The condition and its message end at the semicolon.
  obtain ⟨cond', message', hread, hcond', hmessage'⟩ := rereads_condition hcond hmessage hfront hend
  obtain ⟨body', hreadBody, hbody'⟩ := hbody htail hrest
  have hform : (assertForm full).Reads eof (t :: (front ++ semicolon :: (tail ++ rest)))
      (.node (.between t.span body'.span) (.assert cond' message' body')) rest :=
    reads_assertForm.mpr
      ⟨cond', message', _, hread, semicolon, _, rfl, hkind, body', hreadBody, rfl⟩
  rw [List.append_assoc, List.cons_append]
  exact ⟨_, cond', message', body', hform, hcond', hmessage', hbody'⟩

/-- A conditional is read back behind its keyword, unless an `else` follows that is not its own. -/
theorem rereads_conditionalForm {cond whenTrue : Expr} {whenFalse : Option Expr}
    (hcond : full.Rereads cond) (htrue : full.Rereads whenTrue)
    (hfalse : ∀ e ∈ whenFalse.toList, full.Rereads e) {t : Token} {tokens : List Token}
    (htokens : Spelled tokens
      (parenthesise cond.print ++ .keyword .then :: parenthesise whenTrue.print ++
        ((whenFalse.map Expr.print).map parenthesise).elim [] fun ps => .keyword .else :: ps))
    (hrest : (eof.next rest).EndsExpr) (helse : (eof.next rest).kind ≠ .keyword .else) :
    ∃ span cond' whenTrue' whenFalse', (conditionalForm full).Reads eof (t :: (tokens ++ rest))
        (.node span (.conditional cond' whenTrue' whenFalse')) rest ∧
      cond'.erase = cond.erase ∧ whenTrue'.erase = whenTrue.erase ∧
      whenFalse'.map Expr.erase = whenFalse.map Expr.erase := by
  obtain ⟨front, back, hfront, hback, rfl⟩ := spelled_append.mp htokens
  obtain ⟨condTokens, tail, hcondTokens, htail, rfl⟩ := spelled_append.mp hfront
  obtain ⟨t', trueTokens, ht', htrueTokens, rfl⟩ := spelled_cons.mp htail
  rw [List.append_assoc, List.append_assoc, List.cons_append]
  -- The condition ends at `then`, and the first branch at `else` or at the end of the form.
  have hthen : (eof.next (t' :: (trueTokens ++ (back ++ rest)))).EndsExpr := .of_kind ht' rfl
  obtain ⟨cond', hread, hcond'⟩ := hcond hcondTokens hthen
  -- Without a second branch, the form ends with the first one.
  cases whenFalse with
  | none =>
    have hnil : back = [] := spelled_nil.mp hback
    rw [hnil] at hread ⊢
    obtain ⟨whenTrue', hreadTrue, htrue'⟩ := htrue htrueTokens hrest
    have hform : (conditionalForm full).Reads eof (t :: (condTokens ++ t' :: (trueTokens ++ rest)))
        (.node (.between t.span whenTrue'.span) (.conditional cond' whenTrue' none)) rest :=
      reads_conditionalForm.mpr
        ⟨cond', _, hread, t', _, rfl, ht', whenTrue', _, hreadTrue, .inr ⟨helse, rfl, rfl⟩⟩
    exact ⟨_, cond', whenTrue', none, hform, hcond', htrue', rfl⟩
  | some e =>
    obtain ⟨t'', falseTokens, ht'', hfalseTokens, rfl⟩ := spelled_cons.mp hback
    have hend : (eof.next (t'' :: (falseTokens ++ rest))).EndsExpr := .of_kind ht'' rfl
    obtain ⟨whenTrue', hreadTrue, htrue'⟩ := htrue htrueTokens hend
    obtain ⟨e', hreadFalse, he'⟩ := hfalse e (by simp) hfalseTokens hrest
    have hform : (conditionalForm full).Reads eof
        (t :: (condTokens ++ t' :: (trueTokens ++ t'' :: (falseTokens ++ rest))))
        (.node (.between t.span e'.span) (.conditional cond' whenTrue' (some e'))) rest :=
      reads_conditionalForm.mpr ⟨cond', _, hread, t', _, rfl, ht', whenTrue', _, hreadTrue,
        .inl ⟨t'', _, rfl, ht'', e', hreadFalse, rfl⟩⟩
    exact ⟨_, cond', whenTrue', some e', hform, hcond', htrue', by simp [he']⟩

/-- A function is read back behind its keyword. -/
theorem rereads_functionForm (hterminals : full.ReadsTerminals) {p : Parameters} {body : Expr}
    (hp : p.WellFormed) (hbody : full.Rereads body) {t : Token} {tokens : List Token}
    (htokens : Spelled tokens (p.print ++ parenthesise body.print))
    (hrest : (eof.next rest).EndsExpr) :
    ∃ span body', (functionForm full).Reads eof (t :: (tokens ++ rest))
        (.node span (.function p body')) rest ∧ body'.erase = body.erase := by
  obtain ⟨front, back, hfront, hback, rfl⟩ := spelled_append.mp htokens
  obtain ⟨opening, params, hopening, hparams, rfl⟩ := spelled_cons.mp hfront
  obtain ⟨body', hread, hbody'⟩ := hbody hback hrest
  have hps :
      (parameters full .functionParameter).Reads eof (params ++ (back ++ rest)) p (back ++ rest) :=
    rereads_parameters hterminals hp hparams
  have hform : (functionForm full).Reads eof (t :: opening :: (params ++ (back ++ rest)))
      (.node (.between t.span body'.span) (.function p body')) rest :=
    reads_functionForm.mpr ⟨opening, _, rfl, hopening, p, _, hps, body', hread, rfl⟩
  rw [List.append_assoc, List.cons_append]
  exact ⟨_, body', hform, hbody'⟩

/-- The name of a file is read back as a string literal. -/
theorem rereads_importForm (hterminals : full.ReadsTerminals) {shape : String → Shape Expr}
    {name : String} {t : Token} {tokens : List Token} (htokens : Spelled tokens [.file name])
    (hrest : (eof.next rest).EndsExpr) :
    ∃ span,
      (importForm full shape).Reads eof (t :: (tokens ++ rest)) (.node span (shape name)) rest := by
  -- The token of a file name is a string of some form, and its text is the name.
  obtain ⟨t', ⟨⟨form, hkind⟩, hname⟩, rfl⟩ := spelled_singleton.mp htokens
  have hshape : terminalShape? t' = some (t'.stringShape form) := by simp [terminalShape?, hkind]
  refine ⟨.between t.span t'.span, reads_importForm.mpr ⟨_, hterminals hshape hrest, name, ?_, rfl⟩⟩
  rw [← hname]
  rfl

/-- Local bindings and the expression behind them are read back behind their keyword. -/
theorem rereads_localForm (hterminals : full.ReadsTerminals) {bs : List (Binding Expr)}
    {body : Expr} (hwf : BindingsWellFormed bs) (hbodies : ∀ b ∈ bs, full.Rereads b.body)
    (hbody : full.Rereads body)
    {t : Token} {tokens : List Token} (htokens : Spelled tokens (separated (bs.map printBinding) ++
      .punct .semicolon :: parenthesise body.print)) (hrest : (eof.next rest).EndsExpr) :
    ∃ span bs' body', (localForm full).Reads eof (t :: (tokens ++ rest))
        (.node span (.local bs' body')) rest ∧
      bs'.map (Binding.map Expr.erase) = bs.map (Binding.map Expr.erase) ∧
      body'.erase = body.erase := by
  obtain ⟨front, back, hfront, hback, rfl⟩ := spelled_append.mp htokens
  obtain ⟨semicolon, tail, hsemicolon, htail, rfl⟩ := spelled_cons.mp hback
  have hkind : (eof.next (semicolon :: (tail ++ rest))).kind = .punct .semicolon := hsemicolon
  obtain ⟨bs', hreadBindings, hbs'⟩ := rereads_bindings hterminals hwf hbodies hfront hkind
  obtain ⟨body', hread, hbody'⟩ := hbody htail hrest
  have hform : (localForm full).Reads eof (t :: (front ++ semicolon :: (tail ++ rest)))
      (.node (.between t.span body'.span) (.local bs' body')) rest :=
    reads_localForm.mpr ⟨bs', _, hreadBindings, semicolon, _, rfl, hsemicolon, body', hread, rfl⟩
  rw [List.append_assoc, List.cons_append]
  exact ⟨_, bs', body', hform, hbs', hbody'⟩

/-! ## Suffixes -/

/-- A selector is read back behind the dot or the bracket that opens it. -/
theorem rereads_selector {selector : Selector Expr}
    (hindex : ∀ c ∈ selector.children, full.Rereads c) {tokens : List Token}
    (htokens : Spelled tokens ((selector.map Expr.print).map parenthesise).print) (eof : EndMark)
    (rest : List Token) :
    ∃ t tail selector' last, tokens = t :: tail ∧
      (t.kind = .punct .dot ∧ fieldSelector.Reads eof (tail ++ rest) (selector', last) rest ∨
        t.kind = .punct .bracketL ∧
          (indexSelector full).Reads eof (tail ++ rest) (selector', last) rest) ∧
      selector'.map Expr.erase = selector.map Expr.erase := by
  -- A name stands behind a dot, any other selector between brackets.
  cases selector with
  | field name =>
    obtain ⟨t, tail, ht, htail, rfl⟩ := spelled_cons.mp htokens
    obtain ⟨var, ⟨hkind, hname⟩, rfl⟩ := spelled_singleton.mp htail
    refine ⟨t, _, .field var.data, var.span, rfl, .inl ⟨ht, ?_⟩, by rw [hname]⟩
    exact reads_fieldSelector.mpr ⟨var, rfl, hkind, rfl⟩
  | expr index =>
    obtain ⟨t, tail, ht, htail, rfl⟩ := spelled_cons.mp htokens
    obtain ⟨inner, closing, hinner, hclosing, rfl⟩ := spelled_concat.mp htail
    have hend : (eof.next (closing :: rest)).EndsExpr := .of_kind hclosing rfl
    obtain ⟨index', hread, herase⟩ := hindex index (List.mem_singleton.mpr rfl) hinner hend
    refine ⟨t, _, .expr index', closing.span, rfl, .inr ⟨ht, ?_⟩, by simp [Selector.map, herase]⟩
    rw [List.append_assoc]
    exact reads_indexSelector.mpr ⟨index', _, hread, closing, rfl, hclosing, rfl⟩

/-- A selector behind a target in parentheses. -/
theorem rereads_index {target : Expr} {selector : Selector Expr} (htarget : full.RereadsBare target)
    (hindex : ∀ c ∈ selector.children, full.Rereads c) {tokens : List Token}
    (htokens : Spelled tokens
      (parenthesise target.print ++ ((selector.map Expr.print).map parenthesise).print))
    (hrest : (eof.next rest).EndsExpr) :
    ∃ span target' selector', (operand full).Reads eof (tokens ++ rest)
        (.node span (.index target' selector')) rest ∧
      target'.erase = target.erase ∧ selector'.map Expr.erase = selector.map Expr.erase := by
  obtain ⟨front, back, hfront, hback, rfl⟩ := spelled_append.mp htokens
  obtain ⟨t, tail, selector', last, rfl, hselector, herase⟩ :=
    rereads_selector hindex hback eof rest
  obtain ⟨target', hread, htarget'⟩ := rereads_primary htarget hfront eof (t :: (tail ++ rest))
  rw [List.append_assoc, List.cons_append]
  refine ⟨.between (eof.next (front ++ t :: (tail ++ rest))).span last, target', selector', ?_,
    htarget', herase⟩
  obtain ⟨ht, hfield⟩ | ⟨ht, hexpr⟩ := hselector
  · refine reads_operand_of_suffix .field hread ht (reads_suffix.mpr (.inl ?_)) hrest
    exact ⟨selector', last, .inl ⟨rfl, hfield⟩, rfl⟩
  · refine reads_operand_of_suffix .index hread ht (reads_suffix.mpr (.inl ?_)) hrest
    exact ⟨selector', last, .inr ⟨rfl, hexpr⟩, rfl⟩

/-- The arguments of a call are read back behind the parenthesis that opens them. -/
theorem rereads_arguments {arguments : List Expr} {trailingComma : Bool}
    (harguments : ∀ e ∈ arguments, full.Rereads e)
    (htrailing : CommaFollowsItem arguments trailingComma) {tokens : List Token}
    (htokens : Spelled tokens (separated (arguments.map fun e => parenthesise e.print) ++
      optionalComma trailingComma ++ [.punct .parenR])) (eof : EndMark) (rest : List Token) :
    ∃ list, (commaList full .parenR .argument).Reads eof (tokens ++ rest) list rest ∧
      list.exprs.map Expr.erase = arguments.map Expr.erase ∧
      list.trailingComma = trailingComma := by
  have heach : ReadsEach eof (· == .punct .parenR) (pushExpr full) (fun e => parenthesise e.print)
      (fun read done => read.toList.map Expr.erase = done.map Expr.erase) arguments :=
    readsEach_exprs harguments (by simp) (by simp) rfl
  exact reads_commaList_of_spelled heach rfl htrailing htokens

/-- Arguments behind a target in parentheses. -/
theorem rereads_apply {target : Expr} {arguments : List Expr} {trailingComma tailStrict : Bool}
    (htarget : full.RereadsBare target) (harguments : ∀ e ∈ arguments, full.Rereads e)
    (htrailing : CommaFollowsItem arguments trailingComma) {tokens : List Token}
    (htokens : Spelled tokens (parenthesise target.print ++
      .punct .parenL :: (separated (arguments.map fun e => parenthesise e.print) ++
        optionalComma trailingComma ++ [.punct .parenR]) ++
      if tailStrict then [.keyword .tailstrict] else []))
    (hrest : (eof.next rest).EndsExpr) (hstrict : (eof.next rest).kind ≠ .keyword .tailstrict) :
    ∃ span target' arguments', (operand full).Reads eof (tokens ++ rest)
        (.node span (.apply target' arguments' trailingComma tailStrict)) rest ∧
      target'.erase = target.erase ∧ arguments'.map Expr.erase = arguments.map Expr.erase := by
  obtain ⟨front, strict, hfront, hstrictTokens, rfl⟩ := spelled_append.mp htokens
  obtain ⟨targetTokens, list, htargetTokens, hlist, rfl⟩ := spelled_append.mp hfront
  obtain ⟨opening, tail, hopening, htail, rfl⟩ := spelled_cons.mp hlist
  obtain ⟨list, hread, hlist', rfl⟩ :=
    rereads_arguments harguments htrailing htail eof (strict ++ rest)
  -- The word behind the arguments is accepted if it is printed, and otherwise does not follow.
  have htailStrict : (accept (.keyword .tailstrict)).Reads eof (strict ++ rest) tailStrict rest :=
    reads_accept_of_spelled hstrictTokens hstrict (by simp) fun _ ht => ht
  obtain ⟨target', hreadTarget, htarget'⟩ :=
    rereads_primary htarget htargetTokens eof (opening :: (tail ++ (strict ++ rest)))
  rw [List.append_assoc, List.append_assoc, List.cons_append]
  refine ⟨.between (eof.next (targetTokens ++ opening :: (tail ++ (strict ++ rest)))).span
    (if tailStrict then (eof.next (strict ++ rest)).span else list.closing.span), target',
      list.exprs, ?_,
    htarget', hlist'⟩
  refine reads_operand_of_suffix .arguments hreadTarget hopening (reads_suffix.mpr (.inr (.inl ?_)))
    hrest
  exact ⟨rfl, list, strict ++ rest, hread, tailStrict, htailStrict, rfl⟩

/-- An object behind an operand in parentheses. -/
theorem rereads_applyBrace (hterminals : full.ReadsTerminals) {left right : Expr}
    (hleft : full.RereadsBare left) (hobject : right.isObject = true) (hwf : right.shape.WellFormed)
    (hright : ∀ c ∈ right.children, full.Rereads c) {tokens : List Token}
    (htokens : Spelled tokens (parenthesise left.print ++ right.print))
    (hrest : (eof.next rest).EndsExpr) :
    ∃ span left' right', (operand full).Reads eof (tokens ++ rest)
        (.node span (.applyBrace left' right')) rest ∧
      left'.erase = left.erase ∧ right'.erase = right.erase := by
  obtain ⟨front, back, hfront, hback, rfl⟩ := spelled_append.mp htokens
  obtain ⟨t, tail, rfl, ht, hopened⟩ := rereads_object hterminals hobject hwf hright hback eof rest
  obtain ⟨right', hread, hright'⟩ := hopened t.span
  obtain ⟨left', hreadLeft, hleft'⟩ := rereads_primary hleft hfront eof (t :: (tail ++ rest))
  rw [List.append_assoc, List.cons_append]
  refine ⟨.between (eof.next (front ++ t :: (tail ++ rest))).span right'.span, left', right', ?_,
    hleft', hright'⟩
  refine reads_operand_of_suffix .extension hreadLeft ht (reads_suffix.mpr (.inr (.inr ?_))) hrest
  exact ⟨rfl, right', hread, rfl⟩

/-! ## One construct -/

/-- What the rules of a level read back: an expression that stands alone, and the same expression in
    parentheses, as an operand of any kind. -/
structure RereadsAt (g : Level TokenStream) (c : Expr) : Prop where
  bare : g.full.RereadsBare c
  expr : ∀ {precedence}, (g.expr precedence).Rereads c
  operand : g.operand.Rereads c

/-- An operand that is printed as a single token. -/
theorem rereads_terminal {s : Symbol} {shape : Shape Expr} {tokens : List Token}
    (hshape : ∀ t : Token, t.Spells s → terminalShape? t = some shape)
    (htokens : Spelled tokens [s]) (hrest : (eof.next rest).EndsExpr) {precedence : Precedence}
    (span : Span) :
    ∃ e', (expression g precedence).Reads eof (tokens ++ rest) e' rest ∧
      e'.erase = (Expr.node span shape).erase := by
  obtain ⟨t, ht, rfl⟩ := spelled_singleton.mp htokens
  refine ⟨.node t.span shape, readsTerminals_expression (hshape t ht) hrest, ?_⟩
  rw [Expr.erase_node, Expr.erase_node]

/-- A selector behind `super` is read back. -/
theorem rereads_superIndex {selector : Selector Expr}
    (hindex : ∀ c ∈ selector.children, g.full.Rereads c) {tokens : List Token}
    (htokens : Spelled tokens
      (.keyword .super :: ((selector.map Expr.print).map parenthesise).print))
    (hrest : (eof.next rest).EndsExpr) {precedence : Precedence} :
    ∃ span selector', (expression g precedence).Reads eof (tokens ++ rest)
        (.node span (.superIndex selector')) rest ∧
      selector'.map Expr.erase = selector.map Expr.erase := by
  obtain ⟨t, tail, ht, htail, rfl⟩ := spelled_cons.mp htokens
  have hkind : t.kind = .keyword .super := ht
  obtain ⟨opening, tail', selector', last, rfl, hselector, herase⟩ :=
    rereads_selector hindex htail eof rest
  have hterminal : (terminal g.full).Reads eof (t :: (opening :: tail' ++ rest))
      (.node (.between t.span last) (.superIndex selector')) rest := by
    refine reads_terminal.mpr ⟨t, _, rfl, .inr ⟨hkind, ?_⟩⟩
    exact reads_superIndex.mpr ⟨opening, _, rfl, selector', last, hselector, rfl⟩
  refine ⟨.between t.span last, selector', ?_, herase⟩
  -- The word `super` is neither an operator, nor leads a form, nor opens a bracket.
  refine reads_expression_of_terminal ?_ ?_ ?_ ?_ ?_ hterminal hrest
  · simp [hkind]
  · simp [hkind, ledBy?]
  · simp [hkind]
  · simp [hkind]
  · simp [hkind]

/-- A unary operator and its operand in parentheses are read back. -/
theorem rereads_unary {op : UnaryOp} {operand : Expr} (hoperand : g.operand.Rereads operand)
    {tokens : List Token}
    (htokens : Spelled tokens (.operator op.symbol :: parenthesise operand.print))
    (hrest : (eof.next rest).EndsExpr) {precedence : Precedence} :
    ∃ span operand', (expression g precedence).Reads eof (tokens ++ rest)
        (.node span (.unary op operand')) rest ∧ operand'.erase = operand.erase := by
  obtain ⟨t, tail, ⟨hkind, hsymbol⟩, htail, rfl⟩ := spelled_cons.mp htokens
  obtain ⟨operand', hread, herase⟩ := hoperand htail hrest
  have hop : UnaryOp.ofSymbol? t.data = some op := UnaryOp.ofSymbol?_eq_some.mpr hsymbol
  have hunary : (unary g).Reads eof (t :: (tail ++ rest))
      (.node (.between t.span operand'.span) (.unary op operand')) rest :=
    reads_unary.mpr (.inl ⟨t, _, rfl, hkind, op, hop, operand', hread, rfl⟩)
  exact ⟨_, operand', reads_expression_of_unary (by simp [hkind, ledBy?]) hunary hrest, herase⟩

/-- Both operands of a binary operator stand in parentheses, so its precedence does not matter. -/
theorem rereads_binary {left right : Expr} {op : BinaryOp} (hleft : g.full.RereadsBare left)
    (hright : ∀ {precedence}, (g.expr precedence).Rereads right) {tokens : List Token}
    (htokens : Spelled tokens
      (parenthesise left.print ++ .operator op.symbol :: parenthesise right.print))
    (hrest : (eof.next rest).EndsExpr) :
    ∃ span left' right', (expression g .loosest).Reads eof (tokens ++ rest)
        (.node span (.binary left' op right')) rest ∧
      left'.erase = left.erase ∧ right'.erase = right.erase := by
  obtain ⟨front, back, hfront, hback, rfl⟩ := spelled_append.mp htokens
  obtain ⟨t, tail, ⟨hkind, hsymbol⟩, htail, rfl⟩ := spelled_cons.mp hback
  obtain ⟨left', hreadLeft, hleft'⟩ := rereads_primary hleft hfront eof (t :: (tail ++ rest))
  obtain ⟨right', hreadRight, hright'⟩ := hright htail hrest
  rw [List.append_assoc, List.cons_append]
  have hparen : (eof.next (front ++ t :: (tail ++ rest))).kind = .punct .parenL :=
    next_of_spelled_punct hfront eof _
  -- The left operand ends at the operator, which opens no suffix.
  have hsuffix : Suffix.ofToken? (eof.next (t :: (tail ++ rest))) = none := by
    simp [Suffix.ofToken?, hkind]
  have hoperand :
      (unary g).Reads eof (front ++ t :: (tail ++ rest)) left' (t :: (tail ++ rest)) := by
    refine reads_unary.mpr (.inr ⟨by simp [hparen], ?_⟩)
    exact reads_operand.mpr ⟨left', _, hreadLeft, reads_whileNext_stop hsuffix⟩
  -- A chain at the loosest level takes every operator.
  have hprecedence : op.precedence ≤ Precedence.loosest := by cases op <;> decide
  have hop : binaryOp? .loosest t = some op := binaryOp?_eq_some.mpr ⟨hkind, hsymbol, hprecedence⟩
  refine ⟨.between (eof.next (front ++ t :: (tail ++ rest))).span right'.span, left', right', ?_,
    hleft', hright'⟩
  -- The chain has one round, and ends behind its right operand.
  refine reads_expression.mpr (.inr ⟨by simp [hparen, ledBy?], left', _, hoperand, ?_⟩)
  refine reads_binaryChain.mpr ⟨reads_whileNext.mpr (.inr ?_), hrest.isStrayOperator⟩
  refine ⟨t, _, op, _, rest, rfl, hop, ?_, reads_whileNext_stop (hrest.binaryOp _)⟩
  rw [bind_pure_comp, reads_map]
  exact ⟨right', hreadRight, rfl⟩

/-- An object that stands alone. -/
theorem rereads_objectExpr (hterminals : g.full.ReadsTerminals) {e : Expr}
    (hobject : e.isObject = true) (hwf : e.shape.WellFormed)
    (hchildren : ∀ c ∈ e.children, g.full.Rereads c) {tokens : List Token}
    (htokens : Spelled tokens e.print) (hrest : (eof.next rest).EndsExpr)
    {precedence : Precedence} :
    ∃ e', (expression g precedence).Reads eof (tokens ++ rest) e' rest ∧ e'.erase = e.erase := by
  obtain ⟨t, tail, rfl, ht, hopened⟩ :=
    rereads_object hterminals hobject hwf hchildren htokens eof rest
  obtain ⟨e', hread, herase⟩ := hopened t.span
  have hprimary : (primary g.full).Reads eof (t :: (tail ++ rest)) e' rest :=
    reads_primary.mpr (.inl ⟨t, _, rfl, .inl ⟨ht, hread⟩⟩)
  exact ⟨e', reads_expression_of_primary ht hprimary hrest, herase⟩

/-- An array that stands alone. -/
theorem rereads_arrayExpr {elements : List Expr} {trailingComma : Bool}
    (htrailing : CommaFollowsItem elements trailingComma)
    (helements : ∀ e ∈ elements, g.full.Rereads e) {tokens : List Token}
    (htokens : Spelled tokens (.punct .bracketL ::
      (separated (elements.map fun e => parenthesise e.print) ++ optionalComma trailingComma ++
        [.punct .bracketR])))
    (hrest : (eof.next rest).EndsExpr) {precedence : Precedence} :
    ∃ span elements', (expression g precedence).Reads eof (tokens ++ rest)
        (.node span (.array elements' trailingComma)) rest ∧
      elements'.map Expr.erase = elements.map Expr.erase := by
  obtain ⟨t, tail, ht, htail, rfl⟩ := spelled_cons.mp htokens
  obtain ⟨span, elements', hread, herase⟩ := rereads_array htrailing helements htail t.span rest
  have hprimary : (primary g.full).Reads eof (t :: (tail ++ rest))
      (.node span (.array elements' trailingComma)) rest :=
    reads_primary.mpr (.inl ⟨t, _, rfl, .inr (.inl ⟨ht, hread⟩)⟩)
  exact ⟨span, elements', reads_expression_of_primary ht hprimary hrest, herase⟩

/-- An array comprehension that stands alone. -/
theorem rereads_arrayCompExpr {body : Expr} {trailingComma : Bool} {cs : List (Clause Expr)}
    (hstart : StartWithLoop cs) (hbody : g.full.Rereads body)
    (hclauses : ∀ c ∈ cs, g.full.Rereads c.expr) {tokens : List Token}
    (htokens : Spelled tokens (.punct .bracketL ::
      (parenthesise body.print ++ optionalComma trailingComma ++
        (cs.flatMap printClause ++ [.punct .bracketR]))))
    (hrest : (eof.next rest).EndsExpr) {precedence : Precedence} :
    ∃ span body' cs', (expression g precedence).Reads eof (tokens ++ rest)
        (.node span (.arrayComp body' trailingComma cs')) rest ∧
      body'.erase = body.erase ∧
      cs'.map (Clause.map Expr.erase) = cs.map (Clause.map Expr.erase) := by
  obtain ⟨t, tail, ht, htail, rfl⟩ := spelled_cons.mp htokens
  obtain ⟨span, body', cs', hread, hbody', hcs'⟩ :=
    rereads_arrayComp hstart hbody hclauses htail t.span rest
  have hprimary : (primary g.full).Reads eof (t :: (tail ++ rest))
      (.node span (.arrayComp body' trailingComma cs')) rest :=
    reads_primary.mpr (.inl ⟨t, _, rfl, .inr (.inl ⟨ht, hread⟩)⟩)
  exact ⟨span, body', cs', reads_expression_of_primary ht hprimary hrest, hbody', hcs'⟩

/-- An assertion in front of an expression. -/
theorem rereads_assert {cond body : Expr} {message : Option Expr} (hcond : g.full.Rereads cond)
    (hmessage : ∀ m ∈ message.toList, g.full.Rereads m) (hbody : g.full.Rereads body)
    {tokens : List Token} (htokens : Spelled tokens (.keyword .assert ::
      (parenthesise cond.print ++ printMessage ((message.map Expr.print).map parenthesise) ++
        .punct .semicolon :: parenthesise body.print)))
    (hrest : (eof.next rest).EndsExpr) {precedence : Precedence} :
    ∃ span cond' message' body', (expression g precedence).Reads eof (tokens ++ rest)
        (.node span (.assert cond' message' body')) rest ∧
      cond'.erase = cond.erase ∧ message'.map Expr.erase = message.map Expr.erase ∧
      body'.erase = body.erase := by
  obtain ⟨t, tail, ht, htail, rfl⟩ := spelled_cons.mp htokens
  obtain ⟨span, cond', message', body', hread, herase⟩ :=
    rereads_assertForm hcond hmessage hbody htail hrest
  exact ⟨span, cond', message', body', reads_expression_of_form ht rfl hread, herase⟩

/-- An error and its message. -/
theorem rereads_error {message : Expr} (hmessage : g.full.Rereads message) {tokens : List Token}
    (htokens : Spelled tokens (.keyword .error :: parenthesise message.print))
    (hrest : (eof.next rest).EndsExpr) {precedence : Precedence} :
    ∃ span message', (expression g precedence).Reads eof (tokens ++ rest)
        (.node span (.error message')) rest ∧ message'.erase = message.erase := by
  obtain ⟨t, tail, ht, htail, rfl⟩ := spelled_cons.mp htokens
  obtain ⟨message', hread, herase⟩ := hmessage htail hrest
  have hform : (errorForm g.full).Reads eof (t :: (tail ++ rest))
      (.node (.between t.span message'.span) (.error message')) rest :=
    reads_errorForm.mpr ⟨message', hread, rfl⟩
  exact ⟨_, message', reads_expression_of_form ht rfl hform, herase⟩

/-- A conditional, in front of a token that is not a second branch. -/
theorem rereads_conditional {cond whenTrue : Expr} {whenFalse : Option Expr}
    (hcond : g.full.Rereads cond) (htrue : g.full.Rereads whenTrue)
    (hfalse : ∀ e ∈ whenFalse.toList, g.full.Rereads e) {tokens : List Token}
    (htokens : Spelled tokens (.keyword .if ::
      (parenthesise cond.print ++ .keyword .then :: parenthesise whenTrue.print ++
        ((whenFalse.map Expr.print).map parenthesise).elim [] fun ps => .keyword .else :: ps)))
    (hrest : (eof.next rest).EndsExpr) (helse : (eof.next rest).kind ≠ .keyword .else)
    {precedence : Precedence} :
    ∃ span cond' whenTrue' whenFalse', (expression g precedence).Reads eof (tokens ++ rest)
        (.node span (.conditional cond' whenTrue' whenFalse')) rest ∧
      cond'.erase = cond.erase ∧ whenTrue'.erase = whenTrue.erase ∧
      whenFalse'.map Expr.erase = whenFalse.map Expr.erase := by
  obtain ⟨t, tail, ht, htail, rfl⟩ := spelled_cons.mp htokens
  obtain ⟨span, cond', whenTrue', whenFalse', hread, herase⟩ :=
    rereads_conditionalForm hcond htrue hfalse htail hrest helse
  exact ⟨span, cond', whenTrue', whenFalse', reads_expression_of_form ht rfl hread, herase⟩

/-- A function. -/
theorem rereads_function (hterminals : g.full.ReadsTerminals) {p : Parameters} {body : Expr}
    (hp : p.WellFormed) (hbody : g.full.Rereads body) {tokens : List Token}
    (htokens : Spelled tokens (.keyword .function :: (p.print ++ parenthesise body.print)))
    (hrest : (eof.next rest).EndsExpr) {precedence : Precedence} :
    ∃ span body', (expression g precedence).Reads eof (tokens ++ rest)
        (.node span (.function p body')) rest ∧ body'.erase = body.erase := by
  obtain ⟨t, tail, ht, htail, rfl⟩ := spelled_cons.mp htokens
  obtain ⟨span, body', hread, herase⟩ := rereads_functionForm hterminals hp hbody htail hrest
  exact ⟨span, body', reads_expression_of_form ht rfl hread, herase⟩

/-- An import of either kind: `word` is its keyword and `shape` the construct. -/
theorem rereads_import (hterminals : g.full.ReadsTerminals) {word : Keyword}
    {shape : String → Shape Expr} {name : String}
    (hword : ledBy? g.full (.keyword word) = some (importForm g.full shape)) {tokens : List Token}
    (htokens : Spelled tokens [.keyword word, .file name]) (hrest : (eof.next rest).EndsExpr)
    {precedence : Precedence} :
    ∃ span, (expression g precedence).Reads eof (tokens ++ rest) (.node span (shape name))
      rest := by
  obtain ⟨t, tail, ht, htail, rfl⟩ := spelled_cons.mp htokens
  obtain ⟨span, hread⟩ := rereads_importForm hterminals htail hrest
  exact ⟨span, reads_expression_of_form ht hword hread⟩

/-- Local bindings in front of an expression. -/
theorem rereads_local (hterminals : g.full.ReadsTerminals) {bs : List (Binding Expr)} {body : Expr}
    (hwf : BindingsWellFormed bs) (hbodies : ∀ b ∈ bs, g.full.Rereads b.body)
    (hbody : g.full.Rereads body) {tokens : List Token}
    (htokens : Spelled tokens (.keyword .local ::
      (separated (bs.map printBinding) ++ .punct .semicolon :: parenthesise body.print)))
    (hrest : (eof.next rest).EndsExpr) {precedence : Precedence} :
    ∃ span bs' body', (expression g precedence).Reads eof (tokens ++ rest)
        (.node span (.local bs' body')) rest ∧
      bs'.map (Binding.map Expr.erase) = bs.map (Binding.map Expr.erase) ∧
      body'.erase = body.erase := by
  obtain ⟨t, tail, ht, htail, rfl⟩ := spelled_cons.mp htokens
  obtain ⟨span, bs', body', hread, herase⟩ :=
    rereads_localForm hterminals hwf hbodies hbody htail hrest
  exact ⟨span, bs', body', reads_expression_of_form ht rfl hread, herase⟩

/-- A construct is read back if its sub-expressions are.  The sub-expressions of an object that
    stands behind an operand are read at the same level as those of the operand. -/
theorem rereadsBare_expression (hterminals : g.full.ReadsTerminals) {e : Expr}
    (hwf : e.shape.WellFormed) (hchildren : ∀ c ∈ e.children, RereadsAt g c)
    (hgrandchildren : ∀ c ∈ e.children, c.shape.WellFormed ∧ ∀ c' ∈ c.children, g.full.Rereads c') :
    (expression g .loosest).RereadsBare e := by
  intro eof tokens rest htokens hclosed
  -- A closing parenthesis and the end of the file end every construct, and are no keywords: neither
  -- `else` nor `tailstrict` can follow.
  have hrest : (eof.next rest).EndsExpr := by
    obtain hkind | hkind := hclosed
    · exact .of_kind hkind rfl
    · exact .of_kind hkind rfl
  have hkeyword : ∀ word, (eof.next rest).kind ≠ .keyword word := by
    intro word hword
    simp [hword] at hclosed
  obtain ⟨span, shape⟩ := e
  have hfull : ∀ c ∈ shape.children, g.full.Rereads c := fun c hc => (hchildren c hc).expr
  cases shape with
  -- Tokens that are operands on their own.
  | dollar =>
    rw [Expr.print_node] at htokens
    exact rereads_terminal (fun t ht => by simp [terminalShape?, show t.kind = _ from ht]) htokens
      hrest span
  | null =>
    rw [Expr.print_node] at htokens
    exact rereads_terminal (fun t ht => by simp [terminalShape?, show t.kind = _ from ht]) htokens
      hrest span
  | self =>
    rw [Expr.print_node] at htokens
    exact rereads_terminal (fun t ht => by simp [terminalShape?, show t.kind = _ from ht]) htokens
      hrest span
  | boolean value =>
    rw [Expr.print_node] at htokens
    refine rereads_terminal (fun t ht => ?_) htokens hrest span
    have hkind : t.kind = .keyword (if value then .true else .false) := ht
    cases value <;> simp [terminalShape?, hkind]
  | number value spelling =>
    rw [Expr.print_node] at htokens
    refine rereads_terminal (fun t ht => ?_) htokens hrest span
    have hvalue : readFloat? spelling = some value := hwf
    simp [terminalShape?, ht.1, ht.2, hvalue]
  | string value form indent =>
    rw [Expr.print_node] at htokens
    refine rereads_terminal (fun t ht => ?_) htokens hrest span
    obtain ⟨hkind, hshape⟩ := stringShape_of_spells ht
    simp [terminalShape?, hkind, hshape]
  | var id spelling =>
    rw [Expr.print_node] at htokens
    refine rereads_terminal (fun t ht => ?_) htokens hrest span
    have hid : id = spelling := hwf
    simp [terminalShape?, ht.1, ht.2, hid]
  -- Operands and operators.
  | superIndex selector =>
    rw [Expr.print_node] at htokens
    obtain ⟨span', selector', hread, herase⟩ := rereads_superIndex hfull htokens hrest
    exact ⟨_, hread, by simp [Shape.map, herase]⟩
  | unary op operand =>
    rw [Expr.print_node] at htokens
    have hoperand : RereadsAt g operand := hchildren operand (List.mem_singleton.mpr rfl)
    obtain ⟨span', operand', hread, herase⟩ := rereads_unary hoperand.operand htokens hrest
    exact ⟨_, hread, by simp [Shape.map, herase]⟩
  | binary left op right =>
    rw [Expr.print_node] at htokens
    obtain ⟨hleft, hright⟩ := List.forall_mem_cons.mp hchildren
    rw [List.forall_mem_singleton] at hright
    obtain ⟨span', left', right', hread, hleft', hright'⟩ :=
      rereads_binary hleft.bare hright.expr htokens hrest
    exact ⟨_, hread, by simp [Shape.map, hleft', hright']⟩
  | index target selector =>
    rw [Expr.print_node] at htokens
    obtain ⟨htarget, -⟩ := List.forall_mem_cons.mp hchildren
    obtain ⟨-, hselector⟩ := List.forall_mem_cons.mp hfull
    obtain ⟨span', target', selector', hread, htarget', hselector'⟩ :=
      rereads_index htarget.bare hselector htokens hrest
    have hkind := next_of_spelled_punct htokens eof rest
    exact ⟨_,
      reads_expression_of_punct hkind hread hrest, by simp [Shape.map, htarget', hselector']⟩
  | apply target arguments trailingComma tailStrict =>
    rw [print_apply] at htokens
    obtain ⟨htarget, -⟩ := List.forall_mem_cons.mp hchildren
    obtain ⟨-, harguments⟩ := List.forall_mem_cons.mp hfull
    obtain ⟨span', target', arguments', hread, htarget', harguments'⟩ :=
      rereads_apply htarget.bare harguments hwf htokens hrest (hkeyword _)
    have hkind := next_of_spelled_punct htokens eof rest
    exact ⟨_,
      reads_expression_of_punct hkind hread hrest, by simp [Shape.map, htarget', harguments']⟩
  | applyBrace left right =>
    rw [Expr.print_node] at htokens
    obtain ⟨hleft, -⟩ := List.forall_mem_cons.mp hchildren
    obtain ⟨hrightShape, hright⟩ :=
      hgrandchildren right (by simp [Expr.children, Expr.shape, Shape.children])
    obtain ⟨span', left', right', hread, hleft', hright'⟩ :=
      rereads_applyBrace hterminals hleft.bare hwf hrightShape hright htokens hrest
    have hkind := next_of_spelled_punct htokens eof rest
    exact ⟨_, reads_expression_of_punct hkind hread hrest, by simp [Shape.map, hleft', hright']⟩
  -- Arrays and objects.
  | array elements trailingComma =>
    rw [print_array] at htokens
    obtain ⟨span', elements', hread, herase⟩ := rereads_arrayExpr hwf hfull htokens hrest
    exact ⟨_, hread, by simp [Shape.map, herase]⟩
  | arrayComp body trailingComma cs =>
    rw [print_arrayComp] at htokens
    obtain ⟨hbody, hclauses⟩ := List.forall_mem_cons.mp hfull
    rw [List.forall_mem_map] at hclauses
    obtain ⟨span', body', cs', hread, hbody', hcs'⟩ :=
      rereads_arrayCompExpr hwf hbody hclauses htokens hrest
    exact ⟨_, hread, by simp [Shape.map, hbody', hcs']⟩
  | object members trailingComma => exact rereads_objectExpr hterminals rfl hwf hfull htokens hrest
  | objectComp members trailingComma cs =>
    exact rereads_objectExpr hterminals rfl hwf hfull htokens hrest
  -- Expressions led by a keyword.
  | assert cond message body =>
    rw [Expr.print_node] at htokens
    obtain ⟨hcond, hothers⟩ := List.forall_mem_cons.mp hfull
    obtain ⟨hmessage, hbody⟩ := List.forall_mem_append.mp hothers
    rw [List.forall_mem_singleton] at hbody
    obtain ⟨span', cond', message', body', hread, hcond', hmessage', hbody'⟩ :=
      rereads_assert hcond hmessage hbody htokens hrest
    exact ⟨_, hread, by simp [Shape.map, hcond', hmessage', hbody']⟩
  | error message =>
    rw [Expr.print_node] at htokens
    have hmessage : g.full.Rereads message := hfull message (List.mem_singleton.mpr rfl)
    obtain ⟨span', message', hread, herase⟩ := rereads_error hmessage htokens hrest
    exact ⟨_, hread, by simp [Shape.map, herase]⟩
  | conditional cond whenTrue whenFalse =>
    rw [Expr.print_node] at htokens
    obtain ⟨hcond, hothers⟩ := List.forall_mem_cons.mp hfull
    obtain ⟨htrue, hfalse⟩ := List.forall_mem_cons.mp hothers
    obtain ⟨span', cond', whenTrue', whenFalse', hread, hcond', htrue', hfalse'⟩ :=
      rereads_conditional hcond htrue hfalse htokens hrest (hkeyword _)
    exact ⟨_, hread, by simp [Shape.map, hcond', htrue', hfalse']⟩
  | function p body =>
    rw [Expr.print_node] at htokens
    have hbody : g.full.Rereads body := hfull body (List.mem_singleton.mpr rfl)
    obtain ⟨span', body', hread, herase⟩ := rereads_function hterminals hwf hbody htokens hrest
    exact ⟨_, hread, by simp [Shape.map, herase]⟩
  | «import» file =>
    rw [Expr.print_node] at htokens
    obtain ⟨span', hread⟩ := rereads_import hterminals rfl htokens hrest
    exact ⟨_, hread, by simp [Shape.map]⟩
  | importstr file =>
    rw [Expr.print_node] at htokens
    obtain ⟨span', hread⟩ := rereads_import hterminals rfl htokens hrest
    exact ⟨_, hread, by simp [Shape.map]⟩
  | «local» bs body =>
    rw [print_local] at htokens
    obtain ⟨hbodies, hbody⟩ := List.forall_mem_append.mp hfull
    rw [List.forall_mem_map] at hbodies
    rw [List.forall_mem_singleton] at hbody
    obtain ⟨span', bs', body', hread, hbs', hbody'⟩ :=
      rereads_local hterminals hwf hbodies hbody htokens hrest
    exact ⟨_, hread, by simp [Shape.map, hbs', hbody']⟩

end Rule

/-! ## All levels -/

namespace Level

/-- A sub-expression in parentheses takes one level, and what stands between them another one. -/
theorem rereadsAt_upTo {c : Expr} {n : Nat} (hbare : (upTo n).full.RereadsBare c)
    (hbareNext : (upTo (n + 1)).full.RereadsBare c) : Rule.RereadsAt (upTo (n + 1)) c where
  bare := hbareNext
  expr := Rule.rereads_expression hbare
  operand := by
    intro eof tokens rest htokens hrest
    obtain ⟨c', hread, herase⟩ := Rule.rereads_unaryOperand hbare htokens hrest
    exact ⟨c', reads_deepen_operand.mpr hread, herase⟩

/-- A well-formed tree is read back where it stands alone, if two levels are left for each level of
    the tree. -/
theorem rereadsBare_upTo {e : Expr} (hwf : e.WellFormed) {n : Nat} (hn : 2 * e.height + 2 ≤ n) :
    (upTo n).full.RereadsBare e := by
  -- By induction on the height: an object behind an operand is read at the operand's own level, so
  -- the sub-expressions of sub-expressions count too.
  induction hheight : e.height using Nat.strongRecOn generalizing e n with
  | ind height ih =>
    subst hheight
    obtain ⟨m, rfl⟩ : ∃ m, n = m + 2 := ⟨n - 2, by omega⟩
    -- Each level of the tree leaves two levels of nesting more than the next one needs.
    have hbelow : ∀ {c : Expr} {k : Nat}, c.WellFormed → c.height < e.height → m ≤ k →
        (upTo k).full.RereadsBare c := by
      intro c k hc hlt hk
      exact ih c.height hlt hc (by omega) rfl
    have hchildren : ∀ c ∈ e.children, Rule.RereadsAt (upTo (m + 1)) c := by
      intro c hc
      have hlt : c.height < e.height := Expr.height_lt_of_mem_children hc
      have hwfChild : c.WellFormed := hwf.of_mem_children hc
      exact rereadsAt_upTo (hbelow hwfChild hlt (by omega)) (hbelow hwfChild hlt (by omega))
    have hgrandchildren : ∀ c ∈ e.children, c.shape.WellFormed ∧
        ∀ c' ∈ c.children, (upTo (m + 1)).full.Rereads c' := by
      intro c hc
      have hwfChild : c.WellFormed := hwf.of_mem_children hc
      refine ⟨hwfChild.shape, fun c' hc' => ?_⟩
      have hlt : c'.height < e.height :=
        Nat.lt_trans (Expr.height_lt_of_mem_children hc') (Expr.height_lt_of_mem_children hc)
      have hbare : (upTo m).full.RereadsBare c' :=
        hbelow (hwfChild.of_mem_children hc') hlt (by omega)
      intro eof tokens rest htokens hrest
      exact Rule.rereads_expression hbare htokens hrest
    have hterminals : (upTo (m + 1)).full.ReadsTerminals := Rule.readsTerminals_expression
    intro eof tokens rest htokens hclosed
    exact Rule.rereadsBare_expression hterminals hwf.shape hchildren hgrandchildren htokens hclosed

end Level

/-! ## Programs -/

/-- What is printed for a well-formed tree can be said. -/
theorem Expr.WellFormed.allSayable_print {e : Expr} (hwf : e.WellFormed) : AllSayable e.print := by
  -- By induction over the tree: the shape says its own part, and the children say theirs.
  induction e using Expr.induction_on_children with
  | step e ih =>
    obtain ⟨span, shape⟩ := e
    rw [Expr.print_node]
    refine Shape.allSayable_print ?_ (Shape.allSayable_group ?_)
    -- Only a string has text of its own whose form decides whether it can be said.
    · intro value form indent h
      cases shape with
      | string value form indent =>
        cases h
        exact hwf.shape
      | _ => cases h
    · rw [Shape.children_map]
      exact List.forall_mem_map.mpr fun c hc => ih c hc (hwf.of_mem_children hc)

/-- Parsing undoes printing.  The printed form of a well-formed tree can be written down as tokens,
    and whatever their places and their fodder, these tokens are parsed to the tree, up to places.
    The height is bounded since each level of a tree takes up to two of the levels of nesting that
    there are. -/
theorem parse_print {root : Expr} (hwf : root.WellFormed) (hheight : root.height ≤ 1000) :
    Spelled (root.print.map Symbol.token) root.print ∧
      ∀ (tokens : List Token) (eof : Token), Spelled tokens root.print → eof.kind = .endOfFile →
        ∃ tree, parse (tokens ++ [eof]) = .ok tree ∧ tree.erase = root.erase := by
  refine ⟨spelled_tokens hwf.allSayable_print, fun tokens eof htokens heof => ?_⟩
  have hlevels : 2 * root.height + 2 ≤ maxNesting := by
    show 2 * root.height + 2 ≤ 2048
    omega
  -- The whole program stands in front of the end mark.
  have hend : ((EndMark.ofTokens (tokens ++ [eof])).next []).kind = .endOfFile := EndMark.kind_val _
  obtain ⟨tree, hread, herase⟩ := Level.rereadsBare_upTo hwf hlevels htokens (.inr hend)
  refine ⟨tree, parse_eq_ok_iff.mpr ?_, herase⟩
  rw [tokensAhead_concat heof htokens.kind_ne]
  rwa [List.append_nil] at hread

namespace SampleTree

/-- A construct at no place. -/
def unplaced (shape : Shape Expr) : Expr := .node (.unset "") shape

/-- A variable. -/
def var (name : String) : Expr := unplaced (.var name name)

/-- `{ [k]: k for k in [] if true }` -/
def comprehension : Expr :=
  unplaced (.objectComp [.field ⟨.computed (var "k"), .inherit, false, none, var "k"⟩] false
    [.forIn "k" (unplaced (.array [] false)), .onlyIf (unplaced (.boolean true))])

/-- `local f(x,) = !x[self]; f { [k]: k for k in [] if true } == f(o,)` -/
def root : Expr :=
  unplaced (.local
    [⟨"f", unplaced (.unary .not (unplaced (.index (var "x") (.expr (unplaced .self))))),
      some ⟨["x"], true⟩⟩]
    (unplaced (.binary (unplaced (.applyBrace (var "f") comprehension)) .equal
      (unplaced (.apply (var "f") [var "o"] true false)))))

/-- Every variable is well-formed. -/
theorem wellFormed_var (name : String) : (var name).WellFormed := by
  simp [var, unplaced, Expr.wellFormed_node, Shape.WellFormed, Shape.children]

/-- The comprehension has one computed field and starts with a loop. -/
theorem wellFormed_comprehension : comprehension.WellFormed := by
  have hmembers : MembersWellFormed
      [.field ⟨.computed (var "k"), .inherit, false, none, var "k"⟩] := by
    refine ⟨?_, by decide, by decide⟩
    rw [List.forall_mem_singleton]
    exact ⟨by simp, by simp, by simp⟩
  have hcomprehensible : Comprehensible
      [.field ⟨.computed (var "k"), .inherit, false, none, var "k"⟩] :=
    ⟨by simp [Member.isAssertion], _, rfl, rfl, rfl⟩
  refine Expr.wellFormed_node.mpr
    ⟨⟨⟨hmembers, by simp [CommaFollowsItem]⟩, hcomprehensible, ?_⟩, ?_⟩
  · exact ⟨_, _, _, rfl⟩
  · simp [Shape.children, Member.children, Field.children, FieldKey.children, Clause.expr,
      wellFormed_var, unplaced, Expr.wellFormed_node, Shape.WellFormed, CommaFollowsItem]

/-- The sample is well-formed: its comprehension is the object behind an operand. -/
theorem wellFormed_root : root.WellFormed := by
  have hobject : comprehension.isObject = true := rfl
  refine Expr.wellFormed_node.mpr ⟨⟨by simp, by decide, ?_⟩, ?_⟩
  · simp [Binding.WellFormed, Parameters.WellFormed, CommaFollowsItem]
  · simp [Shape.children, Selector.children, wellFormed_var, wellFormed_comprehension, hobject,
      unplaced, Expr.wellFormed_node, Shape.WellFormed, CommaFollowsItem]

end SampleTree

/-- The printed form of the sample is parsed to the sample. -/
theorem parse_print_sample :
    SampleTree.root.WellFormed ∧ SampleTree.root.height ≤ 1000 ∧
      ∃ tree, parse (SampleTree.root.print.map Symbol.token ++
          [{ kind := .endOfFile, data := "", span := .unset "" }]) = .ok tree ∧
        tree.erase = SampleTree.root.erase := by
  have hheight : SampleTree.root.height ≤ 1000 := by decide
  obtain ⟨htokens, hparse⟩ := parse_print SampleTree.wellFormed_root hheight
  exact ⟨SampleTree.wellFormed_root, hheight, hparse _ _ htokens rfl⟩

end JsonnetSyntax
