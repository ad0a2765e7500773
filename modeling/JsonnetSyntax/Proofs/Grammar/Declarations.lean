import Mathlib.Data.List.Induction
import Mathlib.Data.List.Nodup
import JsonnetSyntax.Proofs.Grammar.Progress
import JsonnetSyntax.Proofs.Grammar.Reread

/-!
# Reading declarations

Objects declare fields and local bindings, `local` expressions declare bindings.  Reading goes from
one declaration to the next and keeps the names that were declared; a name that is among them is the
fault.  Where keys and operands are single tokens, no other fault is possible.  Fields and bindings
are checked at different points and by different comparisons; `Rule.ReadsNew` is what the checks
have in common.

## Key results

- `Rule.FailsWith`, `Rule.Reads.bind_failsWith`: readings that fail with a given error
- `exists_isFirstRepeat`: declarations that are not distinct have a first repetition
- `Rule.ReadsNew.run_items`, `Rule.ReadsNew.failsWith_items`: lists of declarations, up to their end
  or to the first repetition
- `Rule.readsNew_members`, `Rule.readsNew_bindings`: the declarations of objects and of `local`
  expressions
-/

namespace JsonnetSyntax

/-! ## Readings that fail -/

namespace Rule

variable {α β σ : Type} {eof : EndMark} {ts mid : List Token} {rule : Rule TokenStream α}
  {next : α → Rule TokenStream β} {value : α}
  {error : Error}

/-- Run on the tokens `ts` in front of `eof`, the rule fails with `error`. -/
def FailsWith (rule : Rule TokenStream α) (eof : EndMark) (ts : List Token) (error : Error) :
    Prop :=
  (rule.run ⟨ts, eof.1⟩).error? = some error

/-- Failing at once fails with the fault and the place that are given. -/
theorem failsWith_fail {fault : GrammarFault} {span : Span} :
    (fail fault span : Rule TokenStream α).FailsWith eof ts ⟨.grammar fault, span⟩ := rfl

/-- A sequence fails where its first rule fails. -/
theorem FailsWith.bind (h : rule.FailsWith eof ts error) :
    (rule >>= next).FailsWith eof ts error := by
  unfold FailsWith at h ⊢
  rw [run_bind]
  cases hrun : rule.run ⟨ts, eof.1⟩ with
  | done value rest =>
    rw [hrun] at h
    cases h
  | failed failure rest =>
    rw [hrun] at h
    exact h

/-- Behind a rule that is done, the sequence goes on with the next rule. -/
theorem Reads.run_bind (h : rule.Reads eof ts value mid) :
    (rule >>= next).run ⟨ts, eof.1⟩ = (next value).run ⟨mid, eof.1⟩ := by
  unfold Reads at h
  rw [Rule.run_bind, h, Outcome.andThen_done]

/-- A sequence fails where its second rule fails behind the first. -/
theorem Reads.bind_failsWith (h : rule.Reads eof ts value mid)
    (hnext : (next value).FailsWith eof mid error) :
    (rule >>= next).FailsWith eof ts error := by
  unfold FailsWith
  rw [h.run_bind]
  exact hnext

end Rule

/-! ## Declarations -/

/-- A name that is declared: those of fields and those of local bindings are kept apart. -/
inductive Declared where
  | field (name : String)
  | binding (name : String)
deriving DecidableEq, Repr

namespace Declared

/-- The fault of declaring a name again. -/
def repeated : Declared → GrammarFault
  | field name => .duplicateField name
  | binding name => .duplicateLocal name

/-- What is said about a name that is declared again. -/
def complaint : Declared → String
  | field name => "Duplicate field: " ++ name
  | binding name => "Duplicate local var: " ++ name

/-- The message of the fault is the complaint about the name. -/
theorem message_repeated (d : Declared) : d.repeated.message = d.complaint := by
  cases d with
  | field name => rfl
  | binding name => rfl

/-- The name of a field. -/
def fieldName? : Declared → Option String
  | field name => some name
  | binding _ => none

/-- The name of a binding. -/
def bindingName? : Declared → Option String
  | field _ => none
  | binding name => some name

/-- Only the declaration of a field has the name of a field. -/
theorem fieldName?_eq_some {d : Declared} {name : String} :
    d.fieldName? = some name ↔ d = field name := by
  cases d <;> simp [fieldName?]

/-- Only the declaration of a binding has the name of a binding. -/
theorem bindingName?_eq_some {d : Declared} {name : String} :
    d.bindingName? = some name ↔ d = binding name := by
  cases d <;> simp [bindingName?]

/-- Names are distinct if those of each kind are: a field and a binding may have the same name. -/
theorem nodup_iff (names : List Declared) :
    names.Nodup ↔ (names.filterMap fieldName?).Nodup ∧ (names.filterMap bindingName?).Nodup := by
  -- By induction on the names: each of them counts in the list of its own kind only.
  induction names with
  | nil => simp
  | cons d names ih =>
    have hfield (name : String) : name ∈ names.filterMap fieldName? ↔ field name ∈ names := by
      simp [List.mem_filterMap, fieldName?_eq_some]
    have hbinding (name : String) : name ∈ names.filterMap bindingName? ↔ binding name ∈ names := by
      simp [List.mem_filterMap, bindingName?_eq_some]
    cases d with
    | field name =>
      simp only [List.filterMap_cons, fieldName?, bindingName?, List.nodup_cons, hfield, ih,
        and_assoc]
    | binding name =>
      simp only [List.filterMap_cons, fieldName?, bindingName?, List.nodup_cons, hbinding, ih,
        and_left_comm]

end Declared

/-- Tokens that declare a name, and the token among them that holds the name. -/
structure Declaration where
  tokens : List Token
  place : Token
  name : Declared

namespace Declaration

/-- The error of declaring a name again, at the name. -/
def error (d : Declaration) : Error := ⟨.grammar d.name.repeated, d.place.span⟩

end Declaration

section Distinct

variable {α : Type} {decl : α → Declaration} {xs : List α}

/-- The names that are declared are distinct. -/
def Distinct (decl : α → Declaration) (xs : List α) : Prop := (xs.map fun x => (decl x).name).Nodup

/-- The first item that declares a name again: those in front of it are distinct, and one of them
    has the same name. -/
def IsFirstRepeat (decl : α → Declaration) (xs : List α) (x : α) : Prop :=
  ∃ before after, xs = before ++ x :: after ∧ Distinct decl before ∧
    (decl x).name ∈ before.map fun x => (decl x).name

/-- Declarations that are not distinct have a first repetition. -/
theorem exists_isFirstRepeat (h : ¬ Distinct decl xs) : ∃ x, IsFirstRepeat decl xs x := by
  -- By induction from the front: the last item is the first repetition if none stands in front of
  -- it.
  induction xs using List.reverseRecOn with
  | nil => exact absurd List.nodup_nil h
  | append_singleton xs x ih =>
    by_cases hxs : Distinct decl xs
    · refine ⟨x, xs, [], rfl, hxs, ?_⟩
      by_contra hx
      rw [Distinct, List.map_append, List.map_singleton, ← List.concat_eq_append] at h
      exact h (hxs.concat hx)
    · obtain ⟨y, before, after, rfl, hbefore, hy⟩ := ih hxs
      exact ⟨y, before, after ++ [x], by simp, hbefore, hy⟩

end Distinct

/-! ## Lists of declarations -/

/-- A token of a kind. -/
abbrev TokenOf (kind : TokenKind) := { t : Token // t.kind = kind }

/-- One or more items with commas between them. -/
structure CommaSeparated (α : Type) where
  first : α
  later : List (TokenOf (.punct .comma) × α)

namespace CommaSeparated

variable {α : Type}

/-- The items without the commas. -/
def items (s : CommaSeparated α) : List α := s.first :: s.later.map Prod.snd

/-- Commas with an item behind each of them. -/
def laterTokens (tokens : α → List Token) (later : List (TokenOf (.punct .comma) × α)) :
    List Token :=
  later.flatMap fun x => x.1.1 :: tokens x.2

/-- The tokens of the items, and the commas. -/
def tokens (tokens : α → List Token) (s : CommaSeparated α) : List Token :=
  tokens s.first ++ laterTokens tokens s.later

/-- A comma and an item stand in front of the further ones. -/
@[simp] theorem laterTokens_cons (tokens : α → List Token) (x : TokenOf (.punct .comma) × α)
    (later : List (TokenOf (.punct .comma) × α)) :
    laterTokens tokens (x :: later) = x.1.1 :: (tokens x.2 ++ laterTokens tokens later) := rfl

/-- The tokens of two rows of items follow each other as the rows do. -/
@[simp] theorem laterTokens_append (tokens : α → List Token)
    (later later' : List (TokenOf (.punct .comma) × α)) :
    laterTokens tokens (later ++ later') = laterTokens tokens later ++ laterTokens tokens later' :=
  List.flatMap_append

/-- Behind an item stands a comma, unless it is the last one. -/
theorem endsExpr_laterTokens {tokens : α → List Token} {later : List (TokenOf (.punct .comma) × α)}
    {eof : EndMark} {rest : List Token} (hrest : (eof.next rest).EndsExpr) :
    (eof.next (laterTokens tokens later ++ rest)).EndsExpr := by
  cases later with
  | nil => exact hrest
  | cons x later => exact .of_kind x.1.2 rfl

/-- An item behind others has a comma in front of it. -/
theorem exists_split_later {s : CommaSeparated α} {before after : List α} {x : α}
    (h : s.items = before ++ x :: after) (hbefore : before ≠ []) :
    ∃ front comma back, s.later = front ++ (comma, x) :: back ∧
      (CommaSeparated.mk s.first front).items = before := by
  obtain ⟨y, before, rfl⟩ := List.exists_cons_of_ne_nil hbefore
  obtain ⟨hfirst, hlater⟩ := List.cons.inj h
  obtain ⟨front, rest, hsplit, hfront, hrest⟩ := List.map_eq_append_iff.mp hlater
  obtain ⟨⟨comma, z⟩, back, rfl, hx, -⟩ := List.map_eq_cons_iff.mp hrest
  obtain rfl : z = x := hx
  refine ⟨front, comma, back, hsplit, ?_⟩
  rw [items, hfirst, hfront]

end CommaSeparated

namespace Rule

open CommaSeparated

variable {α σ : Type} {eof : EndMark} {step : σ → Rule TokenStream σ} {decl : α → Declaration}
  {Knows : σ → List Declared → Prop}

/-- The step reads one more declaration if its name is new, and fails at the name otherwise; `Knows`
    says what a state has to do with the names that are declared so far. -/
structure ReadsNew (eof : EndMark) (step : σ → Rule TokenStream σ) (decl : α → Declaration)
    (Knows : σ → List Declared → Prop) : Prop where
  fresh : ∀ {state names x rest}, Knows state names → (decl x).name ∉ names →
    (eof.next rest).EndsExpr →
    ∃ after, (step state).Reads eof ((decl x).tokens ++ rest) after rest ∧
      Knows after (names ++ [(decl x).name])
  taken : ∀ {state names x rest}, Knows state names → (decl x).name ∈ names →
    (step state).FailsWith eof ((decl x).tokens ++ rest) (decl x).error

/-- Reads further declarations, each behind a comma. -/
def moreDeclarations (step : σ → Rule TokenStream σ) (state : σ) : Rule TokenStream σ :=
  whileNext comma? (fun _ _ s => step s) state

namespace ReadsNew

/-- New declarations behind commas are read one after the other. -/
theorem run_later (h : ReadsNew eof step decl Knows) {later : List (TokenOf (.punct .comma) × α)}
    {state : σ} {names : List Declared} {rest : List Token} (hstate : Knows state names)
    (hnew : (names ++ later.map fun x => (decl x.2).name).Nodup)
    (hrest : (eof.next rest).EndsExpr) :
    ∃ after, Knows after (names ++ later.map fun x => (decl x.2).name) ∧
      (moreDeclarations step state).run
        ⟨laterTokens (fun x => (decl x).tokens) later ++ rest, eof.1⟩ =
        (moreDeclarations step after).run ⟨rest, eof.1⟩ := by
  -- By induction on the declarations that are left; `state` knows the names in front of them.
  induction later generalizing state names with
  | nil =>
    rw [List.map_nil, List.append_nil]
    exact ⟨state, hstate, rfl⟩
  | cons x later ih =>
    rw [List.map_cons, List.append_cons] at hnew ⊢
    have hx : (decl x.2).name ∉ names := by
      intro hmem
      have hfront := (List.nodup_append.mp hnew).1
      exact (List.nodup_append.mp hfront).2.2 _ hmem _ (List.mem_singleton_self _) rfl
    -- One round of the loop: the comma, a declaration with a new name, and the rest by induction.
    obtain ⟨mid, hread, hmid⟩ := h.fresh hstate hx (endsExpr_laterTokens hrest)
    obtain ⟨after, hafter, hrun⟩ := ih hmid hnew
    refine ⟨after, hafter, ?_⟩
    have hcomma : comma? x.1.1 = some () := comma?_eq_some.mpr x.1.2
    rw [laterTokens_cons, List.cons_append, List.append_assoc, moreDeclarations,
      run_whileNext_round hcomma, hread.run_bind]
    exact hrun

/-- A list of new declarations is read up to its end. -/
theorem run_items (h : ReadsNew eof step decl Knows) {s : CommaSeparated α} {start : σ}
    {rest : List Token} (hstart : Knows start []) (hnew : Distinct decl s.items)
    (hrest : (eof.next rest).EndsExpr) :
    ∃ after, Knows after (s.items.map fun x => (decl x).name) ∧
      (step start >>= moreDeclarations step).run
        ⟨s.tokens (fun x => (decl x).tokens) ++ rest, eof.1⟩ =
        (moreDeclarations step after).run ⟨rest, eof.1⟩ := by
  have hitems : s.items.map (fun x => (decl x).name) =
      [(decl s.first).name] ++ s.later.map fun x => (decl x.2).name := by
    simp [CommaSeparated.items]
  rw [Distinct, hitems] at hnew
  rw [hitems]
  obtain ⟨first, hfirst, hknows⟩ := h.fresh hstart List.not_mem_nil (endsExpr_laterTokens hrest)
  obtain ⟨after, hafter, hrun⟩ := h.run_later hknows hnew hrest
  refine ⟨after, hafter, ?_⟩
  rw [tokens, List.append_assoc, hfirst.run_bind]
  exact hrun

/-- A list of declarations fails at the first name that is declared again. -/
theorem failsWith_items (h : ReadsNew eof step decl Knows) {s : CommaSeparated α} {start : σ}
    {x : α} {rest : List Token} (hstart : Knows start []) (hrepeat : IsFirstRepeat decl s.items x) :
    (step start >>= moreDeclarations step).FailsWith eof
      (s.tokens (fun x => (decl x).tokens) ++ rest)
      (decl x).error := by
  obtain ⟨before, after, hitems, hnew, hx⟩ := hrepeat
  -- The first declaration repeats nothing, so the repetition stands behind a comma.
  have hbefore : before ≠ [] := by
    rintro rfl
    cases hx
  obtain ⟨front, comma, back, hlater, hfront⟩ := exists_split_later hitems hbefore
  -- The declarations in front are read, then a round of the loop takes the comma and fails.
  have htokens : s.tokens (fun x => (decl x).tokens) ++ rest =
      (CommaSeparated.mk s.first front).tokens (fun x => (decl x).tokens) ++
        comma.1 :: ((decl x).tokens ++ (laterTokens (fun x => (decl x).tokens) back ++ rest)) := by
    simp [tokens, hlater]
  rw [← hfront] at hnew hx
  have hends : (eof.next
      (comma.1 ::
        ((decl x).tokens ++ (laterTokens (fun x => (decl x).tokens) back ++ rest)))).EndsExpr :=
    .of_kind comma.2 rfl
  obtain ⟨state, hstate, hrun⟩ := h.run_items hstart hnew hends
  have hcomma : comma? comma.1 = some () := comma?_eq_some.mpr comma.2
  unfold FailsWith
  rw [htokens, hrun, moreDeclarations, run_whileNext_round hcomma]
  exact (h.taken hstate hx).bind

end ReadsNew

end Rule

/-! ## Plain declarations -/

/-- A binding of a name to an operand of one token. -/
structure PlainBinding where
  name : Token
  sign : Token
  body : Token
  shape : Shape Expr
  kind_name : name.kind = .identifier
  sign_equals : sign.isOperator "=" = true
  shape_body : Rule.terminalShape? body = some shape

/-- A field with a literal key of any form, any of the operators and an operand of one token. -/
structure PlainField where
  key : Token
  sign : Token
  body : Token
  visibility : Visibility
  plus : Bool
  shape : Shape Expr
  kind_key : key.kind = .identifier ∨ ∃ form, key.kind = .string form
  kind_sign : sign.kind = .operator
  data_sign : sign.data = assignmentSymbol visibility plus
  shape_body : Rule.terminalShape? body = some shape

/-- A member of an object: a field, or a binding behind `local`. -/
inductive PlainMember where
  | field (content : PlainField)
  | binding (word : TokenOf (.keyword .local)) (content : PlainBinding)

/-- The tokens of a binding declare its name. -/
def PlainBinding.declaration (b : PlainBinding) : Declaration :=
  ⟨[b.name, b.sign, b.body], b.name, .binding b.name.data⟩

/-- The tokens of a member declare the text of its key or the name that it binds. -/
def PlainMember.declaration : PlainMember → Declaration
  | field f => ⟨[f.key, f.sign, f.body], f.key, .field f.key.data⟩
  | binding word b => ⟨word.1 :: b.declaration.tokens, b.name, b.declaration.name⟩

namespace Rule

variable {eof : EndMark} {full : Rule TokenStream Expr} {rest : List Token}

/-! ### Bindings -/

/-- A plain binding with a name that is not taken is read, and it has no parameters. -/
theorem reads_plainBinding (hterminals : full.ReadsTerminals) {taken : String → Bool}
    (b : PlainBinding) (hname : taken b.name.data = false) (hrest : (eof.next rest).EndsExpr) :
    (binding full taken).Reads eof (b.declaration.tokens ++ rest)
      -- The binding is its name, no parameters, the sign and the operand.
      ⟨b.name.data, .node b.body.span b.shape, none⟩ rest := by
  -- What follows the name opens no parameters.
  have hsign : b.sign.kind ≠ .punct .parenL := by
    intro hkind
    have hequals := b.sign_equals
    simp [Token.isOperator, hkind] at hequals
  refine reads_binding.mpr
    ⟨b.name, _, rfl, b.kind_name, hname, none, _, ?_, b.sign, _, rfl, b.sign_equals, _,
    hterminals b.shape_body hrest, rfl⟩
  exact reads_optionalParameters.mpr (.inr ⟨hsign, rfl, rfl⟩)

/-- A name that is bound already is the fault, whatever follows it. -/
theorem failsWith_plainBinding {taken : String → Bool} (b : PlainBinding)
    (hname : taken b.name.data = true) :
    (binding full taken).FailsWith eof (b.declaration.tokens ++ rest) b.declaration.error := by
  have hexpect : (expect .identifier).Reads eof (b.declaration.tokens ++ rest) b.name
      (b.sign :: b.body :: rest) :=
    (reads_expect (by simp)).mpr ⟨rfl, b.kind_name⟩
  apply hexpect.bind_failsWith
  rw [if_pos hname]
  exact failsWith_fail

/-- The names of the bindings are those that are declared. -/
def KnowsBindings (seen : Array (Binding Expr)) (names : List Declared) : Prop :=
  seen.toList.map (fun b => Declared.binding b.name) = names

/-- Looking a name up among the bindings tells whether it is declared. -/
theorem KnowsBindings.any_eq {seen : Array (Binding Expr)} {names : List Declared}
    (h : KnowsBindings seen names) (name : String) :
    (seen.any fun b => b.name == name) = true ↔ .binding name ∈ names := by
  subst h
  rw [← Array.any_toList, List.any_eq_true]
  simp

/-- The bindings of a `local` expression. -/
theorem readsNew_bindings (hterminals : full.ReadsTerminals) :
    ReadsNew eof (pushBinding full) PlainBinding.declaration KnowsBindings where
  fresh := by
    intro seen names b rest hseen hnew hrest
    -- The rule compares with the bindings themselves, the declarations with their names.
    have hname : (seen.any fun b' => b'.name == b.name.data) = false := by
      rw [← Bool.not_eq_true, hseen.any_eq]
      exact hnew
    refine ⟨_, reads_pushBinding.mpr ⟨_, reads_plainBinding hterminals b hname hrest, rfl⟩, ?_⟩
    rw [KnowsBindings, Array.toList_push, List.map_append, hseen]
    rfl
  taken := by
    intro seen names b rest hseen hold
    exact (failsWith_plainBinding b ((hseen.any_eq b.name.data).mpr hold)).bind

/-! ### Members -/

/-- A literal key starts a field. -/
theorem startsKey_plainField (f : PlainField) : StartsKey f.key.kind := by
  obtain hkind | ⟨form, hkind⟩ := f.kind_key
  · rw [hkind]
    exact .identifier
  · rw [hkind]
    exact .string form

/-- The key of a plain field is read as it stands. -/
theorem reads_plainKey (f : PlainField) :
    ∃ k, (key full f.key).Reads eof rest k rest ∧ k.literalName? = some f.key.data := by
  obtain hkind | ⟨form, hkind⟩ := f.kind_key
  · exact ⟨_, (reads_key (startsKey_plainField f)).mpr (.inl ⟨hkind, rfl, rfl⟩), rfl⟩
  · exact ⟨_, (reads_key (startsKey_plainField f)).mpr (.inr (.inl ⟨form, hkind, rfl, rfl⟩)), rfl⟩

/-- A plain field has no parameters. -/
theorem reads_plainMethod (f : PlainField) :
    (optionalParameters full .methodParameter).Reads eof (f.sign :: f.body :: rest) none
      (f.sign :: f.body :: rest) := by
  refine reads_optionalParameters.mpr (.inr ⟨?_, rfl, rfl⟩)
  rw [EndMark.next_cons, f.kind_sign]
  simp

/-- The operator of a plain field says its visibility and whether it has a plus. -/
theorem reads_plainSign (f : PlainField) :
    assignment.Reads eof (f.sign :: rest) (f.visibility, f.plus) rest :=
  reads_assignment.mpr ⟨f.sign, rfl, f.kind_sign, assignment?_eq_some.mpr f.data_sign⟩

/-- A plain field with a name that is not taken is read, with this name. -/
theorem reads_plainField (hterminals : full.ReadsTerminals) {seen : Array (Member Expr)}
    (f : PlainField) (hnew : ∀ m ∈ seen.toList, m.fieldName? ≠ some f.key.data)
    (hrest : (eof.next rest).EndsExpr) :
    ∃ out, (field full f.key seen).Reads eof (f.sign :: f.body :: rest) out rest ∧
      out.key.literalName? = some f.key.data := by
  obtain ⟨k, hkey, hname⟩ := reads_plainKey f
  refine ⟨_, reads_field.mpr
    ⟨k, _, hkey, none, _, reads_plainMethod f, _, _, _, reads_plainSign f, fun _ => rfl, ?_, _,
    hterminals f.shape_body hrest, rfl⟩, hname⟩
  intro name hsame
  rw [hname] at hsame
  cases hsame
  exact hnew

/-- A field name that is taken is the fault, whatever the body is: it is not looked at. -/
theorem failsWith_plainField {seen : Array (Member Expr)} (f : PlainField)
    (hold : (seen.any fun m => m.fieldName? == some f.key.data) = true) :
    (field full f.key seen).FailsWith eof (f.sign :: f.body :: rest)
      ⟨.grammar (.duplicateField f.key.data), f.key.span⟩ := by
  obtain ⟨k, hkey, hname⟩ := reads_plainKey f
  -- The name is checked behind the operator, not where it is read.
  apply hkey.bind_failsWith
  apply (reads_plainMethod f).bind_failsWith
  apply (reads_plainSign f).bind_failsWith
  have hplain : (f.plus && (none : Option Parameters).isSome) = false := by simp
  simp only [hplain, Bool.false_eq_true, if_false]
  apply FailsWith.bind
  rw [freshField, hname]
  simp only [hold, if_true]
  exact failsWith_fail

/-- The name that a member declares, if it declares one. -/
def declared? : Member Expr → Option Declared
  | .field content => content.key.literalName?.map .field
  | .binding content => some (.binding content.name)
  | .assertion _ _ => none

/-- A member declares a field if it is a field of this name. -/
theorem declared?_eq_field {m : Member Expr} {name : String} :
    declared? m = some (.field name) ↔ m.fieldName? = some name := by
  cases m <;> simp [declared?, Member.fieldName?]

/-- A member declares a binding if it is a binding of this name. -/
theorem declared?_eq_binding {m : Member Expr} {name : String} :
    declared? m = some (.binding name) ↔ m.localName? = some name := by
  cases m <;> simp [declared?, Member.localName?]

/-- The names of the members are those that are declared, and no comma was read behind the last
    member. -/
def KnowsMembers (state : Array (Member Expr) × Bool) (names : List Declared) : Prop :=
  state.1.toList.filterMap declared? = names ∧ state.2 = false

/-- Looking a name up among the fields tells whether it is declared as a field. -/
theorem KnowsMembers.any_field {state : Array (Member Expr) × Bool} {names : List Declared}
    (h : KnowsMembers state names) (name : String) :
    (state.1.any fun m => m.fieldName? == some name) = true ↔ .field name ∈ names := by
  rw [← Array.any_toList, List.any_eq_true, ← h.1, List.mem_filterMap]
  simp only [beq_iff_eq, declared?_eq_field]

/-- Looking a name up among the bindings tells whether it is declared as a binding. -/
theorem KnowsMembers.any_binding {state : Array (Member Expr) × Bool} {names : List Declared}
    (h : KnowsMembers state names) (name : String) :
    (state.1.any fun m => m.localName? == some name) = true ↔ .binding name ∈ names := by
  rw [← Array.any_toList, List.any_eq_true, ← h.1, List.mem_filterMap]
  simp only [beq_iff_eq, declared?_eq_binding]

/-- One more member adds the name that it declares. -/
theorem KnowsMembers.push {state : Array (Member Expr) × Bool} {names : List Declared}
    {m : Member Expr} {d : Declared} (h : KnowsMembers state names) (hm : declared? m = some d) :
    KnowsMembers (state.1.push m, false) (names ++ [d]) := by
  refine ⟨?_, rfl⟩
  rw [Array.toList_push, List.filterMap_append, h.1, List.filterMap_cons_some hm]
  rfl

/-- A plain member does not look like the end of an object. -/
theorem endsMembers_plainMember (m : PlainMember) :
    endsMembers (eof.next (m.declaration.tokens ++ rest)).kind = false := by
  cases m with
  | binding word b =>
    have hkind : (eof.next ((PlainMember.binding word b).declaration.tokens ++ rest)).kind =
        .keyword .local :=
      word.2
    rw [hkind]
    rfl
  | field f =>
    have hnext : eof.next ((PlainMember.field f).declaration.tokens ++ rest) = f.key := rfl
    have hstart := startsKey_plainField f
    rw [hnext]
    generalize f.key.kind = kind at hstart ⊢
    cases hstart <;> rfl

/-- A member with a new name is read. -/
theorem reads_plainMember (hterminals : full.ReadsTerminals) {state : Array (Member Expr) × Bool}
    {names : List Declared} (hstate : KnowsMembers state names) (m : PlainMember)
    (hnew : m.declaration.name ∉ names) (hrest : (eof.next rest).EndsExpr) :
    ∃ out, (pushMember full state.1).Reads eof (m.declaration.tokens ++ rest) (state.1.push out)
      rest ∧
      declared? out = some m.declaration.name := by
  cases m with
  | binding word b =>
    have hname : (state.1.any fun m => m.localName? == some b.name.data) = false := by
      rw [← Bool.not_eq_true, hstate.any_binding]
      exact hnew
    refine ⟨.binding ⟨b.name.data, .node b.body.span b.shape, none⟩, ?_, rfl⟩
    refine reads_pushMember.mpr ⟨word.1, _, rfl, .inl ⟨word.2, _, ?_, rfl⟩⟩
    exact reads_plainBinding hterminals b hname hrest
  | field f =>
    have hfree : ∀ m ∈ state.1.toList, m.fieldName? ≠ some f.key.data := by
      intro m hm hsame
      apply hnew
      -- A field of this name among the members would be declared already.
      rw [← hstate.1]
      exact List.mem_filterMap.mpr ⟨m, hm, declared?_eq_field.mpr hsame⟩
    obtain ⟨out, hread, hname⟩ := reads_plainField hterminals f hfree hrest
    refine ⟨.field out, ?_, declared?_eq_field.mpr hname⟩
    exact reads_pushMember.mpr
      ⟨f.key, _, rfl, .inr (.inr ⟨startsKey_plainField f, out, hread, rfl⟩)⟩

/-- A member with a name that is taken is the fault. -/
theorem failsWith_plainMember {state : Array (Member Expr) × Bool} {names : List Declared}
    (hstate : KnowsMembers state names) (m : PlainMember) (hold : m.declaration.name ∈ names) :
    (pushMember full state.1).FailsWith eof (m.declaration.tokens ++ rest) m.declaration.error := by
  cases m with
  | binding word b =>
    have hpop : pop.Reads eof ((PlainMember.binding word b).declaration.tokens ++ rest) word.1
        (b.declaration.tokens ++ rest) := reads_pop_cons.mpr ⟨rfl, rfl⟩
    apply hpop.bind_failsWith
    -- A binding is checked where its name is read, and it is compared with bindings only.
    rw [ofKind?_eq_binding.mpr word.2]
    exact (failsWith_plainBinding b ((hstate.any_binding b.name.data).mpr hold)).bind
  | field f =>
    have hpop : pop.Reads eof ((PlainMember.field f).declaration.tokens ++ rest) f.key
        (f.sign :: f.body :: rest) := reads_pop_cons.mpr ⟨rfl, rfl⟩
    apply hpop.bind_failsWith
    have htaken := (hstate.any_field f.key.data).mpr hold
    -- Keys of both kinds lead to the rule for fields.
    obtain hkind | ⟨form, hkind⟩ := f.kind_key
    · rw [hkind]
      exact (failsWith_plainField f htaken).bind
    · rw [hkind]
      exact (failsWith_plainField f htaken).bind

/-- Reads the next member of an object, unless the members end here. -/
def nextMember (full : Rule TokenStream Expr) (state : Array (Member Expr) × Bool) :
    Rule TokenStream (Array (Member Expr) × Bool) :=
  afterComma endsMembers (pushMember full) state.1

/-- The members of an object. -/
theorem readsNew_members (hterminals : full.ReadsTerminals) :
    ReadsNew eof (nextMember full) PlainMember.declaration KnowsMembers where
  fresh := by
    intro state names m rest hstate hnew hrest
    obtain ⟨out, hread, hname⟩ := reads_plainMember hterminals hstate m hnew hrest
    refine ⟨(state.1.push out, false), ?_, hstate.push hname⟩
    exact reads_afterComma.mpr (.inr ⟨endsMembers_plainMember m, _, hread, rfl⟩)
  taken := by
    intro state names m rest hstate hold
    -- What stands here does not end the object, so a member is read.
    have hpeek :
        peek.Reads eof (m.declaration.tokens ++ rest) (eof.next (m.declaration.tokens ++ rest))
        (m.declaration.tokens ++ rest) := reads_peek.mpr ⟨rfl, rfl⟩
    apply hpeek.bind_failsWith
    simp only [endsMembers_plainMember m, Bool.false_eq_true, if_false]
    exact (failsWith_plainMember hstate m hold).bind

end Rule

end JsonnetSyntax
