import JsonnetSyntax.Expr.Basic
import JsonnetSyntax.Grammar.Level
import JsonnetSyntax.Token.Basic
import Mathlib.Data.List.Forall2

/-!
# Printing syntax trees

A `Symbol` is what a token says, without its place and its fodder.  `Expr.unparse` writes a tree
down as symbols from left to right, with no parentheses but those of argument and parameter lists.
`Expr.print` also puts every sub-expression in parentheses, except where the grammar allows none:
the object behind an operand, and the string literal that is the key of a field.

## Key results

- `spelled_append`: tokens that spell two rows of symbols can be cut in two
- `spelled_tokens`: every row of symbols is spelled by some tokens
- `UnaryOp.ofSymbol?_eq_some`, `BinaryOp.ofSymbol?_eq_some`, `assignment?_eq_some`: what is printed
  for an operator stands for that operator only
-/

namespace JsonnetSyntax

/-! ## Symbols -/

/-- What a token says.  The name of an imported file may be written as a string of any form. -/
inductive Symbol where
  | punct (mark : Punct)
  | keyword (word : Keyword)
  | identifier (name : String)
  | number (spelling : String)
  | operator (text : String)
  | string (value : String) (form : StringForm) (blockIndent : Option String)
  | file (name : String)
deriving DecidableEq, Repr

/-- Whether the mark is a parenthesis. -/
def Punct.isParen : Punct → Bool
  | .parenL | .parenR => true
  | _ => false

/-- Whether the symbol is a parenthesis. -/
def Symbol.isParen : Symbol → Bool
  | .punct mark => mark.isParen
  | _ => false

namespace Token

/-- Whether the token is a parenthesis. -/
def isParen (t : Token) : Bool :=
  match t.kind with
  | .punct mark => mark.isParen
  | _ => false

/-- The indent of a text block; other tokens have none. -/
def blockIndent (t : Token) : Option String :=
  if t.kind = .string .block then t.block.map TextBlock.indent else none

/-- The token says `s`: marks and keywords are known by their kind, all others also by their
    text. -/
def Spells (t : Token) : Symbol → Prop
  | .punct mark => t.kind = .punct mark
  | .keyword word => t.kind = .keyword word
  | .identifier name => t.kind = .identifier ∧ t.data = name
  | .number spelling => t.kind = .number ∧ t.data = spelling
  | .operator text => t.kind = .operator ∧ t.data = text
  | .string value form indent => t.kind = .string form ∧ t.data = value ∧ t.blockIndent = indent
  | .file name => (∃ form, t.kind = .string form) ∧ t.data = name

/-- A mark is said by every token of its kind. -/
theorem Spells.punct {t : Token} {mark : Punct} (h : t.kind = .punct mark) :
    t.Spells (.punct mark) := h

/-- A keyword is said by every token of its kind. -/
theorem Spells.keyword {t : Token} {word : Keyword} (h : t.kind = .keyword word) :
    t.Spells (.keyword word) := h

/-- An identifier says its own name. -/
theorem Spells.identifier {t : Token} (h : t.kind = .identifier) : t.Spells (.identifier t.data) :=
  ⟨h, rfl⟩

/-- A number says its own spelling. -/
theorem Spells.number {t : Token} (h : t.kind = .number) : t.Spells (.number t.data) := ⟨h, rfl⟩

/-- A token with the symbol of an operator says that operator. -/
theorem Spells.operator {t : Token} {text : String} (h : t.isOperator text = true) :
    t.Spells (.operator text) := by
  simpa [isOperator, Spells] using h

/-- A token is a parenthesis if it says one. -/
theorem Spells.isParen_eq {t : Token} {s : Symbol} (h : t.Spells s) : t.isParen = s.isParen := by
  -- Marks and keywords say their kind, and so do the other tokens, with a text besides.
  cases s with
  | punct mark =>
    have hkind : t.kind = .punct mark := h
    simp [isParen, Symbol.isParen, hkind]
  | keyword word =>
    have hkind : t.kind = .keyword word := h
    simp [isParen, Symbol.isParen, hkind]
  | file name =>
    obtain ⟨⟨form, hkind⟩, -⟩ := h
    simp [isParen, Symbol.isParen, hkind]
  | _ => simp [isParen, Symbol.isParen, h.1]

/-- A string of any form names a file. -/
theorem Spells.file {t : Token} {value : String} {form : StringForm} {indent : Option String}
    (h : t.Spells (.string value form indent)) : t.Spells (.file value) :=
  ⟨⟨form, h.1⟩, h.2.1⟩

/-- The end of a file says nothing. -/
theorem Spells.kind_ne {t : Token} {s : Symbol} (h : t.Spells s) : t.kind ≠ .endOfFile := by
  intro hend
  cases s with
  | file name =>
    obtain ⟨⟨form, hkind⟩, -⟩ := h
    simp [hend] at hkind
  | _ => simp [Spells, hend] at h

end Token

/-- The tokens say the symbols one by one. -/
abbrev Spelled (tokens : List Token) (symbols : List Symbol) : Prop :=
  List.Forall₂ Token.Spells tokens symbols

section Spelled

variable {tokens : List Token} {s : Symbol} {ps qs : List Symbol}

/-- No symbols are spelled by no tokens. -/
theorem spelled_nil : Spelled tokens [] ↔ tokens = [] := List.forall₂_nil_right_iff

/-- A first symbol is said by the first token. -/
theorem spelled_cons :
    Spelled tokens (s :: ps) ↔ ∃ t rest, t.Spells s ∧ Spelled rest ps ∧ tokens = t :: rest :=
  List.forall₂_cons_right_iff

/-- Tokens that say two rows of symbols are the tokens of one in front of those of the other. -/
theorem spelled_append :
    Spelled tokens (ps ++ qs) ↔
      ∃ front back, Spelled front ps ∧ Spelled back qs ∧ tokens = front ++ back := by
  constructor
  · intro h
    -- The first row takes as many tokens as it has symbols.
    have hfront := List.forall₂_take_append _ _ _ h
    have hback := List.forall₂_drop_append _ _ _ h
    exact ⟨tokens.take ps.length, tokens.drop ps.length, hfront, hback,
      (List.take_append_drop ..).symm⟩
  · intro h
    obtain ⟨front, back, hfront, hback, rfl⟩ := h
    exact List.rel_append hfront hback

/-- One symbol is said by one token. -/
theorem spelled_singleton : Spelled tokens [s] ↔ ∃ t, t.Spells s ∧ tokens = [t] := by
  rw [spelled_cons]
  constructor
  · intro h
    obtain ⟨t, rest, ht, hrest, rfl⟩ := h
    rw [spelled_nil.mp hrest]
    exact ⟨t, ht, rfl⟩
  · intro h
    obtain ⟨t, ht, rfl⟩ := h
    exact ⟨t, [], ht, spelled_nil.mpr rfl, rfl⟩

/-- Tokens that say a last symbol end with a token that says it. -/
theorem spelled_concat :
    Spelled tokens (ps ++ [s]) ↔
      ∃ front t, Spelled front ps ∧ t.Spells s ∧ tokens = front ++ [t] := by
  rw [spelled_append]
  constructor
  · intro h
    obtain ⟨front, back, hfront, hback, rfl⟩ := h
    obtain ⟨t, ht, rfl⟩ := spelled_singleton.mp hback
    exact ⟨front, t, hfront, ht, rfl⟩
  · intro h
    obtain ⟨front, t, hfront, ht, rfl⟩ := h
    exact ⟨front, [t], hfront, spelled_singleton.mpr ⟨t, ht, rfl⟩, rfl⟩

/-- Tokens that say symbols hold no end mark. -/
theorem Spelled.kind_ne (h : Spelled tokens ps) : ∀ t ∈ tokens, t.kind ≠ .endOfFile := by
  intro t ht
  -- The induction is on the tokens; each of them says one of the symbols.
  induction h with
  | nil => cases ht
  | cons hspells _ ih =>
    obtain rfl | ht := List.mem_cons.mp ht
    · exact hspells.kind_ne
    · exact ih ht

end Spelled

/-- A token that says a symbol, at no place. -/
def Symbol.token : Symbol → Token
  | .punct mark => { kind := .punct mark, data := mark.char.toString, span := .unset "" }
  | .keyword word => { kind := .keyword word, data := word.spelling, span := .unset "" }
  | .identifier name => { kind := .identifier, data := name, span := .unset "" }
  | .number spelling => { kind := .number, data := spelling, span := .unset "" }
  | .operator text => { kind := .operator, data := text, span := .unset "" }
  | .string value form indent =>
    { kind := .string form, data := value, block := indent.map fun i => ⟨i, "", value⟩,
      span := .unset "" }
  | .file name => { kind := .string .double, data := name, span := .unset "" }

/-- The symbols that tokens can say: only text blocks have an indent. -/
def Symbol.Sayable : Symbol → Prop
  | .string _ form indent => indent.isSome → form = .block
  | _ => True

/-- A symbol that can be said is said by its token. -/
theorem Symbol.token_spells {s : Symbol} (h : s.Sayable) : s.token.Spells s := by
  cases s with
  | string value form indent =>
    refine ⟨rfl, rfl, ?_⟩
    -- The token of a text block keeps the indent; other strings can have none.
    cases form with
    | block => cases indent <;> rfl
    | _ =>
      cases indent with
      | none => rfl
      | some i => cases h rfl
  | file name => exact ⟨⟨.double, rfl⟩, rfl⟩
  | punct mark => rfl
  | keyword word => rfl
  | _ => exact ⟨rfl, rfl⟩

/-! ## Parts of constructs -/

/-- Symbols in parentheses. -/
def parenthesise (ps : List Symbol) : List Symbol := .punct .parenL :: ps ++ [.punct .parenR]

/-- Items with commas between them. -/
def separated : List (List Symbol) → List Symbol
  | [] => []
  | item :: items => item ++ items.flatMap fun item => .punct .comma :: item

/-- A comma, or nothing. -/
def optionalComma (comma : Bool) : List Symbol := if comma then [.punct .comma] else []

/-- Without items, there are no commas. -/
@[simp] theorem separated_nil : separated [] = [] := rfl

/-- The first item has no comma in front of it, and every further one has. -/
@[simp] theorem separated_cons (item : List Symbol) (items : List (List Symbol)) :
    separated (item :: items) = item ++ items.flatMap fun item => .punct .comma :: item := rfl

/-- Without a comma, nothing is printed. -/
@[simp] theorem optionalComma_false : optionalComma false = [] := rfl

/-- A comma is printed as itself. -/
@[simp] theorem optionalComma_true : optionalComma true = [.punct .comma] := rfl

/-- A further item stands behind a comma. -/
theorem separated_concat {items : List (List Symbol)} (item : List Symbol) (h : items ≠ []) :
    separated (items ++ [item]) = separated items ++ .punct .comma :: item := by
  cases items with
  | nil => exact absurd rfl h
  | cons first items => simp

namespace Parameters

/-- The names in parentheses. -/
def print (p : Parameters) : List Symbol :=
  .punct .parenL :: separated (p.names.map fun name => [.identifier name]) ++
    optionalComma p.trailingComma ++ [.punct .parenR]

/-- Parameters, if there are any. -/
def printOption (p : Option Parameters) : List Symbol := p.elim [] print

end Parameters

/-- Prints a binding with a printed body. -/
def Binding.print (b : Binding (List Symbol)) : List Symbol :=
  .identifier b.name :: Parameters.printOption b.parameters ++ .operator "=" :: b.body

/-- Prints a clause with a printed expression. -/
def Clause.print : Clause (List Symbol) → List Symbol
  | .forIn name source => .keyword .for :: .identifier name :: .keyword .in :: source
  | .onlyIf condition => .keyword .if :: condition

/-- Prints a selector with a printed index. -/
def Selector.print : Selector (List Symbol) → List Symbol
  | .expr index => .punct .bracketL :: index ++ [.punct .bracketR]
  | .field name => [.punct .dot, .identifier name]

namespace FieldKey

/-- Prints a key with a printed expression. -/
def print : FieldKey (List Symbol) → List Symbol
  | .identifier name => [.identifier name]
  | .string literal => literal
  | .computed key => .punct .bracketL :: key ++ [.punct .bracketR]

/-- Puts a computed key in parentheses. -/
def group : FieldKey (List Symbol) → FieldKey (List Symbol)
  | .identifier name => .identifier name
  | .string literal => .string literal
  | .computed key => .computed (parenthesise key)

end FieldKey

/-- The operator behind the name of a field. -/
def assignmentSymbol (visibility : Visibility) (plus : Bool) : String :=
  (if plus then "+" else "") ++ visibility.colons

namespace Field

/-- Prints a field with printed expressions. -/
def print (f : Field (List Symbol)) : List Symbol :=
  f.key.print ++ Parameters.printOption f.method ++
    .operator (assignmentSymbol f.visibility f.plus) :: f.body

/-- Puts the sub-expressions in parentheses. -/
def group (f : Field (List Symbol)) : Field (List Symbol) :=
  ⟨f.key.group, f.visibility, f.plus, f.method, parenthesise f.body⟩

end Field

/-- A message behind a colon, if there is one. -/
def printMessage (message : Option (List Symbol)) : List Symbol :=
  message.elim [] fun m => .operator ":" :: m

namespace Member

/-- Prints a member with printed expressions. -/
def print : Member (List Symbol) → List Symbol
  | .assertion condition message => .keyword .assert :: condition ++ printMessage message
  | .field content => content.print
  | .binding content => .keyword .local :: content.print

/-- Puts the sub-expressions in parentheses. -/
def group : Member (List Symbol) → Member (List Symbol)
  | .assertion condition message =>
    .assertion (parenthesise condition) (message.map parenthesise)
  | .field content => .field content.group
  | .binding content => .binding (content.map parenthesise)

end Member

/-! ## Expressions -/

namespace Shape

/-- Prints a construct with printed sub-expressions. -/
def print : Shape (List Symbol) → List Symbol
  | .apply target arguments trailingComma tailStrict =>
    target ++ .punct .parenL :: separated arguments ++ optionalComma trailingComma ++
      .punct .parenR :: if tailStrict then [.keyword .tailstrict] else []
  | .applyBrace left right => left ++ right
  | .array elements trailingComma =>
    .punct .bracketL :: separated elements ++ optionalComma trailingComma ++ [.punct .bracketR]
  | .arrayComp body trailingComma clauses =>
    .punct .bracketL :: body ++ optionalComma trailingComma ++ clauses.flatMap Clause.print ++
      [.punct .bracketR]
  | .assert condition message rest =>
    .keyword .assert :: condition ++ printMessage message ++ .punct .semicolon :: rest
  | .binary left op right => left ++ .operator op.symbol :: right
  | .conditional condition whenTrue whenFalse =>
    .keyword .if :: condition ++ .keyword .then :: whenTrue ++
      whenFalse.elim [] fun e => .keyword .else :: e
  | .dollar => [.punct .dollar]
  | .error message => .keyword .error :: message
  | .function parameters body => .keyword .function :: parameters.print ++ body
  | .import file => [.keyword .import, .file file]
  | .importstr file => [.keyword .importstr, .file file]
  | .index target selector => target ++ selector.print
  | .boolean value => [.keyword (if value then .true else .false)]
  | .null => [.keyword .null]
  | .number _ spelling => [.number spelling]
  | .string value form blockIndent => [.string value form blockIndent]
  | .local bindings body =>
    .keyword .local :: separated (bindings.map Binding.print) ++ .punct .semicolon :: body
  | .object members trailingComma =>
    .punct .braceL :: separated (members.map Member.print) ++ optionalComma trailingComma ++
      [.punct .braceR]
  | .objectComp members trailingComma clauses =>
    .punct .braceL :: separated (members.map Member.print) ++ optionalComma trailingComma ++
      clauses.flatMap Clause.print ++ [.punct .braceR]
  | .self => [.keyword .self]
  | .superIndex selector => .keyword .super :: selector.print
  | .unary op operand => .operator op.symbol :: operand
  | .var _ spelling => [.identifier spelling]

/-- Puts the sub-expressions in parentheses, where the grammar allows them. -/
def group : Shape (List Symbol) → Shape (List Symbol)
  | .applyBrace left right => .applyBrace (parenthesise left) right
  | .object members trailingComma => .object (members.map Member.group) trailingComma
  | .objectComp members trailingComma clauses =>
    .objectComp (members.map Member.group) trailingComma (clauses.map (Clause.map parenthesise))
  | shape => shape.map parenthesise

end Shape

namespace Expr

/-- The symbols of a tree from left to right. -/
def unparse : Expr → List Symbol := fold fun _ shape => shape.print

/-- The symbols of a tree from left to right, with every sub-expression in parentheses. -/
def print : Expr → List Symbol := fold fun _ shape => shape.group.print

/-- A node is written down by its construct, from what its sub-expressions are. -/
@[simp] theorem unparse_node (span : Span) (shape : Shape Expr) :
    (node span shape).unparse = (shape.map unparse).print := fold_node ..

/-- A node is printed by its construct, from its sub-expressions in parentheses. -/
@[simp] theorem print_node (span : Span) (shape : Shape Expr) :
    (node span shape).print = (shape.map print).group.print := fold_node ..

end Expr

/-! ## What is printed can be said -/

/-- All symbols of a row can be said. -/
def AllSayable (ps : List Symbol) : Prop := ∀ s ∈ ps, s.Sayable

section AllSayable

variable {s : Symbol} {ps qs : List Symbol}

/-- No symbols can be said. -/
@[simp] theorem allSayable_nil : AllSayable [] := List.forall_mem_nil _

/-- A row can be said if its first symbol and the others can. -/
@[simp] theorem allSayable_cons : AllSayable (s :: ps) ↔ s.Sayable ∧ AllSayable ps :=
  List.forall_mem_cons

/-- Two rows can be said if both can. -/
@[simp] theorem allSayable_append : AllSayable (ps ++ qs) ↔ AllSayable ps ∧ AllSayable qs :=
  List.forall_mem_append

/-- Rows one behind the other can be said if each of them can. -/
@[simp] theorem allSayable_flatMap {α : Type} {f : α → List Symbol} {xs : List α} :
    AllSayable (xs.flatMap f) ↔ ∀ x ∈ xs, AllSayable (f x) := List.forall_mem_flatMap

/-- Parentheses can be said. -/
@[simp] theorem allSayable_parenthesise : AllSayable (parenthesise ps) ↔ AllSayable ps := by
  simp [parenthesise, Symbol.Sayable]

/-- Commas between items can be said. -/
@[simp] theorem allSayable_separated {items : List (List Symbol)} :
    AllSayable (separated items) ↔ ∀ item ∈ items, AllSayable item := by
  cases items <;> simp [Symbol.Sayable]

/-- A comma can be said, and so can nothing. -/
@[simp] theorem allSayable_optionalComma {comma : Bool} : AllSayable (optionalComma comma) := by
  cases comma <;> simp [Symbol.Sayable]

/-- Parameters can be said: they are names, commas and parentheses. -/
@[simp] theorem allSayable_parameters {p : Parameters} : AllSayable p.print := by
  simp [Parameters.print, Symbol.Sayable]

/-- Parameters that may be missing can be said. -/
@[simp] theorem allSayable_printOption {p : Option Parameters} :
    AllSayable (Parameters.printOption p) := by
  cases p <;> simp [Parameters.printOption]

/-- Symbols that can be said are spelled by their tokens. -/
theorem spelled_tokens (h : AllSayable ps) : Spelled (ps.map Symbol.token) ps := by
  induction ps with
  | nil => exact .nil
  | cons s ps ih =>
    obtain ⟨hs, hps⟩ := allSayable_cons.mp h
    exact .cons (Symbol.token_spells hs) (ih hps)

end AllSayable

/-- A binding can be said if its body can. -/
theorem Binding.allSayable_print {b : Binding (List Symbol)} :
    AllSayable b.print ↔ AllSayable b.body := by
  simp [Binding.print, Symbol.Sayable]

/-- A clause can be said if its expression can. -/
theorem Clause.allSayable_print {c : Clause (List Symbol)} :
    AllSayable c.print ↔ AllSayable c.expr := by
  cases c <;> simp [Clause.print, Clause.expr, Symbol.Sayable]

/-- A selector can be said if its index can. -/
theorem Selector.allSayable_print {s : Selector (List Symbol)} :
    AllSayable s.print ↔ ∀ ps ∈ s.children, AllSayable ps := by
  cases s <;> simp [Selector.print, Selector.children, Symbol.Sayable]

/-- A member of an object can be said if its sub-expressions can. -/
theorem Member.allSayable_print {m : Member (List Symbol)} :
    AllSayable m.print ↔ ∀ ps ∈ m.children, AllSayable ps := by
  cases m with
  | assertion condition message =>
    cases message <;> simp [Member.print, Member.children, printMessage, Symbol.Sayable]
  | field content =>
    obtain ⟨key, visibility, plus, method, body⟩ := content
    cases key <;>
      simp [Member.print, Member.children, Field.print, Field.children, FieldKey.print,
        FieldKey.children, Symbol.Sayable]
  | binding content =>
    simp [Member.print, Member.children, Binding.allSayable_print, Symbol.Sayable]

/-- Parentheses in a member change nothing about what can be said. -/
theorem Member.allSayable_group {m : Member (List Symbol)} :
    (∀ ps ∈ m.group.children, AllSayable ps) ↔ ∀ ps ∈ m.children, AllSayable ps := by
  cases m with
  | assertion condition message => cases message <;> simp [Member.group, Member.children]
  | field content =>
    obtain ⟨key, visibility, plus, method, body⟩ := content
    cases key <;> simp [Member.group, Member.children, Field.group, Field.children, FieldKey.group,
        FieldKey.children]
  | binding content => simp [Member.group, Member.children]

/-- What a construct adds to its sub-expressions can be said, if the construct is well formed. -/
theorem Shape.allSayable_print {shape : Shape (List Symbol)}
    (hown : ∀ value form indent, shape = .string value form indent →
      (Symbol.string value form indent).Sayable)
    (h : ∀ ps ∈ shape.children, AllSayable ps) : AllSayable shape.print := by
  -- Optional parts are told apart by cases, and lists by their members.
  cases shape with
  | string value form indent => simpa [Shape.print] using hown value form indent rfl
  | apply target arguments trailingComma tailStrict =>
    cases tailStrict <;> simpa [Shape.print, Shape.children, Symbol.Sayable] using h
  | assert condition message rest =>
    cases message <;> simpa [Shape.print, Shape.children, printMessage, Symbol.Sayable] using h
  | conditional condition whenTrue whenFalse =>
    cases whenFalse <;> simpa [Shape.print, Shape.children, Symbol.Sayable, and_assoc] using h
  | «local» bindings body =>
    obtain ⟨hbodies, hbody⟩ := List.forall_mem_append.mp h
    rw [List.forall_mem_map] at hbodies
    rw [List.forall_mem_singleton] at hbody
    simpa [Shape.print, Binding.allSayable_print, Symbol.Sayable] using ⟨hbodies, hbody⟩
  | object members trailingComma =>
    have hmembers := List.forall_mem_flatMap.mp h
    simpa [Shape.print, Member.allSayable_print, Symbol.Sayable] using hmembers
  | objectComp members trailingComma clauses =>
    obtain ⟨hmembers, hclauses⟩ := List.forall_mem_append.mp h
    rw [List.forall_mem_flatMap] at hmembers
    rw [List.forall_mem_map] at hclauses
    simpa [Shape.print, Member.allSayable_print, Clause.allSayable_print, Symbol.Sayable] using
      ⟨hmembers, hclauses⟩
  | array | arrayComp | applyBrace | binary | error | function | index | superIndex | unary =>
    simpa [Shape.print, Shape.children, Symbol.Sayable, Clause.allSayable_print,
      Selector.allSayable_print] using h
  | dollar | «import» | importstr | boolean | null | number | self | var =>
    simp [Shape.print, Symbol.Sayable]

/-- Parentheses around sub-expressions can be said. -/
theorem Shape.allSayable_group {shape : Shape (List Symbol)}
    (h : ∀ ps ∈ shape.children, AllSayable ps) : ∀ ps ∈ shape.group.children, AllSayable ps := by
  -- Most constructs put all their sub-expressions in parentheses.
  have hmap : ∀ ps ∈ (shape.map parenthesise).children, AllSayable ps := by
    rw [Shape.children_map, List.forall_mem_map]
    exact fun ps hps => allSayable_parenthesise.mpr (h ps hps)
  cases shape with
  | applyBrace left right => simpa [Shape.group, Shape.children] using h
  | object members trailingComma =>
    have hmembers := List.forall_mem_flatMap.mp h
    refine List.forall_mem_flatMap.mpr (List.forall_mem_map.mpr fun m hm => ?_)
    exact Member.allSayable_group.mpr (hmembers m hm)
  | objectComp members trailingComma clauses =>
    obtain ⟨hmembers, hclauses⟩ := List.forall_mem_append.mp h
    rw [List.forall_mem_flatMap] at hmembers
    refine List.forall_mem_append.mpr ⟨?_, ?_⟩
    · refine List.forall_mem_flatMap.mpr (List.forall_mem_map.mpr fun m hm => ?_)
      exact Member.allSayable_group.mpr (hmembers m hm)
    · simpa using hclauses
  | _ =>
    exact hmap

/-! ## Operators are told by their symbols -/

/-- The symbol of a unary operator stands for that operator only. -/
theorem UnaryOp.ofSymbol?_eq_some {text : String} {op : UnaryOp} :
    UnaryOp.ofSymbol? text = some op ↔ text = op.symbol := by
  constructor
  -- The operator is found by its symbol; the other direction is one case for each operator.
  · intro h
    have hfound := List.find?_some h
    exact (beq_iff_eq.mp hfound).symm
  · intro h
    subst h
    cases op <;> rfl

/-- The symbol of a binary operator stands for that operator only. -/
theorem BinaryOp.ofSymbol?_eq_some {text : String} {op : BinaryOp} :
    BinaryOp.ofSymbol? text = some op ↔ text = op.symbol := by
  constructor
  · intro h
    have hfound := List.find?_some h
    exact (beq_iff_eq.mp hfound).symm
  · intro h
    subst h
    cases op <;> rfl

/-- A token is an operator of the level or of a tighter one. -/
theorem Rule.binaryOp?_eq_some {precedence : Precedence} {t : Token} {op : BinaryOp} :
    binaryOp? precedence t = some op ↔
      t.kind = .operator ∧ t.data = op.symbol ∧ op.precedence ≤ precedence := by
  -- Only an operator has a symbol, and only one that binds tightly enough is taken.
  unfold binaryOp?
  split
  · next ht => simp [ht, BinaryOp.ofSymbol?_eq_some]
  · next ht => simp [ht]

/-- One, two or three colons stand for one visibility each. -/
theorem Visibility.ofColons?_eq_some {text : String} {visibility : Visibility} :
    Visibility.ofColons? text = some visibility ↔ text = visibility.colons := by
  constructor
  · intro h
    have hfound := List.find?_some h
    exact (beq_iff_eq.mp hfound).symm
  · intro h
    subst h
    cases visibility <;> rfl

/-- The operator behind a field name is a plus sign, if there is one, and colons. -/
theorem assignment?_eq_some {text : String} {visibility : Visibility} {plus : Bool} :
    assignment? text = some (visibility, plus) ↔ text = assignmentSymbol visibility plus := by
  constructor
  · intro h
    unfold assignment? at h
    -- A plus sign is cut off first, if there is one; the rest are the colons.
    split at h
    · next colons htext =>
      obtain ⟨v, hv, heq⟩ := Option.map_eq_some_iff.mp h
      cases heq
      have hcolons := Visibility.ofColons?_eq_some.mp hv
      rw [← String.toList_inj, htext, assignmentSymbol, ← hcolons]
      simp
    · obtain ⟨v, hv, heq⟩ := Option.map_eq_some_iff.mp h
      cases heq
      simpa [assignmentSymbol] using Visibility.ofColons?_eq_some.mp hv
  · intro h
    subst h
    cases plus <;> cases visibility <;> decide

end JsonnetSyntax
