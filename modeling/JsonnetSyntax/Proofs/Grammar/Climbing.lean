import JsonnetSyntax.Proofs.Grammar.Faithful
import JsonnetSyntax.Proofs.Grammar.RoundTrip

/-!
# Precedence climbing

A chain is a row of operands with binary operators between them.  It is read by a loop that takes
the operators that bind tightly enough and leaves the looser ones to its caller, so the shape of the
tree is decided by what each loop finds in front of it.  Here that shape is compared with the rule
that the precedences stand for: an operator never stands below one that binds tighter, and never to
the right of one that binds as tightly.

## Key results

- `Expr.erase_eq_of_inorder_eq`: there is only one tree that keeps this rule, up to places
- `PlainOperand.reads_unary`: an operand is read with all its unary operators
- `Rule.reads_loop_of_links`: what the loop makes of a row of operators and operands
- `Level.reads_expr_of_links`: what one level of precedence takes of a chain and what it leaves
- `parse_chain`: a chain of any length is read as the one tree that keeps the rule
-/

namespace JsonnetSyntax

/-! ## Trees of binary operators -/

namespace Expr

/-- The binary operator at the top of an expression. -/
def topOp? (e : Expr) : Option BinaryOp :=
  match e.shape with
  | .binary _ op _ => some op
  | _ => none

/-- The binary operators at the top of a tree and their operands, from left to right. -/
def inorder : Expr → List (Expr ⊕ BinaryOp)
  | .node _ (.binary left op right) => inorder left ++ .inr op :: inorder right
  | e => [.inl e]

end Expr

/-- The operators below a binary operator bind at least as tightly on its left, and tighter on its
    right. -/
def Shape.Climbs : Shape Expr → Prop
  | .binary left op right =>
    (∀ below ∈ left.topOp?, below.precedence ≤ op.precedence) ∧
      ∀ below ∈ right.topOp?, below.precedence < op.precedence
  | _ => True

namespace Expr

/-- All binary operators of a tree stand where their precedences put them, as operators that
    associate to the left. -/
def Climbs (root : Expr) : Prop := ∀ e : Expr, e.IsWithin root → e.shape.Climbs

/-- A tree keeps the order if its top does and every sub-expression does. -/
theorem climbs_node {span : Span} {shape : Shape Expr} :
    (node span shape).Climbs ↔ shape.Climbs ∧ ∀ child ∈ shape.children, child.Climbs := by
  constructor
  · intro h
    exact ⟨h _ (.refl _), fun child hmem e he => h e (.child hmem he)⟩
  · intro h e he
    obtain ⟨htop, hchildren⟩ := h
    cases he with
    | refl => exact htop
    | child hmem he => exact hchildren _ hmem e he

/-- Below a binary operator, the operators on the left may bind as tightly, those on the right may
not. -/
theorem climbs_binary {span : Span} {left right : Expr} {op : BinaryOp} :
    (node span (.binary left op right)).Climbs ↔
      ((∀ below ∈ left.topOp?, below.precedence ≤ op.precedence) ∧
        ∀ below ∈ right.topOp?, below.precedence < op.precedence) ∧ left.Climbs ∧ right.Climbs := by
  simp [climbs_node, Shape.Climbs, Shape.children]

/-- A binary operation has its operator at the top. -/
@[simp] theorem topOp?_binary {span : Span} {left right : Expr} {op : BinaryOp} :
    (node span (.binary left op right)).topOp? = some op := rfl

/-- A binary operation is read as its left operand, its operator and its right operand. -/
@[simp] theorem inorder_binary {span : Span} {left right : Expr} {op : BinaryOp} :
    (node span (.binary left op right)).inorder = left.inorder ++ .inr op :: right.inorder := by
  rw [inorder]

/-- An expression with a binary operator at its top is a binary operation. -/
theorem eq_binary_of_topOp {e : Expr} {op : BinaryOp} (h : e.topOp? = some op) :
    ∃ span left right, e = node span (.binary left op right) := by
  obtain ⟨span, shape⟩ := e
  cases shape with
  | binary left op' right =>
    cases h
    exact ⟨span, left, right, rfl⟩
  | _ => cases h

/-- Without a binary operator at its top, an expression is read as one operand. -/
theorem inorder_of_topOp_eq_none {e : Expr} (h : e.topOp? = none) : e.inorder = [.inl e] := by
  obtain ⟨span, shape⟩ := e
  cases shape with
  | binary left op right => cases h
  | _ => rw [inorder]; simp

/-- In a tree that keeps the order, no operator binds more loosely than the one at the top. -/
theorem Climbs.le_top {e : Expr} (h : e.Climbs) {op : BinaryOp} (hop : .inr op ∈ e.inorder) :
    ∃ top ∈ e.topOp?, op.precedence ≤ top.precedence := by
  -- By induction over the tree: the top of each side is bounded by the operator, and bounds the
  -- rest.
  induction e using induction_on_children with
  | step e ih =>
    cases htop : e.topOp? with
    | none => simp [inorder_of_topOp_eq_none htop] at hop
    | some top =>
      obtain ⟨span, left, right, rfl⟩ := eq_binary_of_topOp htop
      obtain ⟨⟨hleft, hright⟩, hclimbsLeft, hclimbsRight⟩ := climbs_binary.mp h
      refine ⟨top, rfl, ?_⟩
      rw [inorder_binary, List.mem_append, List.mem_cons] at hop
      obtain hop | hop | hop := hop
      · obtain ⟨below, hbelow, hle⟩ :=
          ih left (by simp [children, shape, Shape.children]) hclimbsLeft hop
        exact Nat.le_trans hle (hleft below hbelow)
      · cases hop
        exact Nat.le_refl _
      · obtain ⟨below, hbelow, hle⟩ :=
          ih right (by simp [children, shape, Shape.children]) hclimbsRight hop
        exact Nat.le_trans hle (Nat.le_of_lt (hright below hbelow))

/-- The operator at the top is the same in two trees that are read in the same order, and so are the
    rows on its two sides: further to the right it would stand on the right of one that binds as
    tightly. -/
theorem Climbs.split_eq {e e' : Expr} {span span' : Span} {left right left' right' : Expr}
    {op op' : BinaryOp} (he : e = node span (.binary left op right))
    (he' : e' = node span' (.binary left' op' right')) (h : e.Climbs) (h' : e'.Climbs)
    {between : List (Expr ⊕ BinaryOp)} (hleft : left'.inorder = left.inorder ++ between)
    (hright : .inr op :: right.inorder = between ++ .inr op' :: right'.inorder) : between = [] := by
  subst he he'
  obtain ⟨⟨-, hbelow⟩, -, hclimbsRight⟩ := climbs_binary.mp h
  obtain ⟨⟨hbelow', -⟩, hclimbsLeft', -⟩ := climbs_binary.mp h'
  cases between with
  | nil => rfl
  | cons x between =>
    rw [List.cons_append] at hright
    obtain ⟨rfl, htail⟩ := List.cons.inj hright
    have hmem : .inr op ∈ left'.inorder := by simp [hleft]
    have hmem' : .inr op' ∈ right.inorder := by simp [htail]
    obtain ⟨top', htop', hle⟩ := hclimbsLeft'.le_top hmem
    obtain ⟨top, htop, hle'⟩ := hclimbsRight.le_top hmem'
    -- Each of the two would bind at most as loosely as the other, and one of them less so.
    have hge : op.precedence ≤ top.precedence :=
      Nat.le_trans hle (Nat.le_trans (hbelow' top' htop') hle')
    exact absurd (hbelow top htop) (Nat.not_lt.mpr hge)

/-- Two trees that keep the order and are read from left to right in the same way are the same, up
    to places. -/
theorem erase_eq_of_inorder_eq {e e' : Expr} (h : e.Climbs) (h' : e'.Climbs)
    (hinorder : e.inorder = e'.inorder) : e.erase = e'.erase := by
  -- By induction over the first tree; in the second one the same operator must be at the top.
  induction e using induction_on_children generalizing e' with
  | step e ih =>
    cases htop : e.topOp? with
    | none =>
      rw [inorder_of_topOp_eq_none htop] at hinorder
      cases htop' : e'.topOp? with
      | none =>
        rw [inorder_of_topOp_eq_none htop'] at hinorder
        cases hinorder
        rfl
      | some op' =>
        -- One operand holds no operator.
        obtain ⟨span', left', right', rfl⟩ := eq_binary_of_topOp htop'
        have hmem : .inr op' ∈ (node span' (.binary left' op' right')).inorder := by simp
        simp [← hinorder] at hmem
    | some op =>
      obtain ⟨span, left, right, rfl⟩ := eq_binary_of_topOp htop
      have hmem : .inr op ∈ (node span (.binary left op right)).inorder := by simp
      obtain ⟨op', htop', -⟩ := h'.le_top (hinorder ▸ hmem)
      obtain ⟨span', left', right', rfl⟩ := eq_binary_of_topOp htop'
      -- One of the two left sides is the longer one, and what it has more is empty.
      have hsides : left.inorder = left'.inorder ∧ op = op' ∧ right.inorder = right'.inorder := by
        rw [inorder_binary, inorder_binary] at hinorder
        obtain ⟨between, hleft, hright⟩ | ⟨between, hleft, hright⟩ :=
          List.append_eq_append_iff.mp hinorder
        · have hnil := h.split_eq rfl rfl h' hleft hright
          simp_all
        · have hnil := h'.split_eq rfl rfl h hleft hright
          simp_all
      obtain ⟨hleft, rfl, hright⟩ := hsides
      obtain ⟨-, hclimbsLeft, hclimbsRight⟩ := climbs_binary.mp h
      obtain ⟨-, hclimbsLeft', hclimbsRight'⟩ := climbs_binary.mp h'
      have hl := ih left (by simp [children, shape, Shape.children]) hclimbsLeft hclimbsLeft' hleft
      have hr :=
        ih right (by simp [children, shape, Shape.children]) hclimbsRight hclimbsRight' hright
      simp [Shape.map, hl, hr]

end Expr

/-! ## Chains -/

/-- An operand without brackets and suffixes: unary operators in front of a token that is an operand
    on its own. -/
structure PlainOperand where
  signs : List (Token × UnaryOp)
  terminal : Token
  shape : Shape Expr
  signs_spell : ∀ sign ∈ signs, sign.1.Spells (.operator sign.2.symbol)
  terminal_shape : Rule.terminalShape? terminal = some shape

/-- An expression behind unary operators, each of which reaches from its token to the end of the
    expression. -/
def signed (signs : List (Token × UnaryOp)) (e : Expr) : Expr :=
  signs.foldr (fun sign e => .node (.between sign.1.span e.span) (.unary sign.2 e)) e

namespace PlainOperand

/-- The tokens of an operand. -/
def tokens (u : PlainOperand) : List Token := u.signs.map Prod.fst ++ [u.terminal]

/-- The tree of an operand: its unary operators, one below the other, and its terminal. -/
def tree (u : PlainOperand) : Expr := signed u.signs (.node u.terminal.span u.shape)

end PlainOperand

/-- A binary operator and the operand behind it. -/
structure Link where
  token : Token
  op : BinaryOp
  operand : PlainOperand
  spells : token.Spells (.operator op.symbol)

namespace Link

/-- The tokens of an operator and its operand. -/
def tokens (l : Link) : List Token := l.token :: l.operand.tokens

/-- The operator and the tree of the operand. -/
def reading (l : Link) : List (Expr ⊕ BinaryOp) := [.inr l.op, .inl l.operand.tree]

end Link

/-- The operators and operands of a row of links. -/
def readingOf (links : List Link) : List (Expr ⊕ BinaryOp) := links.flatMap Link.reading

/-- The tokens of a row of links. -/
def tokensOf (links : List Link) : List Token := links.flatMap Link.tokens

/-- The first link stands in front of the others. -/
@[simp] theorem tokensOf_cons (l : Link) (links : List Link) :
    tokensOf (l :: links) = l.token :: (l.operand.tokens ++ tokensOf links) := rfl

/-- The tokens of two rows of links follow each other as the rows do. -/
@[simp] theorem tokensOf_append (links links' : List Link) :
    tokensOf (links ++ links') = tokensOf links ++ tokensOf links' :=
  List.flatMap_append ..

/-- What a loop over the operators up to a precedence makes of a row of operands and operators, if
    it stops in front of the links `later`: all of them stand where they belong, and what comes next
    is too loose. -/
structure TakenUpTo (precedence : Precedence) (e : Expr) (reading : List (Expr ⊕ BinaryOp))
    (later : List Link) : Prop where
  inorder : e.inorder = reading
  climbs : e.Climbs
  top : ∀ op ∈ e.topOp?, op.precedence ≤ precedence
  next : ∀ l ∈ later.head?, precedence < l.op.precedence

/-! ## Operands -/

/-- Unary operators do not disturb the order below them. -/
theorem climbs_signed {signs : List (Token × UnaryOp)} {e : Expr} (h : e.Climbs) :
    (signed signs e).Climbs := by
  -- By induction on the operators; each of them has one operand.
  induction signs with
  | nil => exact h
  | cons sign signs ih => exact Expr.climbs_node.mpr ⟨trivial, List.forall_mem_singleton.mpr ih⟩

/-- An expression without sub-expressions is no binary operation. -/
theorem topOp?_of_children {e : Expr} (h : e.children = []) : e.topOp? = none := by
  cases htop : e.topOp? with
  | none => rfl
  | some op =>
    obtain ⟨span, left, right, rfl⟩ := Expr.eq_binary_of_topOp htop
    cases h

namespace PlainOperand

/-- An operand has no binary operator at its top. -/
theorem topOp?_tree (u : PlainOperand) : u.tree.topOp? = none := by
  unfold tree
  cases u.signs with
  | nil => exact topOp?_of_children (Rule.children_of_terminalShape u.terminal_shape)
  | cons sign signs => rfl

/-- An operand is read as one operand. -/
theorem inorder_tree (u : PlainOperand) : u.tree.inorder = [.inl u.tree] :=
  Expr.inorder_of_topOp_eq_none u.topOp?_tree

/-- There is no binary operator in an operand. -/
theorem climbs_tree (u : PlainOperand) : u.tree.Climbs := by
  have hchildren := Rule.children_of_terminalShape u.terminal_shape
  refine climbs_signed (Expr.climbs_node.mpr ⟨?_, by simp [hchildren]⟩)
  generalize u.shape = shape at hchildren
  cases shape with
  | binary left op right => cases hchildren
  | _ => trivial

/-- The first token of an operand leads no form. -/
theorem ledBy?_next (u : PlainOperand) (eof : EndMark) (rest : List Token)
    (full : Rule TokenStream Expr) :
    Rule.ledBy? full (eof.next (u.tokens ++ rest)).kind = none := by
  obtain ⟨signs, terminal, shape, hspell, hshape⟩ := u
  cases signs with
  | nil => exact (Rule.kind_of_terminalShape hshape).2.1
  | cons sign signs =>
    have hkind : sign.1.kind = .operator := (hspell sign (List.mem_cons_self ..)).1
    simp [tokens, hkind, Rule.ledBy?]

/-- An operand does not reach behind the end of the file. -/
theorem kind_ne (u : PlainOperand) : ∀ t ∈ u.tokens, t.kind ≠ .endOfFile := by
  intro t ht
  obtain ht | ht := List.mem_append.mp ht
  · obtain ⟨sign, hsign, rfl⟩ := List.mem_map.mp ht
    exact (u.signs_spell sign hsign).kind_ne
  · rw [List.mem_singleton] at ht
    intro hend
    have hshape := u.terminal_shape
    simp [Rule.terminalShape?, ← ht, hend] at hshape

open Rule in
/-- An operand is read with all its unary operators, each of which takes a level of nesting. -/
theorem reads_unary (u : PlainOperand) {n : Nat} (hn : u.signs.length ≤ n) {eof : EndMark}
    {rest : List Token} (hrest : Suffix.ofToken? (eof.next rest) = none) :
    (unary (.upTo n)).Reads eof (u.tokens ++ rest) u.tree rest := by
  obtain ⟨signs, t, shape, hspell, hshape⟩ := u
  show (unary (.upTo n)).Reads eof (signs.map Prod.fst ++ [t] ++ rest)
    (signed signs (.node t.span shape)) rest
  rw [List.append_assoc, List.singleton_append]
  -- By induction on the unary operators: each takes a level of nesting for its operand.
  induction signs generalizing n with
  | nil =>
    obtain ⟨hoperator, -, hbrace, hbracket, hparen⟩ :=
      @kind_of_terminalShape (Level.upTo n).full t shape hshape
    have hterminal :
        (Rule.terminal (Level.upTo n).full).Reads eof (t :: rest) (.node t.span shape) rest :=
      reads_terminal.mpr ⟨t, rest, rfl, .inl ⟨shape, hshape, rfl, rfl⟩⟩
    have hprimary : (primary (Level.upTo n).full).Reads eof (t :: rest) (.node t.span shape) rest :=
      reads_primary.mpr (.inr ⟨hbrace, hbracket, hparen, hterminal⟩)
    have hoperand := reads_operand.mpr ⟨_, rest, hprimary, reads_whileNext_stop hrest⟩
    exact Rule.reads_unary.mpr (.inr ⟨hoperator, hoperand⟩)
  | cons sign signs ih =>
    obtain ⟨m, rfl⟩ : ∃ m, n = m + 1 := ⟨n - 1, by simp at hn; omega⟩
    rw [List.forall_mem_cons] at hspell
    obtain ⟨⟨hkind, hsymbol⟩, hspell⟩ := hspell
    have hbelow := ih hspell (Nat.le_of_succ_le_succ hn)
    have hled := ledBy?_next ⟨signs, t, shape, hspell, hshape⟩ eof rest (Level.upTo m).full
    simp only [tokens, List.append_assoc, List.singleton_append] at hled
    have hoperand :
        (Level.upTo (m + 1)).operand.Reads eof (signs.map Prod.fst ++ t :: rest) _ rest :=
      Level.reads_deepen_operand.mpr (reads_unaryOperand.mpr (.inr ⟨hled, hbelow⟩))
    exact Rule.reads_unary.mpr (.inl ⟨sign.1, _, rfl, hkind, sign.2,
      UnaryOp.ofSymbol?_eq_some.mpr hsymbol, _, hoperand, rfl⟩)

end PlainOperand

/-! ## Chains of operators -/

section Links

variable {eof : EndMark} {rest : List Token}

/-- No suffix follows an operand in front of an operator or of the end of the chain. -/
theorem suffix_next_of_links (hrest : (eof.next rest).EndsExpr) (links : List Link) :
    Suffix.ofToken? (eof.next (tokensOf links ++ rest)) = none := by
  cases links with
  | nil => exact hrest.suffix
  | cons l links =>
    have hkind : l.token.kind = .operator := l.spells.1
    simp [Suffix.ofToken?, hkind]

/-- What follows an operand of a chain is no stray operator. -/
theorem isStrayOperator_next_of_links (hrest : (eof.next rest).EndsExpr) (links : List Link) :
    Rule.isStrayOperator (eof.next (tokensOf links ++ rest)) = false := by
  cases links with
  | nil => exact hrest.isStrayOperator
  | cons l links =>
    have hop : BinaryOp.ofSymbol? l.token.data = some l.op :=
      BinaryOp.ofSymbol?_eq_some.mpr l.spells.2
    simp [Rule.isStrayOperator, hop]

/-- A loop over the operators up to a precedence stops in front of a looser one. -/
theorem binaryOp?_next_of_links (hrest : (eof.next rest).EndsExpr) {precedence : Precedence}
    {links : List Link} (h : ∀ l ∈ links.head?, precedence < l.op.precedence) :
    Rule.binaryOp? precedence (eof.next (tokensOf links ++ rest)) = none := by
  cases links with
  | nil => exact hrest.binaryOp precedence
  | cons l links =>
    have hop : BinaryOp.ofSymbol? l.token.data = some l.op :=
      BinaryOp.ofSymbol?_eq_some.mpr l.spells.2
    have hlooser : precedence < l.op.precedence := h l rfl
    simp [Rule.binaryOp?, hop, hlooser]

/-- Every binary operator leaves room for a tighter level. -/
theorem precedence_pos (op : BinaryOp) : 0 < op.precedence := by
  cases op <;> decide

/-- A row of links whose operands have few enough unary operators. -/
def Short (links : List Link) : Prop := ∀ l ∈ links, l.operand.signs.length ≤ 2000

/-- A rule reads the operand of a link and what follows it up to the first operator that is as loose
    as that of the link. -/
def ReadsOperandOf (rule : Rule TokenStream Expr) (eof : EndMark) (rest : List Token) (l : Link)
    (links : List Link) : Prop :=
  ∃ taken later right, links = taken ++ later ∧
    rule.Reads eof (l.operand.tokens ++ (tokensOf links ++ rest)) right (tokensOf later ++ rest) ∧
    TakenUpTo (l.op.precedence - 1) right (.inl l.operand.tree :: readingOf taken) later

open Rule in
/-- The loop takes operators up to its precedence, each with a right operand that ends in front of
    an operator that is at least as loose; so the operator at the top of what was read never binds
    more loosely than the next one. -/
theorem Rule.reads_loop_of_links {g : Level TokenStream} {precedence : Precedence} (start : Span)
    (hrest : (eof.next rest).EndsExpr)
    (hright : ∀ {l links}, Short (l :: links) → l.op.precedence ≤ precedence →
      ReadsOperandOf (g.expr (l.op.precedence - 1)) eof rest l links)
    {links : List Link} (hshort : Short links) {left : Expr} (hclimbs : left.Climbs)
    (htop : ∀ op ∈ left.topOp?, op.precedence ≤ precedence)
    (hnext : ∀ l ∈ links.head?, ∀ op ∈ left.topOp?, op.precedence ≤ l.op.precedence) :
    ∃ taken later e, links = taken ++ later ∧
      (whileNext (binaryOp? precedence) (fun _ op left => do
        let right ← g.expr (op.precedence - 1)
        return .node (.between start right.span) (.binary left op right)) left).Reads eof
          (tokensOf links ++ rest) e (tokensOf later ++ rest) ∧
      TakenUpTo precedence e (left.inorder ++ readingOf taken) later := by
  -- By induction on the links that are left; a round takes one link and those of its right operand.
  induction hn : links.length using Nat.strongRecOn generalizing links left with
  | ind n ih =>
    by_cases hstop : ∀ l ∈ links.head?, precedence < l.op.precedence
    · refine ⟨[], links, left, rfl, ?_, ?_⟩
      · exact reads_whileNext_stop (binaryOp?_next_of_links hrest hstop)
      · exact ⟨by simp [readingOf], hclimbs, htop, hstop⟩
    · -- The next operator is tight enough.
      cases links with
      | nil => simp at hstop
      | cons l links =>
        have hle : l.op.precedence ≤ precedence := by simpa using hstop
        have hselect : binaryOp? precedence l.token = some l.op :=
          binaryOp?_eq_some.mpr ⟨l.spells.1, l.spells.2, hle⟩
        obtain ⟨taken, later, right, rfl, hread, hright'⟩ := hright hshort hle
        have hbelow : ∀ op ∈ right.topOp?, op.precedence < l.op.precedence := by
          intro op hop
          have hpos := precedence_pos l.op
          exact Nat.lt_of_le_of_lt (hright'.top op hop) (Nat.sub_one_lt_of_lt hpos)
        have hafter : (Expr.node (.between start right.span) (.binary left l.op right)).Climbs :=
          Expr.climbs_binary.mpr ⟨⟨hnext l rfl, hbelow⟩, hclimbs, hright'.climbs⟩
        have hshorter : later.length < n := by
          rw [← hn, List.length_cons, List.length_append]
          omega
        -- The right operand has stopped in front of an operator that is at least as loose as its
        -- own.
        have hnextAfter : ∀ l' ∈ later.head?, l.op.precedence ≤ l'.op.precedence :=
          fun l' hl' => Nat.le_of_pred_lt (hright'.next l' hl')
        obtain ⟨taken', later', e, rfl, hloop, htaken⟩ := ih later.length hshorter
          (fun l' hl' => hshort l' (by simp [hl'])) hafter (by simpa using hle)
          (by simpa using hnextAfter) rfl
        refine ⟨l :: (taken ++ taken'), later', e, by simp, ?_, ?_⟩
        · rw [tokensOf_cons, List.cons_append, List.append_assoc]
          refine reads_whileNext.mpr (.inr ⟨l.token, _, l.op, _, _, rfl, hselect, ?_, hloop⟩)
          simp only [bind_pure_comp, reads_map]
          exact ⟨right, hread, rfl⟩
        · obtain ⟨hinorder, hclimbs', htop', hnext'⟩ := htaken
          refine ⟨?_, hclimbs', htop', hnext'⟩
          simp [hinorder, hright'.inorder, readingOf, Link.reading]

/-- An expression of a precedence takes the operators of a chain up to the first one that is looser,
    and leaves the rest.  A right operand takes a level of nesting, but also lowers the
    precedence. -/
theorem Level.reads_expr_of_links (hrest : (eof.next rest).EndsExpr) (precedence : Nat) {n : Nat}
    (hn : 2001 + precedence ≤ n) {first : PlainOperand} (hfirst : first.signs.length ≤ 2000)
    {links : List Link} (hshort : Short links) :
    ∃ taken later e, links = taken ++ later ∧
      ((upTo n).expr precedence).Reads eof (first.tokens ++ (tokensOf links ++ rest)) e
        (tokensOf later ++ rest) ∧
      TakenUpTo precedence e (.inl first.tree :: readingOf taken) later := by
  -- By induction on the precedence: right operands are read at a lower one.
  induction precedence using Nat.strongRecOn generalizing n first links with
  | ind precedence ih =>
    obtain ⟨m, rfl⟩ : ∃ m, n = m + 1 := ⟨n - 1, by omega⟩
    have hright : ∀ {l links}, Short (l :: links) → l.op.precedence ≤ precedence →
        ReadsOperandOf ((upTo m).expr (l.op.precedence - 1)) eof rest l links := by
      intro l links hshort hle
      have hlower : l.op.precedence - 1 < precedence :=
        Nat.lt_of_lt_of_le (Nat.sub_one_lt_of_lt (precedence_pos l.op)) hle
      have hlevels : ∀ q < precedence, 2001 + q ≤ m := by
        intro q hq
        omega
      obtain ⟨hl, hlinks⟩ := List.forall_mem_cons.mp hshort
      exact ih _ hlower (hlevels _ hlower) hl hlinks
    have hleft := first.reads_unary (n := m) (by omega) (suffix_next_of_links hrest links)
    obtain ⟨taken, later, e, rfl, hloop, htaken⟩ :=
      Rule.reads_loop_of_links (eof.next (first.tokens ++ (tokensOf links ++ rest))).span hrest
        hright
        hshort first.climbs_tree (by simp [first.topOp?_tree]) (by simp [first.topOp?_tree])
    rw [first.inorder_tree] at htaken
    refine ⟨taken, later, e, rfl, ?_, htaken⟩
    refine reads_deepen_expr.mpr (Rule.reads_expression.mpr (.inr ⟨?_, first.tree, _, hleft, ?_⟩))
    · exact first.ledBy?_next eof _ _
    · exact Rule.reads_binaryChain.mpr ⟨hloop, isStrayOperator_next_of_links hrest later⟩

end Links

/-- A chain of operands and binary operators of any length is a program.  Its tree, read from left
    to right, is the chain, with each operand one row of unary operators over its terminal; every
    binary operator stands where its precedence puts it, and up to places there is no other such
    tree. -/
theorem parse_chain (first : PlainOperand) (links : List Link) (eof : Token)
    (hfirst : first.signs.length ≤ 2000) (hlinks : ∀ l ∈ links, l.operand.signs.length ≤ 2000)
    (heof : eof.kind = .endOfFile) :
    ∃ root, parse (first.tokens ++ tokensOf links ++ [eof]) = .ok root ∧
      root.inorder = .inl first.tree :: readingOf links ∧ root.Climbs ∧
      ∀ other : Expr, other.inorder = .inl first.tree :: readingOf links → other.Climbs →
        other.erase = root.erase := by
  have hkinds : ∀ t ∈ first.tokens ++ tokensOf links, t.kind ≠ .endOfFile := by
    rw [List.forall_mem_append]
    refine ⟨first.kind_ne, ?_⟩
    intro t ht
    obtain ⟨l, -, ht⟩ := List.mem_flatMap.mp ht
    obtain rfl | ht := List.mem_cons.mp ht
    · exact l.spells.kind_ne
    · exact l.operand.kind_ne t ht
  -- Behind the chain stands the end mark, so nothing but a looser operator could stop the loop.
  have hend : ((EndMark.ofTokens (first.tokens ++ tokensOf links ++ [eof])).next []).EndsExpr :=
    .of_kind (EndMark.kind_val _) rfl
  obtain ⟨taken, later, root, hsplit, hread, htaken⟩ :=
    Level.reads_expr_of_links hend Precedence.loosest (n := maxNesting) (by decide) hfirst hlinks
  -- No operator is looser than the loosest precedence, so the loop has taken all links.
  have hnone : later = [] := by
    cases later with
    | nil => rfl
    | cons l later =>
      have hlooser : Precedence.loosest < l.op.precedence := htaken.next l rfl
      generalize l.op = op at hlooser
      cases op <;> exact absurd hlooser (by decide)
  rw [hnone, List.append_nil] at hsplit
  subst hsplit
  rw [hnone, List.append_nil] at hread
  refine ⟨root, parse_eq_ok_iff.mpr ?_, htaken.inorder, htaken.climbs, ?_⟩
  · rw [tokensAhead_concat heof hkinds]
    exact hread
  · intro other hother hclimbs
    exact Expr.erase_eq_of_inorder_eq hclimbs htaken.climbs (hother.trans htaken.inorder.symm)

namespace SampleChain

/-- A name with unary operators in front of it. -/
def operand (signs : List UnaryOp) (name : String) : PlainOperand where
  signs := signs.map fun op => ((Symbol.operator op.symbol).token, op)
  terminal := (Symbol.identifier name).token
  shape := .var name name
  signs_spell := by
    rw [List.forall_mem_map]
    exact fun op _ => ⟨rfl, rfl⟩
  terminal_shape := rfl

/-- An operator in front of a name. -/
def link (op : BinaryOp) (signs : List UnaryOp) (name : String) : Link :=
  ⟨(Symbol.operator op.symbol).token, op, operand signs name, ⟨rfl, rfl⟩⟩

/-- `-a + b * !~c - d == e && f` behind its first operand. -/
def links : List Link :=
  [link .plus [] "b", link .mult [.not, .bitwiseNot] "c", link .minus [] "d", link .equal [] "e",
    link .and [] "f"]

end SampleChain

/-- A chain with every kind of link: as tight, tighter, looser, and with unary operators. -/
theorem parse_chain_sample :
    (SampleChain.operand [.minus] "a").signs.length ≤ 2000 ∧
      (∀ l ∈ SampleChain.links, l.operand.signs.length ≤ 2000) ∧
      ∃ root, parse ((SampleChain.operand [.minus] "a").tokens ++ tokensOf SampleChain.links ++
          [sampleEnd]) = .ok root ∧
        root.inorder = .inl (SampleChain.operand [.minus] "a").tree :: readingOf SampleChain.links ∧
        root.Climbs := by
  have hfirst : (SampleChain.operand [.minus] "a").signs.length ≤ 2000 := by decide
  have hlinks : ∀ l ∈ SampleChain.links, l.operand.signs.length ≤ 2000 := by
    simp [SampleChain.links, SampleChain.link, SampleChain.operand]
  obtain ⟨root, hparse, hinorder, hclimbs, -⟩ :=
    parse_chain (SampleChain.operand [.minus] "a") SampleChain.links sampleEnd hfirst hlinks rfl
  exact ⟨hfirst, hlinks, root, hparse, hinorder, hclimbs⟩

end JsonnetSyntax
