import Mathlib.Data.List.Chain
import JsonnetSyntax.Proofs.Grammar.Placement
import JsonnetSyntax.Proofs.Lexical.Locations

/-!
# Ranges nest

The tokens of a source stand in order, and every node of its tree is placed on some of them.  So the
span of a node is never empty, it starts and ends where tokens do, the spans of its sub-expressions
lie inside it, and they follow each other in the order in which the sub-expressions are listed.

## Key results

- `Covers.encloses`: the tokens of a span lie inside the span
- `PlacedIn.pairwise`: expressions on disjoint rows of tokens follow each other
- `ranges_nest`: the spans of all nodes of an accepted source
-/

namespace JsonnetSyntax

/-- Tokens that are not empty and follow each other. -/
structure Ordered (tokens : List Token) : Prop where
  start_lt_stop : ∀ t ∈ tokens, t.span.start < t.span.stop
  pairwise : tokens.Pairwise fun t u => t.span.stop ≤ u.span.start

/-- The positions of `inner` lie between those of `outer`. -/
def Span.Encloses (outer inner : Span) : Prop :=
  outer.start ≤ inner.start ∧ inner.stop ≤ outer.stop

section Ordered

variable {Q : List Token → List Token → Expr → Prop} {own tokens behind : List Token} {span : Span}
  {e : Expr} {es : List Expr}

/-- Tokens in a row of ordered tokens are ordered. -/
theorem Ordered.of_part (h : Ordered tokens) (hpart : own <:+: tokens) : Ordered own where
  start_lt_stop t ht := h.start_lt_stop t (hpart.subset ht)
  pairwise := h.pairwise.sublist hpart.sublist

/-- A span starts with a token and ends with a token. -/
theorem Covers.exists_mem (h : Covers own span) :
    ∃ first ∈ own, ∃ last ∈ own, span = .between first.span last.span := by
  obtain ⟨first, last, hfirst, hlast, -, hspan⟩ := h
  exact ⟨first, List.mem_of_mem_head? hfirst, last, List.mem_of_getLast? hlast, hspan⟩

/-- The tokens of a span lie inside the span. -/
theorem Covers.encloses (h : Covers own span) (hown : Ordered own) {t : Token} (ht : t ∈ own) :
    span.Encloses t.span := by
  obtain ⟨first, last, hfirst, hlast, -, rfl⟩ := h
  constructor
  · obtain ⟨rest, rfl⟩ := List.head?_eq_some_iff.mp hfirst
    obtain rfl | hrest := List.mem_cons.mp ht
    · exact le_rfl
    · -- Any other token starts behind the end of the first.
      have hbehind := (List.pairwise_cons.mp hown.pairwise).1 t hrest
      exact (hown.start_lt_stop first (List.mem_cons_self ..)).le.trans hbehind
  · obtain ⟨front, rfl⟩ := List.getLast?_eq_some_iff.mp hlast
    obtain hfront | hlast := List.mem_append.mp ht
    · have hbefore := (List.pairwise_append.mp hown.pairwise).2.2 t hfront last (by simp)
      exact hbefore.trans (hown.start_lt_stop last (by simp)).le
    · rw [List.mem_singleton.mp hlast]
      exact le_rfl

/-- A span that covers ordered tokens is not empty: its first token lies inside it. -/
theorem Covers.start_lt_stop (h : Covers own span) (hown : Ordered own) :
    span.start < span.stop := by
  obtain ⟨first, hfirst, -⟩ := h.exists_mem
  have hinside := h.encloses hown hfirst
  exact hinside.1.trans_lt ((hown.start_lt_stop first hfirst).trans_le hinside.2)

/-- An expression that owns some of the tokens of a span lies inside the span. -/
theorem Covers.encloses_of_placed (h : Covers tokens span) (htokens : Ordered tokens)
    (hpart : own <:+: tokens) (he : Placed Q own behind e) : span.Encloses e.span := by
  obtain ⟨first, hfirst, last, hlast, hspan⟩ := he.covers.exists_mem
  rw [hspan]
  exact ⟨(h.encloses htokens (hpart.subset hfirst)).1, (h.encloses htokens (hpart.subset hlast)).2⟩

/-- Expressions on disjoint rows of tokens follow each other. -/
theorem PlacedIn.pairwise : ∀ {tokens es}, PlacedIn Q tokens behind es → Ordered tokens →
    es.Pairwise fun c d => c.span.stop ≤ d.span.start
  | _, _, .nil .., _ => .nil
  | _, _, @PlacedIn.cons _ gap own rest _ c es first others, h => by
    have hrest : Ordered rest := h.of_part (List.suffix_append ..).isInfix
    refine .cons (fun d hd => ?_) (others.pairwise hrest)
    -- The last token of the first expression stands in front of the first token of the later one.
    obtain ⟨front, own', back, rfl, hlater⟩ := others.exists_of_mem hd
    obtain ⟨_, _, t, ht, hspan⟩ := first.covers.exists_mem
    obtain ⟨u, hu, _, _, hspan'⟩ := hlater.covers.exists_mem
    rw [hspan, hspan']
    have hbefore := (List.pairwise_append.mp h.pairwise).2.2
    exact hbefore t (List.mem_append_right _ ht) u (by simp [hu])

end Ordered

/-- A source text that has a tree has tokens. -/
theorem exists_tokens_of_parseSource {file source : String} {root : Expr}
    (h : parseSource file source = .ok root) :
    ∃ tokens, lex file source = .ok tokens ∧ parse tokens = .ok root := by
  cases hlex : lex file source with
  | error e =>
    rw [parseSource, hlex] at h
    cases h
  | ok tokens =>
    rw [parseSource, hlex] at h
    exact ⟨tokens, rfl, h⟩

/-- In the tree of a source, the span of every node is a stretch of the file that is not empty and
    reaches from the start of a token to the end of a token.  The spans of its sub-expressions lie
    inside it, and none of them ends behind the start of the next. -/
theorem ranges_nest {file source : String} {root : Expr} (h : parseSource file source = .ok root) :
    ∃ tokens, lex file source = .ok tokens ∧ ∀ n : Expr, n.IsWithin root →
      n.span.file = file ∧ n.span.start < n.span.stop ∧
      (∃ t ∈ tokens, n.span.start = t.span.start) ∧ (∃ t ∈ tokens, n.span.stop = t.span.stop) ∧
      (∀ c ∈ n.children, n.span.start ≤ c.span.start ∧ c.span.stop ≤ n.span.stop) ∧
      n.children.IsChain fun c d => c.span.stop ≤ d.span.start := by
  obtain ⟨tokens, hlex, hparse⟩ := exists_tokens_of_parseSource h
  refine ⟨tokens, hlex, fun n hn => ?_⟩
  have hexact := exact_of_lex hlex
  obtain ⟨front, eof, rfl, hplain, heof, -⟩ := exists_concat_of_lex hlex
  obtain ⟨before, own, behind, htokens, hplaced⟩ := exists_placed_of_parse hparse hn
  rw [tokensAhead_concat heof fun t ht => (hplain t ht).kind] at htokens
  -- The node owns a row of the tokens in front of the end mark, which are in order.
  have hpart : own <:+: front := ⟨before, behind, htokens.symm⟩
  have hfront : Ordered front :=
    ⟨fun t ht => hexact.start_lt_stop (List.mem_append_left _ ht) (hplain t ht).sourceText,
      hexact.pairwise.sublist (List.sublist_append_left ..)⟩
  have hordered := hfront.of_part hpart
  have hmem : ∀ t ∈ own, t ∈ front ++ [eof] := fun t ht => List.mem_append_left _ (hpart.subset ht)
  obtain ⟨first, hfirst, last, hlast, hspan⟩ := hplaced.covers.exists_mem
  refine ⟨?_, hplaced.covers.start_lt_stop hordered, ⟨first, hmem first hfirst, by rw [hspan]; rfl⟩,
    ⟨last, hmem last hlast, by rw [hspan]; rfl⟩, fun c hc =>
      ?_, (hplaced.children.pairwise hordered).isChain⟩
  · -- The file of a node is that of its first token, and all tokens are in the source's file.
    obtain ⟨i, hi⟩ := List.mem_iff_getElem?.mp (hmem first hfirst)
    rw [hspan, Span.between_file, hexact i first hi]
    rfl
  · obtain ⟨left, own', right, hown, hchild⟩ := hplaced.children.exists_of_mem hc
    exact hplaced.covers.encloses_of_placed hordered ⟨left, right, hown.symm⟩ hchild

/-- A call with an argument in parentheses, inside a binary operation. -/
theorem ranges_nest_sample :
    ∃ root, parseSource "sample" "a + f((b),\n  c)" = .ok root ∧
      root.span.start < root.span.stop := by
  have hok : (parseSource "sample" "a + f((b),\n  c)").isOk = true := by decide +kernel
  cases h : parseSource "sample" "a + f((b),\n  c)" with
  | error e => simp [h, Except.isOk, Except.toBool] at hok
  | ok root =>
    obtain ⟨tokens, -, hnodes⟩ := ranges_nest h
    exact ⟨root, rfl, (hnodes root (.refl root)).2.1⟩

end JsonnetSyntax
