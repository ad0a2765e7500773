import Mathlib.Data.List.Induction
import Mathlib.Data.Prod.Lex
import JsonnetSyntax.Proofs.Lexical.Lossless

/-!
# Where tokens stand

Positions are computed while pieces are put together, one piece after the other.  `Position.ofText`
says what they mean without any such computation: the line is counted in line feeds of the text in
front, the column in characters behind the last of them.  Every token of a source stands where the
text of the earlier tokens and of its own fodder leads to, and ends where its own text leads to.

## Key results

- `Position.origin_after`: reading a text leads to the place behind it
- `Assembly.Exact.add`: a piece leaves every token at its place and reaches the place behind its
  text
- `Piece.isPlain_of_first`: no piece is empty, and none marks the end of the file
- `span_of_lex`: the span of every token of a source
-/

namespace JsonnetSyntax

/-! ## Places of a text -/

namespace Position

/-- The place behind a text: its line feeds, and the characters behind the last of them, both
    counted from 1. -/
def ofText (text : List Char) : Position :=
  ⟨1 + text.count '\n', 1 + (text.reverse.takeWhile (· != '\n')).length⟩

/-- One more character moves the place behind a text as it moves any place. -/
theorem ofText_concat (text : List Char) (c : Char) :
    ofText (text ++ [c]) = (ofText text).advance c := by
  unfold advance
  by_cases hc : c = '\n'
  · simp [ofText, hc, Nat.add_assoc]
  · simp [ofText, hc, Nat.add_comm]

/-- Reading a text leads to the place behind it. -/
theorem origin_after (text : List Char) : origin.after text = ofText text := by
  induction text using List.reverseRecOn with
  | nil => rfl
  | append_singleton text c ih => rw [after_append, ih, ofText_concat, after_cons, after_nil]

/-- Reading on from the place behind a text leads to the place behind the longer text. -/
theorem ofText_after (front text : List Char) :
    (ofText front).after text = ofText (front ++ text) := by
  rw [← origin_after, ← origin_after, after_append]

/-! ## The order of places -/

/-- Places are ordered by line, then by column. -/
-- Two places at the same line and column are the same.
instance : LinearOrder Position :=
  LinearOrder.lift' (fun p => toLex (p.line, p.column)) fun p q h => by
    obtain ⟨hline, hcolumn⟩ := Prod.mk.inj (toLex.injective h)
    cases p
    cases q
    cases hline
    cases hcolumn
    rfl

/-- One place is before another if it is on an earlier line, or on the same line and further
left. -/
theorem lt_iff {p q : Position} :
    p < q ↔ p.line < q.line ∨ p.line = q.line ∧ p.column < q.column :=
  Prod.Lex.toLex_lt_toLex

/-- Every character leads to a later place. -/
theorem lt_advance (p : Position) (c : Char) : p < p.advance c := by
  rw [lt_iff, advance]
  split <;> simp

/-- Reading never leads back. -/
theorem le_after (p : Position) (text : List Char) : p ≤ p.after text := by
  -- By induction on the text: each character leads to a later place.
  induction text generalizing p with
  | nil => exact le_refl p
  | cons c text ih => exact (lt_advance p c).le.trans (ih (p.advance c))

/-- A text that is not empty leads to a later place. -/
theorem lt_after {text : List Char} (h : text ≠ []) (p : Position) : p < p.after text := by
  cases text with
  | nil => exact absurd rfl h
  | cons c text => exact (lt_advance p c).trans_le (le_after _ text)

/-- The place behind a text is not before the place behind a part in front of it. -/
theorem ofText_le_append (front text : List Char) : ofText front ≤ ofText (front ++ text) := by
  rw [← ofText_after]
  exact le_after _ text

/-- The place behind a longer text is a later place. -/
theorem ofText_lt_append (front : List Char) {text : List Char} (h : text ≠ []) :
    ofText front < ofText (front ++ text) := by
  rw [← ofText_after]
  exact lt_after h _

end Position

/-! ## Tokens at their places -/

namespace Token

/-- The text of the fodder in front of a token. -/
def fodderText (t : Token) : String := String.join (t.fodder.map Fodder.data)

/-- What a token covers is its fodder and its own text. -/
theorem fullText_eq (t : Token) : t.fullText = t.fodderText ++ t.sourceText := rfl

/-- The span of a token that stands behind a text. -/
def spanBehind (file : String) (front : String) (t : Token) : Span :=
  ⟨file, .ofText (front ++ t.fodderText).toList,
    .ofText (front ++ t.fodderText ++ t.sourceText).toList⟩

end Token

/-- The text of two rows of tokens is the text of the first and then of the second. -/
@[simp] theorem reconstruct_append (first second : List Token) :
    reconstruct (first ++ second) = reconstruct first ++ reconstruct second := by
  simp [reconstruct]

/-- The text of one token is what the token covers. -/
theorem reconstruct_singleton (t : Token) : reconstruct [t] = t.fullText := by
  simp [reconstruct]

/-- The text of a token and others is what the token covers and their text. -/
theorem reconstruct_cons (t : Token) (tokens : List Token) :
    reconstruct (t :: tokens) = t.fullText ++ reconstruct tokens := by
  rw [← List.singleton_append, reconstruct_append, reconstruct_singleton]

/-- Every token stands behind the text of the tokens in front of it. -/
def TokensExact (file : String) (tokens : List Token) : Prop :=
  ∀ (i : Nat) (t : Token), tokens[i]? = some t →
    t.span = t.spanBehind file (reconstruct (tokens.take i))

/-- A token behind exact tokens keeps them exact if it stands behind their text. -/
theorem TokensExact.concat {file : String} {tokens : List Token} {t : Token}
    (h : TokensExact file tokens) (ht : t.span = t.spanBehind file (reconstruct tokens)) :
    TokensExact file (tokens ++ [t]) := by
  intro i u hu
  by_cases hi : i < tokens.length
  · rw [List.getElem?_append_left hi] at hu
    rw [List.take_append_of_le_length (Nat.le_of_lt hi)]
    exact h i u hu
  · -- The only index left is that of the new token.
    obtain ⟨hlt, rfl⟩ := List.getElem?_eq_some_iff.mp hu
    have hlast : i = tokens.length := by
      rw [List.length_append, List.length_singleton] at hlt
      omega
    subst hlast
    simpa using ht

namespace Assembly

/-- The complete tokens stand at their places, and the place reached is the one behind the text so
    far. -/
structure Exact (file : String) (a : Assembly) : Prop where
  tokens : TokensExact file a.tokens.toList
  position : a.position = .ofText a.text.toList

/-- Before the first piece there is no token, and the place reached is the first one. -/
theorem Exact.empty (file : String) : Exact file {} where
  tokens := by
    intro i t ht
    simp at ht
  position := rfl

/-- A pushed token that covers its own text. -/
theorem Exact.push {file : String} {a : Assembly} (h : a.Exact file) (content : Lexeme)
    (block : Option TextBlock) :
    (a.push file content block (content.sourceText block)).Exact file := by
  have htext := a.text_push file content block (content.sourceText block)
  have hstop : a.position.after (content.sourceText block).toList =
      .ofText (a.text ++ content.sourceText block).toList := by
    rw [h.position, Position.ofText_after, String.toList_append]
  constructor
  · -- The text so far is that of the tokens and of the fodder that the new token takes.
    have hspan : (⟨file, a.position, a.position.after (content.sourceText block).toList⟩ : Span) =
        ⟨file, .ofText a.text.toList, .ofText (a.text ++ content.sourceText block).toList⟩ := by
      rw [hstop, h.position]
    simp only [Assembly.push, Array.toList_push]
    exact h.tokens.concat hspan
  · rw [htext]
    exact hstop

/-- A piece leaves every token at its place and reaches the place behind its text. -/
theorem Exact.add {file : String} {a : Assembly} (h : a.Exact file) (piece : Piece) :
    (a.add file piece).Exact file := by
  -- A lexeme becomes a token that takes the fodder in front of it; fodder waits for the next token.
  cases piece with
  | lexeme content block => exact h.push content block
  | fodder element =>
    refine ⟨h.tokens, ?_⟩
    rw [text_add, String.toList_append, ← Position.ofText_after, ← h.position]
    rfl

/-- A row of pieces leaves every token at its place. -/
theorem Exact.foldl_add {file : String} {a : Assembly} (h : a.Exact file) (pieces : List Piece) :
    (pieces.foldl (Assembly.add file) a).Exact file := by
  -- By induction on the pieces; the assembly is exact in front of each of them.
  induction pieces generalizing a with
  | nil => exact h
  | cons piece pieces ih => exact ih (h.add piece)

end Assembly

/-- The tokens of a row of pieces stand at their places. -/
theorem exact_assemble (file : String) (pieces : List Piece) :
    TokensExact file (assemble file pieces) :=
  (((Assembly.Exact.empty file).foldl_add pieces).push ⟨.endOfFile, ""⟩ none).tokens

/-! ## What tokens are made of -/

/-- A token of a text: it is not empty, and it does not mark the end of the file. -/
structure Token.IsPlain (t : Token) : Prop where
  kind : t.kind ≠ .endOfFile
  sourceText : t.sourceText ≠ ""

namespace Piece

/-- A piece of a text: it is not empty, and it does not mark the end of the file. -/
structure IsPlain (piece : Piece) : Prop where
  kind : ∀ {content block}, piece = .lexeme content block → content.kind ≠ .endOfFile
  text : piece.text ≠ ""

/-- A piece that is made of a kind has that kind. -/
theorem kind_ofLexeme {kind : TokenKind} (hkind : kind ≠ .endOfFile) {taken : List Char}
    {content : Lexeme} {block : Option TextBlock}
    (h : ofLexeme kind taken = .lexeme content block) :
    content.kind ≠ .endOfFile := by
  cases h
  exact hkind

/-- No scanner for symbols makes an end mark. -/
theorem kind_of_firstSymbolic {c : Char} {text : List Char} {cut : Piece × List Char}
    (h : firstSymbolic c text = .ok cut) {content : Lexeme} {block : Option TextBlock}
    (hpiece : cut.1 = .lexeme content block) : content.kind ≠ .endOfFile := by
  unfold firstSymbolic firstBlockComment firstBlock at h
  -- Comments become fodder, blocks become strings, and the rest are operators.
  split at h
  · cases h
    cases hpiece
  · cases h
    cases hpiece
  · split at h
    · cases h
    · cases h
      cases hpiece
  · split at h
    · cases h
    · cases h
      cases hpiece
      simp
  · cases h
    exact kind_ofLexeme (by simp) hpiece

/-- No scanner makes an end mark. -/
theorem kind_of_first {c : Char} {text : List Char} {cut : Piece × List Char}
    (h : first c text = .ok cut) {content : Lexeme} {block : Option TextBlock}
    (hpiece : cut.1 = .lexeme content block) : content.kind ≠ .endOfFile := by
  unfold first firstNumber firstQuoted at h
  -- One case for each scanner, in the order of `first`.
  split at h
  · cases h
    cases hpiece
  split at h
  · cases h
    exact kind_ofLexeme (by simp) hpiece
  split at h
  · cases h
    unfold firstNegation at hpiece
    split at hpiece <;> exact kind_ofLexeme (by simp) hpiece
  split at h
  · cases h
    exact kind_ofLexeme (by simp) hpiece
  split at h
  · split at h
    · cases h
    · cases h
      exact kind_ofLexeme (by simp) hpiece
  split at h
  · split at h
    · cases h
    · cases h
      exact kind_ofLexeme (by simp) hpiece
  split at h
  · split at h
    · cases h
    · cases h
      exact kind_ofLexeme (by simp) hpiece
  split at h
  · cases h
    refine kind_ofLexeme ?_ hpiece
    unfold TokenKind.ofWord
    split <;> simp
  split at h
  · exact kind_of_firstSymbolic h hpiece
  · cases h

/-- The piece at the front of a text is plain. -/
theorem isPlain_of_first {c : Char} {text : List Char} {cut : Piece × List Char}
    (h : first c text = .ok cut) : cut.1.IsPlain where
  kind := kind_of_first h
  text := by
    obtain ⟨taken, htext, -⟩ := first_splits h
    intro hempty
    simp [hempty] at htext

end Piece

/-- All pieces of a text are plain. -/
theorem Cut.isPlain_ofTextFrom (seen : Array Piece) (text : List Char)
    (hseen : ∀ piece ∈ seen.toList, piece.IsPlain) :
    ∀ piece ∈ (ofTextFrom seen text).pieces, piece.IsPlain := by
  -- By induction on the scanning: the pieces so far are plain, and the next one is.
  fun_induction ofTextFrom seen text with
  | case1 seen => exact hseen
  | case2 seen c text interruption hfirst => exact hseen
  | case3 seen c text cut hfirst ih =>
    apply ih
    intro piece hpiece
    rw [Array.toList_push, List.mem_append, List.mem_singleton] at hpiece
    obtain hold | rfl := hpiece
    · exact hseen piece hold
    · exact Piece.isPlain_of_first hfirst

/-- Plain pieces make plain tokens. -/
theorem Assembly.isPlain_foldl_add (file : String) (pieces : List Piece) (a : Assembly)
    (ha : ∀ t ∈ a.tokens.toList, t.IsPlain) (hpieces : ∀ piece ∈ pieces, piece.IsPlain) :
    ∀ t ∈ (pieces.foldl (Assembly.add file) a).tokens.toList, t.IsPlain := by
  -- By induction on the pieces; fodder makes no token.
  induction pieces generalizing a with
  | nil => exact ha
  | cons piece pieces ih =>
    rw [List.forall_mem_cons] at hpieces
    refine ih (a.add file piece) ?_ hpieces.2
    cases piece with
    | fodder element => exact ha
    | lexeme content block =>
      intro t ht
      simp only [Assembly.add, Assembly.push, Array.toList_push, List.mem_append,
        List.mem_singleton] at ht
      obtain hold | rfl := ht
      · exact ha t hold
      · exact ⟨hpieces.1.kind rfl, hpieces.1.text⟩

/-! ## The tokens of a source -/

/-- The tokens of a source are plain tokens and the mark of its end, which has no text. -/
theorem exists_concat_of_lex {file source : String} {tokens : List Token}
    (h : lex file source = .ok tokens) :
    ∃ front eof, tokens = front ++ [eof] ∧ (∀ t ∈ front, t.IsPlain) ∧ eof.kind = .endOfFile ∧
      eof.sourceText = "" := by
  simp only [lex] at h
  split at h
  · cases h
    refine ⟨_, _, Array.toList_push .., ?_, rfl, rfl⟩
    exact Assembly.isPlain_foldl_add file _ {} (by simp)
      (Cut.isPlain_ofTextFrom #[] source.toList (by simp))
  · cases h

/-- A token ends at or before the place where a later one starts. -/
theorem TokensExact.pairwise {file : String} {tokens : List Token} (h : TokensExact file tokens) :
    tokens.Pairwise fun t u => t.span.stop ≤ u.span.start := by
  rw [List.pairwise_iff_getElem]
  intro i j hi hj hij
  rw [h i _ (List.getElem?_eq_getElem hi), h j _ (List.getElem?_eq_getElem hj)]
  -- The first token is part of the text in front of the second one.
  have hfront : tokens.take (i + 1) <+: tokens.take j := List.take_prefix_take_left hij
  obtain ⟨between, hbetween⟩ := hfront
  rw [List.take_succ_eq_append_getElem hi] at hbetween
  simp only [Token.spanBehind, ← hbetween, reconstruct_append, reconstruct_singleton,
    Token.fullText_eq, String.toList_append, List.append_assoc]
  have hle := Position.ofText_le_append
    ((reconstruct (tokens.take i)).toList ++
      (tokens[i].fodderText.toList ++ tokens[i].sourceText.toList))
    ((reconstruct between).toList ++ tokens[j].fodderText.toList)
  simpa only [List.append_assoc] using hle

/-- A token that is not empty ends behind its start. -/
theorem TokensExact.start_lt_stop {file : String} {tokens : List Token}
    (h : TokensExact file tokens) {t : Token} (ht : t ∈ tokens) (htext : t.sourceText ≠ "") :
    t.span.start < t.span.stop := by
  obtain ⟨i, hi, rfl⟩ := List.mem_iff_getElem.mp ht
  rw [h i _ (List.getElem?_eq_getElem hi)]
  simp only [Token.spanBehind, String.toList_append]
  exact Position.ofText_lt_append _ (by simpa using htext)

/-- The tokens of a source stand at their places. -/
theorem exact_of_lex {file source : String} {tokens : List Token}
    (h : lex file source = .ok tokens) : TokensExact file tokens := by
  simp only [lex] at h
  split at h
  · cases h
    exact exact_assemble file _
  · cases h

/-- Every token of a source starts at the place behind the earlier tokens and its own fodder, and
    ends at the place behind its own text.  The last token, and no other, marks the end of the file:
    it is the point behind the source. -/
theorem span_of_lex {file source : String} {tokens : List Token}
    (h : lex file source = .ok tokens) :
    (∀ (i : Nat) (t : Token), tokens[i]? = some t →
      t.span =
        ⟨file, .ofText (reconstruct (tokens.take i) ++ t.fodderText).toList,
          .ofText (reconstruct (tokens.take i) ++ t.fodderText ++ t.sourceText).toList⟩) ∧
    ∃ front eof, tokens = front ++ [eof] ∧ (∀ t ∈ front, t.kind ≠ .endOfFile) ∧
      eof.kind = .endOfFile ∧ eof.span = .point file (.ofText source.toList) := by
  have hexact := exact_of_lex h
  obtain ⟨front, eof, rfl, hplain, hkind, htext⟩ := exists_concat_of_lex h
  refine ⟨hexact, front, eof, rfl, fun t ht => (hplain t ht).kind, hkind, ?_⟩
  -- The end mark stands behind everything else, which together with its fodder is the source.
  have hspan := hexact front.length eof (by simp)
  have hsource := reconstruct_lex h
  rw [reconstruct_append, reconstruct_singleton, Token.fullText_eq, htext, String.append_empty]
    at hsource
  rw [hspan, Token.spanBehind, List.take_left, htext, String.append_empty, hsource]
  rfl

/-- A source with a comment and a text block over several lines, and with a line feed behind its
    last token. -/
theorem span_of_lex_sample :
    ∃ tokens front eof, lex "sample" "a /* b\n */ + |||\n  c\n |||\n" = .ok tokens ∧
      tokens = front ++ [eof] ∧ eof.span = .point "sample" ⟨5, 1⟩ := by
  have hok : (lex "sample" "a /* b\n */ + |||\n  c\n |||\n").isOk = true := by decide +kernel
  cases h : lex "sample" "a /* b\n */ + |||\n  c\n |||\n" with
  | error e => simp [h, Except.isOk, Except.toBool] at hok
  | ok tokens =>
    obtain ⟨-, front, eof, htokens, -, -, hspan⟩ := span_of_lex h
    have hplace :
        Position.ofText "a /* b\n */ + |||\n  c\n |||\n".toList = ⟨5, 1⟩ := by decide +kernel
    rw [hplace] at hspan
    exact ⟨tokens, front, eof, rfl, htokens, hspan⟩

end JsonnetSyntax
