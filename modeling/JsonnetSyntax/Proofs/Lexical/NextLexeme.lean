import JsonnetSyntax.Proofs.Lexical.Parts

/-!
# What lexing does next

Behind a row of pieces, the text that is left decides what lexing does next: it emits a lexeme and
goes on with a rest, or it fails.  Both are settled by the first piece of that text, so statements
about single scanners become statements about whole sources.  `Piece.Way` lists the ways in which a
first piece is cut off, each with what the text starts with.

## Key results

- `Piece.way_first`: every first piece is cut off in one of the ways
- `emits_of_first`, `failsBehind_of_first`: what the first piece of the text that is left says about
  lexing
- `Cuts.exists_stop`: every text is cut to its end or up to a fault
- `exists_first_of_mem`: every token was the first piece of some text that was left
-/

namespace JsonnetSyntax

/-! ## Ways to cut off a piece -/

/-- The quote that opens and closes a string; text blocks have none. -/
def StringForm.quote? : StringForm → Option Char
  | .double => some '\x22'
  | .single => some '\x27'
  | .block => none

/-- What comments start with. -/
def Comment.openers : List (List Char) := [['/', '/'], ['/', '*'], ['#']]

namespace Piece

/-- No piece starts with the character. -/
structure IsStray (c : Char) : Prop where
  notBlank : isBlank c = false
  notMark : Punct.ofChar? c = none
  notDigit : c.isDigit = false
  notQuote : ∀ form, StringForm.quote? form ≠ some c
  notWord : isWordStart c = false
  notSymbol : SymbolRun.isSymbol c = false

/-- The ways to cut the first piece off a text, by its first character and what follows: the pieces
    first, then the faults. -/
inductive Way : Char → List Char → Except Interruption (Piece × List Char) → Prop
  | blank {c : Char} {text : List Char} (h : isBlank c = true) :
    Way c text (.ok (ofFodder .whitespace (c :: text.takeWhile isBlank), text.dropWhile isBlank))
  | slashComment {text : List Char} :
    Way '/' ('/' :: text)
      (.ok (ofFodder .slashComment ('/' :: '/' :: (Comment.scanLine text).1),
        (Comment.scanLine text).2))
  | hashComment {text : List Char} :
    Way '#' text
      (.ok (ofFodder .hashComment ('#' :: (Comment.scanLine text).1), (Comment.scanLine text).2))
  | blockComment {text body rest : List Char} (h : Comment.scanBlock text = some (body, rest)) :
    Way '/' ('*' :: text) (.ok (ofFodder .blockComment ('/' :: '*' :: body), rest))
  | mark {c : Char} {text : List Char} {mark : Punct} (h : Punct.ofChar? c = some mark) :
    Way c text (.ok (ofLexeme (.punct mark) [c], text))
  | negation {text : List Char} : Way '!' text (.ok (firstNegation text))
  | alone {c : Char} {text : List Char} (h : standsAlone c text = true) :
    Way c text (.ok (ofLexeme .operator [c], text))
  | operator {c : Char} {text : List Char} (h : SymbolRun.isSymbol c = true)
      (hcomment : ∀ opener ∈ Comment.openers, ¬ opener <+: c :: text) :
    Way c text (.ok (ofLexeme .operator (SymbolRun.scan c text).1, (SymbolRun.scan c text).2))
  | number {c : Char} {text taken rest : List Char} (hdigit : c.isDigit = true)
    (h : Numeral.scan c text = .ok (taken, rest)) :
    Way c text (.ok (ofLexeme .number taken, rest))
  | quoted {c : Char} {text content rest : List Char} {form : StringForm}
    (hform : form.quote? = some c) (h : Quoted.scan c text = some (content, rest)) :
    Way c text (.ok (ofLexeme (.string form) content, rest))
  | block {text rest : List Char} {layout : BlockLayout}
    (h : Block.scan text = .ok (layout, rest)) :
    Way '|' ('|' :: '|' :: '\n' :: text) (.ok (ofBlock layout, rest))
  | word {c : Char} {text : List Char} (h : isWordStart c = true) :
    Way c text (.ok (ofWord (c :: text.takeWhile isWordChar), text.dropWhile isWordChar))
  | openComment {text : List Char} (h : Comment.scanBlock text = none) :
    Way '/' ('*' :: text) (.error ⟨.openComment, []⟩)
  | brokenNumber {c : Char} {text : List Char} {interruption : Interruption}
    (hdigit : c.isDigit = true) (h : Numeral.scan c text = .error interruption) :
    Way c text (.error interruption)
  | openString {c : Char} {text : List Char} {form : StringForm} (hform : form.quote? = some c)
    (h : Quoted.scan c text = none) : Way c text (.error ⟨.openString, []⟩)
  | badBlock {text : List Char} {fault : BlockFault} (h : Block.scan text = .error fault) :
    Way '|' ('|' :: '|' :: '\n' :: text) (.error ⟨.badBlock fault, []⟩)
  | stray {c : Char} {text : List Char} (h : IsStray c) :
    Way c text (.error ⟨.strayCharacter c, []⟩)

/-- What starts with a digit is a number, or a fault in one. -/
theorem way_firstNumber {c : Char} (text : List Char) (h : c.isDigit = true) :
    Way c text (firstNumber c text) := by
  unfold firstNumber
  split
  · next hscan => exact .brokenNumber h hscan
  · next hscan => exact .number h hscan

/-- What starts with a quote is a string, or one that stays open. -/
theorem way_firstQuoted {form : StringForm} {c : Char} (text : List Char)
    (h : form.quote? = some c) : Way c text (firstQuoted form c text) := by
  unfold firstQuoted
  split
  · next hscan => exact .openString h hscan
  · next hscan => exact .quoted h hscan

/-- What starts with a symbol is cut off as a comment, as a text block or as an operator. -/
theorem way_firstSymbolic {c : Char} (text : List Char) (h : SymbolRun.isSymbol c = true) :
    Way c text (firstSymbolic c text) := by
  unfold firstSymbolic
  split
  · exact .slashComment
  · exact .hashComment
  · unfold firstBlockComment
    split
    · next hscan => exact .openComment hscan
    · next hscan => exact .blockComment hscan
  · unfold firstBlock
    split
    · next hscan => exact .badBlock hscan
    · next hscan => exact .block hscan
  · next c text hhash hslash hstar hbars =>
    refine .operator h ?_
    -- Each opener would have been one of the cases before.
    intro opener hopener hstarts
    simp only [Comment.openers, List.mem_cons, List.not_mem_nil, or_false] at hopener
    obtain ⟨rest, hrest⟩ := hstarts
    obtain rfl | rfl | rfl := hopener
    · cases hrest
      exact hslash _ rfl rfl
    · cases hrest
      exact hstar _ rfl rfl
    · cases hrest
      exact hhash rfl

/-- The first piece of a text is cut off in one of the ways. -/
theorem way_first (c : Char) (text : List Char) : Way c text (first c text) := by
  unfold first
  -- One case for each scanner, in the order of `first`.
  split
  · next h => exact .blank h
  next hblank =>
  split
  · next h => exact .mark h
  next hmark =>
  split
  · next h =>
    rw [eq_of_beq h]
    exact .negation
  split
  · next h => exact .alone h
  split
  · next h => exact way_firstNumber text h
  next hdigit =>
  split
  · next h =>
    have hquote : StringForm.quote? .double = some c := congrArg some (eq_of_beq h).symm
    exact way_firstQuoted text hquote
  next hdouble =>
  split
  · next h =>
    have hquote : StringForm.quote? .single = some c := congrArg some (eq_of_beq h).symm
    exact way_firstQuoted text hquote
  next hsingle =>
  split
  · next h => exact .word h
  next hword =>
  split
  · next h => exact way_firstSymbolic text h
  next hsymbol =>
  refine .stray ⟨by simpa using hblank, ?_, by simpa using hdigit, ?_, by simpa using hword,
    by simpa using hsymbol⟩
  -- Each test that failed says what the character is not.
  · cases hc : Punct.ofChar? c with
    | none => rfl
    | some mark => exact absurd hc (hmark mark)
  · intro form hform
    cases form with
    | double =>
      cases hform
      exact hdouble rfl
    | single =>
      cases hform
      exact hsingle rfl
    | block => cases hform

end Piece

/-! ## Lexing behind a row of pieces -/

/-- The front of the text has a property that no longer front has. -/
structure IsLongestFront (P : List Char → Prop) (text front : List Char) : Prop where
  isPrefix : front <+: text
  holds : P front
  longest : ∀ other, other <+: text → P other → other.length ≤ front.length

/-- Lexing the source fails with a message, at the place behind the text `front`. -/
def FailsBehind (file source : String) (front : List Char) (message : String) : Prop :=
  ∃ e, lex file source = .error e ∧ e.fault.message = message ∧ e.span = .point file (.ofText front)

/-- Behind the pieces `before`, lexing the source emits a lexeme and goes on with `rest`.  If the
    source has tokens, the one behind those of `before` is this lexeme. -/
structure Emits (file source : String) (before : List Piece) (content : Lexeme) (rest : List Char) :
    Prop where
  cuts : Cuts source.toList (before ++ [.lexeme content none]) rest
  tokens : ∀ tokens, lex file source = .ok tokens →
    ∃ more, tokens.map Token.content = before.filterMap Piece.content? ++ (content, none) :: more

section

variable {file source : String} {before : List Piece} {c : Char} {text rest : List Char}

/-- A lexeme at the front of the text that is left is emitted. -/
theorem emits_of_first (h : Cuts source.toList before (c :: text)) {content : Lexeme}
    (hfirst : Piece.first c text = .ok (.lexeme content none, rest)) :
    Emits file source before content rest where
  cuts := h.append_iff.mpr (Cuts.singleton_iff.mpr hfirst)
  tokens := by
    intro tokens hlex
    obtain ⟨pieces, hcuts, rfl⟩ := lex_eq_ok_iff.mp hlex
    -- The pieces of the whole source go on behind the lexeme.
    have hcut := h.append_iff.mpr (Cuts.singleton_iff.mpr hfirst)
    obtain ⟨more, rfl⟩ := hcut.isPrefix hcuts
    refine ⟨more.filterMap Piece.content? ++ [(⟨.endOfFile, ""⟩, none)], ?_⟩
    rw [map_content_assemble, List.filterMap_append, List.filterMap_append, List.append_assoc,
      List.append_assoc]
    rfl

/-- A fault at the front of the text that is left is the fault of the source. -/
theorem failsBehind_of_first (h : Cuts source.toList before (c :: text))
    {interruption : Interruption} (hfirst : Piece.first c text = .error interruption) :
    FailsBehind file source (Cut.written before ++ interruption.read) interruption.fault.message :=
  ⟨_, lex_eq_error h hfirst, rfl, rfl⟩

end

namespace Cuts

/-- Every text is cut into pieces up to its end, or up to a fault. -/
theorem exists_stop (text : List Char) :
    ∃ pieces rest, Cuts text pieces rest ∧
      (rest = [] ∨ ∃ c more interruption,
        rest = c :: more ∧ Piece.first c more = .error interruption) := by
  -- Every piece takes a character, so the text that is left gets shorter.
  induction hn : text.length using Nat.strongRecOn generalizing text with
  | ind n ih =>
    cases text with
    | nil => exact ⟨[], [], .nil [], .inl rfl⟩
    | cons c text =>
      cases hfirst : Piece.first c text with
      | error interruption =>
        exact ⟨[], c :: text, .nil _, .inr ⟨c, text, interruption, rfl, hfirst⟩⟩
      | ok cut =>
        have hless := Piece.length_le_of_first hfirst
        rw [List.length_cons] at hn
        obtain ⟨pieces, rest, hcuts, hstop⟩ := ih cut.2.length (by omega) cut.2 rfl
        exact ⟨cut.1 :: pieces, rest, .cons hfirst hcuts, hstop⟩

/-- Every piece was the first piece of the text that was left behind the pieces in front of it. -/
theorem exists_first_of_mem {text rest : List Char} {pieces : List Piece} {piece : Piece}
    (h : Cuts text pieces rest) (hmem : piece ∈ pieces) :
    ∃ before c left after,
      Cuts text before (c :: left) ∧ Piece.first c left = .ok (piece, after) := by
  obtain ⟨before, behind, rfl⟩ := List.append_of_mem hmem
  obtain ⟨mid, hbefore, hbehind⟩ := h.split
  cases hbehind with
  | cons hfirst _ => exact ⟨before, _, _, _, hbefore, hfirst⟩

end Cuts

/-- Every token but the end mark was the first piece of the text that was left in front of it. -/
theorem exists_first_of_mem {file source : String} {tokens : List Token} {t : Token}
    (h : lex file source = .ok tokens) (ht : t ∈ tokens) (hkind : t.kind ≠ .endOfFile) :
    ∃ before c text rest, Cuts source.toList before (c :: text) ∧
      Piece.first c text = .ok (.lexeme t.toLexeme t.block, rest) := by
  obtain ⟨pieces, hcuts, rfl⟩ := lex_eq_ok_iff.mp h
  obtain ⟨front, eof, hassemble, heof, hpieces⟩ := exists_concat_assemble file pieces
  rw [hassemble, List.mem_append, List.mem_singleton] at ht
  obtain ht | rfl := ht
  · -- The lexeme of a token is one of the pieces that the token is made of.
    refine hcuts.exists_first_of_mem ?_
    rw [hpieces, List.mem_append, List.mem_flatMap]
    exact .inl ⟨t, ht, by simp [Token.pieces]⟩
  · exact absurd heof hkind

end JsonnetSyntax
