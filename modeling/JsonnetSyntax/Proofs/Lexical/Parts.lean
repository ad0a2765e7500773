import JsonnetSyntax.Proofs.Lexical.Locality

/-!
# The tokens of a part of a text

A part of a text that starts where a piece starts and ends behind a lexeme that is no operator is
cut into the same pieces as it is inside the whole text.  So the tokens of such a part are the
tokens that the whole text has there, up to their places and to the fodder of the first one.

## Key results

- `lex_eq_ok_iff`: the tokens of a text are assembled from the pieces that it is cut into
- `lex_eq_error`: the fault of a text that cannot be cut to its end
- `Cuts.of_append`: what follows a row of pieces does not matter
- `Assembly.pieces_add`: assembling pieces keeps them
- `exists_lex_reconstruct`: the tokens of a part of a text
-/

namespace JsonnetSyntax

/-! ## Texts cut into pieces -/

/-- A row of pieces is cut off a text, and a rest is left. -/
inductive Cuts : List Char → List Piece → List Char → Prop
  | nil (text : List Char) : Cuts text [] text
  | cons {c : Char} {text mid rest : List Char} {piece : Piece} {pieces : List Piece}
      (hfirst : Piece.first c text = .ok (piece, mid)) (hothers : Cuts mid pieces rest) :
      Cuts (c :: text) (piece :: pieces) rest

namespace Cuts

variable {text more rest : List Char} {pieces front back : List Piece}

/-- A text is what its pieces are written as, and the rest. -/
theorem text_eq (h : Cuts text pieces rest) : text = Cut.written pieces ++ rest := by
  induction h with
  | nil text => rfl
  | @cons c text mid rest piece pieces hfirst _ ih =>
    have hwritten := Cut.written_of_first hfirst
    rw [← hwritten, ih, ← List.append_assoc, ← Cut.written_append]
    rfl

/-- A row of pieces is cut off part by part. -/
theorem split (h : Cuts text (front ++ back) rest) :
    ∃ mid, Cuts text front mid ∧ Cuts mid back rest := by
  induction front generalizing text with
  | nil => exact ⟨text, .nil text, h⟩
  | cons piece front ih =>
    cases h with
    | cons hfirst hothers =>
      obtain ⟨mid, hfront, hback⟩ := ih hothers
      exact ⟨mid, .cons hfirst hfront, hback⟩

/-- Behind a row of pieces, cutting goes on with what the row leaves. -/
theorem append_iff {mid : List Char} (h : Cuts text front mid) :
    Cuts text (front ++ back) rest ↔ Cuts mid back rest := by
  constructor
  · intro hall
    obtain ⟨left, hfront, hback⟩ := hall.split
    -- The row in front is written in one way, so it leaves the same text both times.
    obtain rfl : mid = left := List.append_cancel_left (h.text_eq.symm.trans hfront.text_eq)
    exact hback
  · intro hback
    -- By induction on the pieces in front.
    induction h with
    | nil => exact hback
    | cons hfirst _ ih => exact .cons hfirst (ih hback)

/-- One piece is cut off if it is the first one. -/
theorem singleton_iff {c : Char} {piece : Piece} :
    Cuts (c :: text) [piece] rest ↔ Piece.first c text = .ok (piece, rest) := by
  constructor
  · intro h
    cases h with
    | cons hfirst hothers =>
      cases hothers
      exact hfirst
  · intro h
    exact .cons h (.nil rest)

/-- A text is cut into pieces in one way only. -/
theorem isPrefix (h : Cuts text front more) (hall : Cuts text pieces []) : front <+: pieces := by
  -- By induction on the shorter row: the first piece of a text is determined.
  induction h generalizing pieces with
  | nil => exact List.nil_prefix
  | cons hfirst _ ih =>
    cases hall with
    | cons hfirst' hothers =>
      cases hfirst.symm.trans hfirst'
      exact List.cons_prefix_cons.mpr ⟨rfl, ih hothers⟩

/-- Pieces that reach the end of a text are those that the text is cut into. -/
theorem ofTextFrom_eq (h : Cuts text pieces []) (seen : Array Piece) :
    Cut.ofTextFrom seen text = ⟨seen.toList ++ pieces, none⟩ := by
  induction pieces generalizing text seen with
  | nil =>
    cases h
    rw [Cut.ofTextFrom, List.append_nil]
  | cons piece pieces ih =>
    cases h with
    | cons hfirst hothers =>
      rw [Cut.ofTextFrom]
      split
      · next hfault => cases hfirst.symm.trans hfault
      -- The first piece is the one of the row, and the others follow by induction.
      · next cut hcut =>
        cases hfirst.symm.trans hcut
        rw [ih hothers, Array.toList_push, List.append_assoc]
        rfl

/-- A text without a fault is cut into pieces up to its end. -/
theorem of_ofTextFrom {seen : Array Piece} (h : (Cut.ofTextFrom seen text).stop = none) :
    ∃ pieces, (Cut.ofTextFrom seen text).pieces = seen.toList ++ pieces ∧ Cuts text pieces [] := by
  fun_induction Cut.ofTextFrom seen text with
  | case1 seen => exact ⟨[], (List.append_nil _).symm, .nil []⟩
  | case2 seen c text interruption hfirst => cases h
  | case3 seen c text cut hfirst ih =>
    obtain ⟨pieces, hpieces, hothers⟩ := ih h
    exact ⟨cut.1 :: pieces, by simp [hpieces], .cons hfirst hothers⟩

/-- Where no piece can be cut off, cutting ends. -/
theorem ofTextFrom_of_error {c : Char} {interruption : Interruption}
    (h : Cuts text pieces (c :: more)) (hfirst : Piece.first c more = .error interruption)
    (seen : Array Piece) :
    Cut.ofTextFrom seen text = ⟨seen.toList ++ pieces, some interruption⟩ := by
  -- By induction on the pieces in front of the fault, each of which is found again.
  induction pieces generalizing text seen with
  | nil =>
    cases h
    rw [Cut.ofTextFrom]
    split
    · next hfault =>
      cases hfirst.symm.trans hfault
      rw [List.append_nil]
    · next hcut => cases hfirst.symm.trans hcut
  | cons piece pieces ih =>
    cases h with
    | cons hpiece hothers =>
      rw [Cut.ofTextFrom]
      split
      · next hfault => cases hpiece.symm.trans hfault
      · next cut hcut =>
        cases hpiece.symm.trans hcut
        rw [ih hothers, Array.toList_push, List.append_assoc]
        rfl

/-- A row of pieces that ends with a lexeme other than an operator closes the operators in front. -/
theorem closes {content : Lexeme} {block : Option TextBlock}
    (h : Cuts text (pieces ++ [.lexeme content block]) rest) (hkind : content.kind ≠ .operator) :
    SymbolRun.Closes (Cut.written (pieces ++ [.lexeme content block])) := by
  obtain ⟨mid, -, hlast⟩ := h.split
  cases hlast with
  | cons hfirst _ =>
    rw [Cut.written_append, Cut.written_singleton]
    exact (Piece.closes_of_first hfirst rfl hkind).append_left _

/-- One piece in front of others that are cut into the same pieces whatever follows them. -/
theorem cons_of_append {c : Char} (inner : List Char) {piece : Piece}
    (hfirst : Piece.first c text = .ok (piece, inner ++ more))
    (hclosed : piece.IsOperator → SymbolRun.Closes inner) (hothers : Cuts inner pieces []) :
    Cuts (Cut.written [piece] ++ inner) (piece :: pieces) [] := by
  obtain ⟨taken, hpiece, rfl⟩ := Piece.first_splits hfirst
  rw [← List.append_assoc] at hfirst
  rw [Cut.written_singleton, hpiece]
  exact .cons (Piece.first_of_append hfirst hclosed) hothers

/-- What follows a row of pieces that ends with a lexeme other than an operator does not matter. -/
theorem of_append {content : Lexeme} {block : Option TextBlock}
    (h : Cuts text (pieces ++ [.lexeme content block]) more) (hkind : content.kind ≠ .operator) :
    Cuts (Cut.written (pieces ++ [.lexeme content block])) (pieces ++ [.lexeme content block])
    [] := by
  -- By induction on the pieces; the last one closes the operators in front of it.
  induction pieces generalizing text with
  | nil =>
    cases h with
    | cons hfirst hothers =>
      cases hothers
      have hcuts := cons_of_append [] hfirst ?_ (.nil [])
      · simpa using hcuts
      -- The last piece is no operator, so nothing behind it could join it.
      · rintro ⟨_, _, heq, hoperator⟩
        cases heq
        exact absurd hoperator hkind
  | cons piece pieces ih =>
    cases h with
    | cons hfirst hothers =>
      rw [hothers.text_eq] at hfirst
      have hcuts := cons_of_append _ hfirst (fun _ => hothers.closes hkind) (ih hothers)
      rwa [← Cut.written_append] at hcuts

end Cuts

/-- The tokens of a source are assembled from the pieces that it is cut into. -/
theorem lex_eq_ok_iff {file source : String} {tokens : List Token} :
    lex file source = .ok tokens ↔
      ∃ pieces, Cuts source.toList pieces [] ∧ tokens = assemble file pieces := by
  constructor
  · intro h
    simp only [lex] at h
    split at h
    · next hstop =>
      cases h
      obtain ⟨pieces, hpieces, hcuts⟩ := Cuts.of_ofTextFrom hstop
      refine ⟨pieces, hcuts, ?_⟩
      rw [Cut.ofText, hpieces]
      rfl
    · cases h
  · rintro ⟨pieces, hcuts, rfl⟩
    simp only [lex, Cut.ofText, hcuts.ofTextFrom_eq]
    rfl

/-- The place behind a row of pieces is the place behind their text. -/
theorem positionAfter_eq (pieces : List Piece) :
    positionAfter pieces = .ofText (Cut.written pieces) := by
  -- By induction from the last piece.
  induction pieces using List.reverseRecOn with
  | nil => rfl
  | append_singleton pieces piece ih =>
    rw [positionAfter, List.foldl_append, Cut.written_append, Cut.written_singleton,
      ← Position.ofText_after, ← ih]
    rfl

/-- A fault is reported at the place behind the pieces in front of it and the text read since. -/
theorem lex_eq_error {file source : String} {pieces : List Piece} {c : Char} {text : List Char}
    {interruption : Interruption} (h : Cuts source.toList pieces (c :: text))
    (hfirst : Piece.first c text = .error interruption) :
    lex file source = .error ⟨.lexical interruption.fault,
      .point file (.ofText (Cut.written pieces ++ interruption.read))⟩ := by
  simp only [lex, Cut.ofText, h.ofTextFrom_of_error hfirst, List.nil_append]
  rw [positionAfter_eq, Position.ofText_after]

/-! ## Tokens made of pieces -/

/-- The pieces that a token is made of. -/
def Token.pieces (t : Token) : List Piece := t.fodder.map .fodder ++ [.lexeme t.toLexeme t.block]

/-- What a token says, apart from its place and its fodder. -/
def Token.content (t : Token) : Lexeme × Option TextBlock := (t.toLexeme, t.block)

/-- What a piece gives to a token. -/
def Piece.content? : Piece → Option (Lexeme × Option TextBlock)
  | .fodder _ => none
  | .lexeme content block => some (content, block)

/-- The pieces of a token are written as the token covers the text. -/
theorem written_pieces (t : Token) : Cut.written t.pieces = t.fullText.toList := by
  simp [Token.pieces, Cut.written, Token.fullText, Token.sourceText, Piece.text, List.flatMap_map]

/-- The pieces of a row of tokens are written as the tokens cover the text. -/
theorem written_flatMap_pieces (tokens : List Token) :
    Cut.written (tokens.flatMap Token.pieces) = (reconstruct tokens).toList := by
  induction tokens with
  | nil => rfl
  | cons t tokens ih =>
    rw [List.flatMap_cons, Cut.written_append, written_pieces, ih, reconstruct_cons,
      String.toList_append]

/-- Fodder says nothing. -/
theorem filterMap_content?_fodder (fodder : List Fodder) :
    (fodder.map Piece.fodder).filterMap Piece.content? = [] := by
  simp [List.filterMap_map, Function.comp_def, Piece.content?]

/-- The pieces of a row of tokens say what the tokens say. -/
theorem filterMap_content?_pieces (tokens : List Token) :
    (tokens.flatMap Token.pieces).filterMap Piece.content? = tokens.map Token.content := by
  induction tokens with
  | nil => rfl
  | cons t tokens ih =>
    rw [List.flatMap_cons, List.filterMap_append, ih, Token.pieces, List.filterMap_append,
      filterMap_content?_fodder]
    rfl

namespace Assembly

/-- The pieces of the complete tokens, then the waiting fodder. -/
def pieces (a : Assembly) : List Piece :=
  a.tokens.toList.flatMap Token.pieces ++ a.fodder.toList.map .fodder

/-- Assembling pieces keeps them. -/
theorem pieces_add (file : String) (a : Assembly) (piece : Piece) :
    (a.add file piece).pieces = a.pieces ++ [piece] := by
  cases piece with
  | fodder element => simp [pieces, add]
  | lexeme content block => simp [pieces, add, push, Token.pieces]

/-- Assembling a row of pieces keeps them. -/
theorem pieces_foldl_add (file : String) (pieces : List Piece) (a : Assembly) :
    (pieces.foldl (add file) a).pieces = a.pieces ++ pieces := by
  induction pieces generalizing a with
  | nil => simp
  | cons piece pieces ih =>
    rw [List.foldl_cons, ih, pieces_add, List.append_assoc, List.singleton_append]

end Assembly

/-- The tokens of a row of pieces are made of these pieces; those behind the last lexeme are the
    fodder of the end mark. -/
theorem exists_concat_assemble (file : String) (pieces : List Piece) :
    ∃ front eof, assemble file pieces = front ++ [eof] ∧ eof.kind = .endOfFile ∧
      pieces = front.flatMap Token.pieces ++ eof.fodder.map .fodder := by
  refine ⟨_, _, Array.toList_push .., rfl, ?_⟩
  -- Assembling keeps the pieces: those of the complete tokens, and the waiting fodder.
  have hpieces := Assembly.pieces_foldl_add file pieces {}
  exact hpieces.symm

/-- Tokens say what their pieces say, and the last one marks the end of the file. -/
theorem map_content_assemble (file : String) (pieces : List Piece) :
    (assemble file pieces).map Token.content =
      pieces.filterMap Piece.content? ++ [(⟨.endOfFile, ""⟩, none)] := by
  have hcontent :=
    congrArg (List.filterMap Piece.content?) (Assembly.pieces_foldl_add file pieces {})
  rw [Assembly.pieces, List.filterMap_append, filterMap_content?_pieces, filterMap_content?_fodder,
    List.append_nil] at hcontent
  have hempty : ({} : Assembly).pieces = [] := rfl
  rw [hempty, List.nil_append] at hcontent
  rw [← hcontent, assemble, Assembly.finish, Assembly.push, Array.toList_push, List.map_append]
  rfl

/-! ## Parts of a source -/

/-- A source with its tokens is cut into what its tokens are made of. -/
theorem cuts_of_lex {file source : String} {front : List Token} {eof : Token}
    (h : lex file source = .ok (front ++ [eof])) :
    Cuts source.toList (front.flatMap Token.pieces ++ eof.fodder.map .fodder) [] := by
  obtain ⟨pieces, hcuts, htokens⟩ := lex_eq_ok_iff.mp h
  obtain ⟨front', eof', hassemble, -, hpieces⟩ := exists_concat_assemble file pieces
  -- The tokens end with the end mark in the source and in the assembly.
  rw [hassemble] at htokens
  obtain ⟨rfl, heof⟩ := List.append_inj' htokens rfl
  cases heof
  rwa [hpieces] at hcuts

/-- A row of tokens inside a text, the last of which is no operator, is cut into the same pieces on
    its own. -/
theorem cuts_reconstruct {text : List Char} {before after : List Piece} {own : List Token}
    (h : Cuts text (before ++ own.flatMap Token.pieces ++ after) [])
    (hlast : ∀ t ∈ own.getLast?, t.kind ≠ .operator) :
    Cuts (reconstruct own).toList (own.flatMap Token.pieces) [] := by
  rw [← written_flatMap_pieces]
  cases own using List.reverseRecOn with
  | nil => exact .nil []
  -- The last piece of the row is the lexeme of its last token, which is no operator.
  | append_singleton init t =>
    have hrow : (init ++ [t]).flatMap Token.pieces =
        init.flatMap Token.pieces ++ t.fodder.map .fodder ++ [.lexeme t.toLexeme t.block] := by
      simp [Token.pieces]
    rw [hrow] at h ⊢
    obtain ⟨mid, hfront, -⟩ := h.split
    obtain ⟨mid', -, hown⟩ := hfront.split
    exact hown.of_append (hlast t (by simp))

/-- Such a row of tokens is lexed into tokens that say the same. -/
theorem exists_lex_reconstruct {text : List Char} {before after : List Piece} {own : List Token}
    (h : Cuts text (before ++ own.flatMap Token.pieces ++ after) [])
    (hlast : ∀ t ∈ own.getLast?, t.kind ≠ .operator) (file : String) :
    ∃ tokens eof, lex file (reconstruct own) = .ok (tokens ++ [eof]) ∧ eof.kind = .endOfFile ∧
      tokens.map Token.content = own.map Token.content := by
  obtain ⟨tokens, eof, hassemble, heof, hpieces⟩ :=
    exists_concat_assemble file (own.flatMap Token.pieces)
  refine ⟨tokens, eof, lex_eq_ok_iff.mpr ⟨_, cuts_reconstruct h hlast, hassemble.symm⟩, heof, ?_⟩
  have hcontent := congrArg (List.filterMap Piece.content?) hpieces
  rw [filterMap_content?_pieces, List.filterMap_append, filterMap_content?_pieces,
    filterMap_content?_fodder, List.append_nil] at hcontent
  exact hcontent.symm

end JsonnetSyntax
