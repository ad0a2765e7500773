import JsonnetSyntax.Lexical.Tokens

/-!
# Lexing loses nothing

Every piece that is cut off a text starts where the text starts, so the pieces of a text, written
one after the other, are the text again.  Assembling pieces into tokens keeps this text: at every
moment the complete tokens and the fodder that waits for the next one are written exactly as the
pieces seen so far.

## Key results

- `Cut.ofTextFrom_text`: a cut that reaches the end of the text is written as the text
- `Assembly.text_add`: adding a piece appends its text
- `reconstruct_lex`: the tokens of a source text are written as the source text
-/

namespace JsonnetSyntax

namespace Cut

/-- The characters of a row of pieces. -/
def written (pieces : List Piece) : List Char := pieces.flatMap fun piece => piece.text.toList

/-- The characters of two rows, one behind the other. -/
@[simp] theorem written_append (first second : List Piece) :
    written (first ++ second) = written first ++ written second := by
  simp [written]

/-- The characters of one piece. -/
@[simp] theorem written_singleton (piece : Piece) : written [piece] = piece.text.toList := by
  simp [written]

/-- A piece and the text behind it are the text that it was cut off. -/
theorem written_of_first {c : Char} {text : List Char} {cut : Piece × List Char}
    (h : Piece.first c text = .ok cut) : written [cut.1] ++ cut.2 = c :: text := by
  obtain ⟨taken, htext, hrest⟩ := Piece.first_splits h
  rw [written_singleton, htext, List.cons_append, hrest]

/-- Cutting keeps the characters: what was cut off already, followed by the unread text, is the same
    before and after every piece.  At the end of the text nothing is unread. -/
theorem ofTextFrom_text (seen : Array Piece) (text : List Char)
    (hstop : (ofTextFrom seen text).stop = none) :
    written (ofTextFrom seen text).pieces = written seen.toList ++ text := by
  -- The cases of the loop: the end of the text, a fault, and a piece that moves from the unread
  -- text to what was cut off.
  fun_induction ofTextFrom seen text with
  | case1 seen => simp
  | case2 seen c text interruption hfirst => cases hstop
  | case3 seen c text cut hfirst ih =>
    have hcut := written_of_first hfirst
    rw [ih hstop, Array.toList_push, written_append, List.append_assoc, hcut]

/-- A text that can be cut to its end is written by its pieces. -/
theorem ofText_text {text : List Char} (hstop : (ofText text).stop = none) :
    written (ofText text).pieces = text := by
  have h := ofTextFrom_text #[] text hstop
  rw [ofText, h]
  rfl

end Cut

namespace Assembly

/-- What tokens under construction stand for: the complete tokens, then the waiting fodder. -/
def text (a : Assembly) : String :=
  reconstruct a.tokens.toList ++ String.join (a.fodder.toList.map Fodder.data)

/-- A pushed token takes the waiting fodder and is followed by none. -/
theorem text_push (file : String) (content : Lexeme) (block : Option TextBlock) (covered : String)
    (a : Assembly) :
    (a.push file content block covered).text = a.text ++ content.sourceText block := by
  simp [text, push, reconstruct, Token.fullText, Token.sourceText, String.append_assoc]

/-- Every piece appends its own text. -/
theorem text_add (file : String) (a : Assembly) (piece : Piece) :
    (a.add file piece).text = a.text ++ piece.text := by
  cases piece with
  | fodder element => simp [text, add, Piece.text, String.append_assoc]
  | lexeme content block => exact text_push file content block _ a

/-- A row of pieces appends their texts in turn. -/
theorem text_foldl_add (file : String) (pieces : List Piece) (a : Assembly) :
    (pieces.foldl (add file) a).text = a.text ++ String.join (pieces.map Piece.text) := by
  induction pieces generalizing a with
  | nil => simp
  | cons piece pieces ih =>
    rw [List.foldl_cons, ih, text_add, List.map_cons, String.join_cons, String.append_assoc]

/-- The end mark has no text of its own, so it only picks up the fodder that is left. -/
theorem reconstruct_finish (file : String) (a : Assembly) :
    reconstruct (a.finish file) = a.text := by
  have h := text_push file ⟨.endOfFile, ""⟩ none "" a
  simpa [text, push, finish, Lexeme.sourceText] using h

end Assembly

/-- The tokens made of a row of pieces are written as the pieces. -/
theorem reconstruct_assemble (file : String) (pieces : List Piece) :
    (reconstruct (assemble file pieces)).toList = Cut.written pieces := by
  rw [assemble, Assembly.reconstruct_finish, Assembly.text_foldl_add]
  simp [Assembly.text, reconstruct, Cut.written, List.flatMap_map]

/-- The tokens of a source text are written as the source text: fodder, quotes and the layout of
    text blocks included. -/
theorem reconstruct_lex {file source : String} {tokens : List Token}
    (h : lex file source = .ok tokens) : reconstruct tokens = source := by
  simp only [lex] at h
  -- Only a text that was cut to its end has tokens.
  split at h
  · next hstop =>
    cases h
    have hwritten := Cut.ofText_text hstop
    apply String.toList_injective
    rw [reconstruct_assemble, hwritten]
  · cases h

/-- A source with all four kinds of fodder, both quotes, a text block and a run of symbols that
    gives characters back. -/
theorem reconstruct_lex_sample :
    ∃ tokens,
      lex "sample" "a<-1 // b\n\x7b'\\'': \"c\" /* d */, e: |||\n  f\n |||\x7d # g" = .ok tokens ∧
      reconstruct tokens = "a<-1 // b\n\x7b'\\'': \"c\" /* d */, e: |||\n  f\n |||\x7d # g" := by
  have hok : (lex "sample" "a<-1 // b\n\x7b'\\'': \"c\" /* d */, e: |||\n  f\n |||\x7d # g").isOk =
      true := by
    decide +kernel
  cases h : lex "sample" "a<-1 // b\n\x7b'\\'': \"c\" /* d */, e: |||\n  f\n |||\x7d # g" with
  | error e => simp [h, Except.isOk, Except.toBool] at hok
  | ok tokens => exact ⟨tokens, rfl, reconstruct_lex h⟩

end JsonnetSyntax
