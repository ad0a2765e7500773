import JsonnetSyntax.Lexical.Numeral
import JsonnetSyntax.Lexical.Quoted
import JsonnetSyntax.Lexical.Comment
import JsonnetSyntax.Lexical.SymbolRun
import JsonnetSyntax.Lexical.Block

/-!
# Pieces of a source text

A source text is a row of pieces: lexemes, and the fodder between them.  `Piece.first` cuts the
first piece off a text; which scanner reads it is decided by its first character.

Main statement: `Piece.first_splits`, the first piece of a text starts with the first character of
the text, and the piece and the rest make up the text.
-/

namespace JsonnetSyntax

/-- Fodder, or a lexeme with the layout of its text block. -/
inductive Piece where
  | fodder (element : Fodder)
  | lexeme (content : Lexeme) (block : Option TextBlock)
deriving DecidableEq, Repr

namespace Piece

/-- The piece as it stands in the source. -/
def text : Piece → String
  | fodder element => element.data
  | lexeme content block => content.sourceText block

/-- The characters that whitespace is made of. -/
def isBlank (c : Char) : Bool := c == ' ' || c == '\t' || c == '\r' || c == '\n'

/-- The characters that start a word: the letters of ASCII and the underscore. -/
def isWordStart (c : Char) : Bool := c.isAlpha || c == '_'

/-- The characters that a word is made of: the letters and digits of ASCII and the underscore. -/
def isWordChar (c : Char) : Bool := c.isAlphanum || c == '_'

/-- The quote of a string between double quotes. -/
def doubleQuote : Char := '\x22'

/-- The quote of a string between single quotes. -/
def singleQuote : Char := '\x27'

/-- The fodder with the text `taken`. -/
def ofFodder (kind : FodderKind) (taken : List Char) : Piece := fodder ⟨kind, String.ofList taken⟩

/-- The lexeme with the text `taken`. -/
def ofLexeme (kind : TokenKind) (taken : List Char) : Piece :=
  lexeme ⟨kind, String.ofList taken⟩ none

/-- The word with the text `taken`, a keyword or an identifier. -/
def ofWord (taken : List Char) : Piece := ofLexeme (.ofWord (String.ofList taken)) taken

/-- The text block with a layout. -/
def ofBlock (layout : BlockLayout) : Piece :=
  lexeme ⟨.string .block, String.ofList layout.content⟩
    (some ⟨String.ofList layout.indent, String.ofList layout.closingIndent,
      String.ofList layout.verbatim⟩)

/-- Cuts off the string that opens with `quote`. -/
def firstQuoted (form : StringForm) (quote : Char) (text : List Char) :
    Except Interruption (Piece × List Char) :=
  match Quoted.scan quote text with
  | none => .error ⟨.openString, []⟩
  | some (content, rest) => .ok (ofLexeme (.string form) content, rest)

/-- Cuts off the number that starts with the digit `c`. -/
def firstNumber (c : Char) (text : List Char) : Except Interruption (Piece × List Char) :=
  match Numeral.scan c text with
  | .error interruption => .error interruption
  | .ok (taken, rest) => .ok (ofLexeme .number taken, rest)

/-- Cuts off the text block whose opening stands in front of `text`. -/
def firstBlock (text : List Char) : Except Interruption (Piece × List Char) :=
  match Block.scan text with
  | .error fault => .error ⟨.badBlock fault, []⟩
  | .ok (layout, rest) => .ok (ofBlock layout, rest)

/-- Cuts off the comment whose `/*` stands in front of `text`. -/
def firstBlockComment (text : List Char) : Except Interruption (Piece × List Char) :=
  match Comment.scanBlock text with
  | none => .error ⟨.openComment, []⟩
  | some (body, rest) => .ok (ofFodder .blockComment ('/' :: '*' :: body), rest)

/-- Cuts off what starts with the symbol `c`: a comment, a text block or an operator. -/
def firstSymbolic (c : Char) (text : List Char) : Except Interruption (Piece × List Char) :=
  match c, text with
  | '/', '/' :: text =>
    .ok (ofFodder .slashComment ('/' :: '/' :: (Comment.scanLine text).1),
      (Comment.scanLine text).2)
  | '#', text =>
    .ok (ofFodder .hashComment ('#' :: (Comment.scanLine text).1), (Comment.scanLine text).2)
  | '/', '*' :: text => firstBlockComment text
  | '|', '|' :: '|' :: '\n' :: text => firstBlock text
  -- Bars that no newline follows are an operator.
  | c, text => .ok (ofLexeme .operator (SymbolRun.scan c text).1, (SymbolRun.scan c text).2)

/-- Cuts off the operator that starts with an exclamation mark. -/
def firstNegation : List Char → Piece × List Char
  | '=' :: text => (ofLexeme .operator ['!', '='], text)
  | text => (ofLexeme .operator ['!'], text)

/-- Whether the operator that starts with `c` is this character alone: a plus sign is one unless a
    colon follows. -/
def standsAlone (c : Char) (text : List Char) : Bool :=
  c == '~' || c == '-' || (c == '+' && text.head? != some ':')

/-- Cuts the first piece off the text that starts with `c`, followed by `text`. -/
def first (c : Char) (text : List Char) : Except Interruption (Piece × List Char) :=
  if isBlank c then .ok (ofFodder .whitespace (c :: text.takeWhile isBlank), text.dropWhile isBlank)
  -- A dollar sign is a mark here, although it may also stand inside an operator.
  else if let some mark := Punct.ofChar? c then .ok (ofLexeme (.punct mark) [c], text)
  else if c == '!' then .ok (firstNegation text)
  else if standsAlone c text then .ok (ofLexeme .operator [c], text)
  else if c.isDigit then firstNumber c text
  else if c == doubleQuote then firstQuoted .double c text
  else if c == singleQuote then firstQuoted .single c text
  else if isWordStart c then
    .ok (ofWord (c :: text.takeWhile isWordChar), text.dropWhile isWordChar)
  else if SymbolRun.isSymbol c then firstSymbolic c text
  else .error ⟨.strayCharacter c, []⟩

/-! ## Nothing is lost -/

/-- A cut of the text that starts with `c`, followed by `text`, takes a piece that starts with `c`
    and leaves what follows it. -/
def Splits (c : Char) (text : List Char) (cut : Piece × List Char) : Prop :=
  ∃ taken, cut.1.text.toList = c :: taken ∧ taken ++ cut.2 = text

/-- Fodder is kept as it was written. -/
theorem toList_text_ofFodder (kind : FodderKind) (taken : List Char) :
    (ofFodder kind taken).text.toList = taken := by
  simp [ofFodder, text]

/-- A lexeme other than a string is kept as it was written. -/
theorem toList_text_ofLexeme {kind : TokenKind} (h : ∀ form, kind ≠ .string form)
    (taken : List Char) : (ofLexeme kind taken).text.toList = taken := by
  simp only [ofLexeme, text, Lexeme.sourceText]
  split <;> simp_all

/-- A keyword or an identifier is kept as it was written. -/
theorem toList_text_ofWord (taken : List Char) : (ofWord taken).text.toList = taken := by
  refine toList_text_ofLexeme (fun form => ?_) taken
  unfold TokenKind.ofWord
  split <;> simp

/-- A text block is written out in its layout. -/
theorem toList_text_ofBlock (layout : BlockLayout) :
    (ofBlock layout).text.toList = layout.verbatim := by
  simp [ofBlock, text, Lexeme.sourceText]

/-- A string in double quotes splits the text behind its opening quote. -/
theorem firstQuoted_double_splits {text : List Char} {cut : Piece × List Char}
    (h : firstQuoted .double doubleQuote text = .ok cut) : Splits doubleQuote text cut := by
  unfold firstQuoted at h
  split at h
  · cases h
  · next content rest hscan =>
    cases h
    -- The piece ends with the closing quote, which the scanner does not count as content.
    refine ⟨content ++ [doubleQuote], ?_, by simpa using Quoted.scan_eq_append hscan⟩
    simp [ofLexeme, Piece.text, Lexeme.sourceText, doubleQuote]

/-- A string in single quotes splits the text behind its opening quote. -/
theorem firstQuoted_single_splits {text : List Char} {cut : Piece × List Char}
    (h : firstQuoted .single singleQuote text = .ok cut) : Splits singleQuote text cut := by
  unfold firstQuoted at h
  split at h
  · cases h
  · next content rest hscan =>
    cases h
    refine ⟨content ++ [singleQuote], ?_, by simpa using Quoted.scan_eq_append hscan⟩
    simp [ofLexeme, Piece.text, Lexeme.sourceText, singleQuote]

/-- A cut whose piece and rest make up the input splits it, if the piece starts as the input
    does. -/
theorem splits_of_append {c d : Char} {text taken rest : List Char} {piece : Piece}
    (htext : piece.text.toList = d :: taken) (h : d :: taken ++ rest = c :: text) :
    Splits c text (piece, rest) := by
  obtain ⟨rfl, rfl⟩ := List.cons.inj h
  exact ⟨taken, htext, rfl⟩

/-- A number splits the text behind its first digit. -/
theorem firstNumber_splits {c : Char} {text : List Char} {cut : Piece × List Char}
    (h : firstNumber c text = .ok cut) : Splits c text cut := by
  unfold firstNumber at h
  split at h
  · cases h
  · next all rest hscan =>
    cases h
    have whole := Numeral.scan_eq_append hscan
    have written : (ofLexeme .number all).text.toList = all := toList_text_ofLexeme (by simp) all
    cases all with
    | nil => exact absurd (Numeral.scan_ne_nil hscan) (by simp)
    -- A number is known to make up the input only as a whole, so it has to be shown to have a first
    -- digit.
    | cons d taken => exact splits_of_append written whole

/-- A text block splits the text behind the first of its opening bars. -/
theorem firstBlock_splits {text : List Char} {cut : Piece × List Char}
    (h : firstBlock text = .ok cut) : Splits '|' ('|' :: '|' :: '\n' :: text) cut := by
  unfold firstBlock at h
  split at h
  · cases h
  · next layout rest hscan =>
    cases h
    exact splits_of_append (toList_text_ofBlock layout) (Block.scan_eq_append hscan)

/-- A block comment splits the text behind its first slash. -/
theorem firstBlockComment_splits {text : List Char} {cut : Piece × List Char}
    (h : firstBlockComment text = .ok cut) : Splits '/' ('*' :: text) cut := by
  unfold firstBlockComment at h
  split at h
  · cases h
  · next body rest hscan =>
    cases h
    exact ⟨_, toList_text_ofFodder .blockComment _, by simp [Comment.scanBlock_eq_append hscan]⟩

/-- A comment, a text block or an operator splits the text behind its first symbol. -/
theorem firstSymbolic_splits {c : Char} {text : List Char} {cut : Piece × List Char}
    (h : firstSymbolic c text = .ok cut) : Splits c text cut := by
  unfold firstSymbolic at h
  split at h
  · cases h
    exact ⟨_, toList_text_ofFodder .slashComment _, by simp [Comment.scanLine_eq_append]⟩
  · cases h
    exact ⟨_, toList_text_ofFodder .hashComment _, by simp [Comment.scanLine_eq_append]⟩
  · exact firstBlockComment_splits h
  · exact firstBlock_splits h
  · cases h
    exact splits_of_append (toList_text_ofLexeme (by simp) _) (SymbolRun.scan_eq_append _ _)

/-- An operator that starts with an exclamation mark splits the text behind the mark. -/
theorem firstNegation_splits (text : List Char) : Splits '!' text (firstNegation text) := by
  unfold firstNegation
  split
  · exact ⟨['='], toList_text_ofLexeme (by simp) _, rfl⟩
  · exact ⟨[], toList_text_ofLexeme (by simp) _, rfl⟩

/-- The first piece of a text starts where the text starts, and the rest follows it. -/
theorem first_splits {c : Char} {text : List Char} {cut : Piece × List Char}
    (h : first c text = .ok cut) : Splits c text cut := by
  unfold first at h
  -- The cases are those of the scanner, in its order.
  split at h
  · cases h
    exact ⟨_, toList_text_ofFodder .whitespace _, List.takeWhile_append_dropWhile⟩
  split at h
  · cases h
    exact ⟨[], toList_text_ofLexeme (by simp) _, rfl⟩
  split at h
  · next hc =>
    cases h
    rw [eq_of_beq hc]
    exact firstNegation_splits text
  split at h
  · cases h
    exact ⟨[], toList_text_ofLexeme (by simp) _, rfl⟩
  split at h
  · exact firstNumber_splits h
  split at h
  · next hc =>
    rw [eq_of_beq hc] at h ⊢
    exact firstQuoted_double_splits h
  split at h
  · next hc =>
    rw [eq_of_beq hc] at h ⊢
    exact firstQuoted_single_splits h
  split at h
  · cases h
    exact ⟨_, toList_text_ofWord _, List.takeWhile_append_dropWhile⟩
  split at h
  · exact firstSymbolic_splits h
  · cases h

/-- Cutting off a piece leaves a shorter text. -/
theorem length_le_of_first {c : Char} {text : List Char} {cut : Piece × List Char}
    (h : first c text = .ok cut) : cut.2.length ≤ text.length := by
  obtain ⟨taken, _, rfl⟩ := first_splits h
  simp

end Piece

end JsonnetSyntax
