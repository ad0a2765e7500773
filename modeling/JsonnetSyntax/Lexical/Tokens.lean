import JsonnetSyntax.Lexical.Piece

/-!
# From text to tokens

`Cut.ofText` cuts a text into pieces up to its end or up to the first fault.  `assemble` turns the
pieces into tokens: every lexeme gets the fodder in front of it and the span it covers, and a last
token marks the end of the file and carries the fodder behind the last lexeme.  `lex` does both.
-/

namespace JsonnetSyntax

/-- A text cut into pieces, as far as that is possible: `stop` says why it ends early. -/
structure Cut where
  pieces : List Piece
  stop : Option Interruption
deriving DecidableEq, Repr

namespace Cut

/-- Cuts `text` into pieces, behind the pieces `seen`. -/
def ofTextFrom (seen : Array Piece) (text : List Char) : Cut :=
  match text with
  | [] => ⟨seen.toList, none⟩
  | c :: text =>
    match _h : Piece.first c text with
    | .error interruption => ⟨seen.toList, some interruption⟩
    | .ok cut => ofTextFrom (seen.push cut.1) cut.2
termination_by text.length
decreasing_by
  -- A piece is not empty, so less of the text is left.
  have := Piece.length_le_of_first _h
  simp
  omega

/-- Cuts a text into pieces, up to its end or up to the first fault. -/
def ofText (text : List Char) : Cut := ofTextFrom #[] text

end Cut

/-- Tokens under construction: those that are complete, the place reached, and the fodder waiting
    for the next lexeme. -/
structure Assembly where
  tokens : Array Token := #[]
  position : Position := .origin
  fodder : Array Fodder := #[]

namespace Assembly

/-- Appends a token that covers `text`, with the fodder that waits for it. -/
def push (file : String) (content : Lexeme) (block : Option TextBlock) (text : String)
    (a : Assembly) : Assembly :=
  let stop := a.position.after text.toList
  { tokens := a.tokens.push
      { toLexeme := content, block, fodder := a.fodder.toList, span := ⟨file, a.position, stop⟩ }
    position := stop
    fodder := #[] }

/-- Appends the next piece. -/
def add (file : String) (a : Assembly) : Piece → Assembly
  | .fodder element =>
    { a with position := a.position.after element.data.toList, fodder := a.fodder.push element }
  | .lexeme content block => a.push file content block (content.sourceText block)

/-- Appends the token that marks the end of the file. -/
def finish (file : String) (a : Assembly) : List Token :=
  (a.push file ⟨.endOfFile, ""⟩ none "").tokens.toList

end Assembly

/-- The tokens of a row of pieces, with the token that marks the end of the file. -/
def assemble (file : String) (pieces : List Piece) : List Token :=
  (pieces.foldl (Assembly.add file) {}).finish file

/-- The place behind a row of pieces. -/
def positionAfter (pieces : List Piece) : Position :=
  pieces.foldl (fun position piece => position.after piece.text.toList) .origin

/-- The tokens of a source text, or the first fault in it. -/
def lex (file source : String) : Except Error (List Token) :=
  let cut := Cut.ofText source.toList
  match cut.stop with
  | none => .ok (assemble file cut.pieces)
  | some interruption =>
    -- The fault is behind what was read of the lexeme that it breaks.
    .error ⟨.lexical interruption.fault,
      .point file ((positionAfter cut.pieces).after interruption.read)⟩

end JsonnetSyntax
