import JsonnetSyntax.Span
import JsonnetSyntax.Token.Kind

/-!
# Tokens

A `Lexeme` is a kind with its text.  A `Token` is a lexeme with its span and with the `Fodder`, the
blanks and comments, that stands in front of it.  Nothing of the source is dropped: `reconstruct`
writes the text of a token list again.
-/

namespace JsonnetSyntax

/-- What can stand between two tokens. -/
inductive FodderKind where
  | whitespace | slashComment | hashComment | blockComment
deriving DecidableEq, Repr

namespace FodderKind

/-- All kinds of fodder. -/
def all : List FodderKind := [whitespace, slashComment, hashComment, blockComment]

/-- The name under which a kind of fodder is dumped. -/
def name : FodderKind → String
  | whitespace => "Whitespace"
  | slashComment => "CommentCpp"
  | hashComment => "CommentHash"
  | blockComment => "CommentC"

/-- The kind that is dumped under `name`. -/
def ofName? (name : String) : Option FodderKind := all.find? fun kind => kind.name == name

end FodderKind

/-- One run of blanks or one comment, with its full text. -/
structure Fodder where
  kind : FodderKind
  data : String
deriving DecidableEq, Repr

/-- How a text block was laid out: the indent taken off its lines, the blanks in front of the
    closing bars, and the whole text as it was written. -/
structure TextBlock where
  indent : String
  closingIndent : String
  verbatim : String
deriving DecidableEq, Repr

/-- A kind with its text.  The text of a string is what stands between its quotes, or the content of
    its text block. -/
structure Lexeme where
  kind : TokenKind
  data : String
deriving DecidableEq, Repr

namespace Lexeme

/-- How a message speaks of a lexeme: only its kind if it has no text, an operator in quotes, any
    other as the pair of kind and text. -/
def display (l : Lexeme) : String :=
  if l.data.isEmpty then l.kind.text
  else if l.kind = .operator then "\"" ++ l.data ++ "\""
  else "(" ++ l.kind.text ++ ", \"" ++ l.data ++ "\")"

/-- The lexeme as it stands in a source: quotes are put back, and a text block is written as it was
    laid out. -/
def sourceText (l : Lexeme) (block : Option TextBlock) : String :=
  match l.kind, block with
  | .string .double, _ => "\"" ++ l.data ++ "\""
  | .string .single, _ => "'" ++ l.data ++ "'"
  | .string .block, some layout => layout.verbatim
  | _, _ => l.data

end Lexeme

/-- A lexeme with its place and the fodder in front of it.  `block` is the layout of a text
    block. -/
structure Token extends Lexeme where
  block : Option TextBlock := none
  fodder : List Fodder := []
  span : Span
deriving DecidableEq, Repr

namespace Token

/-- The token as it stands in a source, without its fodder. -/
def sourceText (t : Token) : String := t.toLexeme.sourceText t.block

/-- The fodder of a token followed by the token itself. -/
def fullText (t : Token) : String := String.join (t.fodder.map Fodder.data) ++ t.sourceText

/-- Whether the token is the operator `symbol`. -/
def isOperator (t : Token) (symbol : String) : Bool := t.kind == .operator && t.data == symbol

end Token

/-- The source text that a list of tokens was read from. -/
def reconstruct (tokens : List Token) : String := String.join (tokens.map Token.fullText)

end JsonnetSyntax
