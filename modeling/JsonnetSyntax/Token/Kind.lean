/-!
# Kinds of tokens

The vocabulary of the language: punctuation marks, keywords and the three ways to write a string.  A
`TokenKind` has a name, used where tokens are dumped, and a text, used where a message speaks of it.
-/

namespace JsonnetSyntax

/-- Punctuation marks, each one character long. -/
inductive Punct where
  | braceL | braceR | bracketL | bracketR | comma | dollar | dot | parenL | parenR | semicolon
deriving DecidableEq, Repr

namespace Punct

/-- All punctuation marks. -/
def all : List Punct :=
  [braceL, braceR, bracketL, bracketR, comma, dollar, dot, parenL, parenR, semicolon]

/-- The character that a mark is written with. -/
def char : Punct → Char
  | braceL => '\x7b'
  | braceR => '\x7d'
  | bracketL => '['
  | bracketR => ']'
  | comma => ','
  | dollar => '$'
  | dot => '.'
  | parenL => '('
  | parenR => ')'
  | semicolon => ';'

/-- The mark written with the character `c`. -/
def ofChar? (c : Char) : Option Punct := all.find? fun mark => mark.char == c

/-- The name under which a mark is dumped. -/
def name : Punct → String
  | braceL => "BraceL"
  | braceR => "BraceR"
  | bracketL => "BracketL"
  | bracketR => "BracketR"
  | comma => "Comma"
  | dollar => "Dollar"
  | dot => "Dot"
  | parenL => "ParenL"
  | parenR => "ParenR"
  | semicolon => "Semicolon"

end Punct

/-- Words that cannot be used as identifiers. -/
inductive Keyword where
  | assert | «else» | error | «false» | «for» | function | «if» | «import» | importstr | «in»
  | «local» | null | self | super | tailstrict | «then» | «true»
deriving DecidableEq, Repr

namespace Keyword

/-- All keywords. -/
def all : List Keyword :=
  [.assert, .else, .error, .false, .for, .function, .if, .import, .importstr, .in, .local, .null,
    .self, .super, .tailstrict, .then, .true]

/-- The word itself. -/
def spelling : Keyword → String
  | .assert => "assert"
  | .else => "else"
  | .error => "error"
  | .false => "false"
  | .for => "for"
  | .function => "function"
  | .if => "if"
  | .import => "import"
  | .importstr => "importstr"
  | .in => "in"
  | .local => "local"
  | .null => "null"
  | .self => "self"
  | .super => "super"
  | .tailstrict => "tailstrict"
  | .then => "then"
  | .true => "true"

/-- The keyword spelled `word`. -/
def ofSpelling? (word : String) : Option Keyword :=
  all.find? fun keyword => keyword.spelling == word

/-- The name under which a keyword is dumped. -/
def name : Keyword → String
  | .assert => "Assert"
  | .else => "Else"
  | .error => "Error"
  | .false => "False"
  | .for => "For"
  | .function => "Function"
  | .if => "If"
  | .import => "Import"
  | .importstr => "ImportStr"
  | .in => "In"
  | .local => "Local"
  | .null => "Null"
  | .self => "SelfRef"
  | .super => "Super"
  | .tailstrict => "TailStrict"
  | .then => "Then"
  | .true => "True"

end Keyword

/-- The ways to write a string: between double quotes, between single quotes, as a text block. -/
inductive StringForm where
  | double | single | block
deriving DecidableEq, Repr

namespace StringForm

/-- All string forms. -/
def all : List StringForm := [double, single, block]

/-- The name under which a string form is dumped. -/
def name : StringForm → String
  | double => "Double"
  | single => "Single"
  | block => "Block"

end StringForm

/-- What a token is, apart from its text. -/
inductive TokenKind where
  | punct (mark : Punct)
  | identifier
  | number
  | operator
  | string (form : StringForm)
  | keyword (word : Keyword)
  | endOfFile
deriving DecidableEq, Repr

namespace TokenKind

/-- All token kinds. -/
def all : List TokenKind :=
  Punct.all.map punct ++ [identifier, number, operator] ++ StringForm.all.map string ++
    Keyword.all.map keyword ++ [endOfFile]

/-- The name under which a token kind is dumped. -/
def name : TokenKind → String
  | punct mark => mark.name
  | identifier => "Identifier"
  | number => "Number"
  | operator => "Operator"
  | string form => "String" ++ form.name
  | keyword word => word.name
  | endOfFile => "EndOfFile"

/-- The kind that is dumped under `name`. -/
def ofName? (name : String) : Option TokenKind := all.find? fun kind => kind.name == name

/-- How a message speaks of a kind: marks stand in double quotes, keywords as they are. -/
def text : TokenKind → String
  | punct mark => "\"" ++ mark.char.toString ++ "\""
  | identifier => "IDENTIFIER"
  | number => "NUMBER"
  | operator => "OPERATOR"
  | string .double => "STRING_DOUBLE"
  | string .single => "STRING_SINGLE"
  | string .block => "STRING_BLOCK"
  | keyword word => word.spelling
  | endOfFile => "end of file"

/-- Whether the kind is that of a keyword. -/
def isKeyword : TokenKind → Bool
  | keyword _ => true
  | _ => false

/-- The kind of a word: a keyword if it is spelled like one, an identifier otherwise. -/
def ofWord (word : String) : TokenKind :=
  match Keyword.ofSpelling? word with
  | some reserved => keyword reserved
  | none => identifier

end TokenKind

end JsonnetSyntax
