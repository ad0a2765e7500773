import JsonnetSyntax.Token.Basic

/-!
# Faults

What can be wrong with a source text.  A `LexicalFault` stops the cutting of a text into tokens, a
`GrammarFault` stops the building of a tree.  Each names its cause; `message` is its wording.  An
`Error` is a fault with the place it is reported at.
-/

namespace JsonnetSyntax

/-- The part of a number after which a digit is missing. -/
inductive NumeralPart where
  | point | exponentMark | exponentSign
deriving DecidableEq, Repr

namespace NumeralPart

/-- How a message speaks of the part. -/
def text : NumeralPart → String
  | point => "decimal point"
  | exponentMark => "'E'"
  | exponentSign => "exponent sign"

end NumeralPart

/-- Why a text block cannot be read. -/
inductive BlockFault where
  | noIndent | endsInLine | notClosed
deriving DecidableEq, Repr

namespace BlockFault

/-- The wording of a fault in a text block. -/
def message : BlockFault → String
  | noIndent => "Text block's first line must start with whitespace"
  | endsInLine => "Unexpected EOF"
  | notClosed => "Text block not terminated with |||"

end BlockFault

/-- Why no token can be cut off a text. -/
inductive LexicalFault where
  /-- No token starts with the character. -/
  | strayCharacter (c : Char)
  /-- A digit has to follow `part`, but `found` does; `none` is the end of the text. -/
  | brokenNumber (part : NumeralPart) (found : Option Char)
  | openString
  | openComment
  | badBlock (fault : BlockFault)
deriving DecidableEq, Repr

namespace LexicalFault

/-- The wording of a lexical fault. -/
def message : LexicalFault → String
  | strayCharacter c => "Could not lex the character " ++ c.toString
  | brokenNumber part found =>
    "Couldn't lex number, junk after " ++ part.text ++ ": '" ++ (found.elim "EOF" Char.toString) ++
      "'"
  | openString => "Unterminated String"
  | openComment => "Multi-line comment has no terminating */"
  | badBlock fault => fault.message

end LexicalFault

/-- The things that commas separate. -/
inductive ListItem where
  | argument | functionParameter | methodParameter | element | field
deriving DecidableEq, Repr

namespace ListItem

/-- How a message speaks of the item. -/
def text : ListItem → String
  | argument => "function argument"
  | functionParameter => "function parameter"
  | methodParameter => "method parameter"
  | element => "array element"
  | field => "field"

end ListItem

/-- Why the members in front of `for` are not those of an object comprehension. -/
inductive ComprehensionFault where
  | assertion | notOneField | hiddenField | fixedKey
deriving DecidableEq, Repr

namespace ComprehensionFault

/-- The wording of a fault in an object comprehension. -/
def message : ComprehensionFault → String
  | assertion => "Object comprehension cannot have asserts."
  | notOneField => "Object comprehension can only have one field."
  | hiddenField => "Object comprehensions cannot have hidden fields."
  | fixedKey => "Object comprehensions can only have [e] fields."

end ComprehensionFault

/-- Why tokens do not form a program. -/
inductive GrammarFault where
  /-- Expressions are nested more than `limit` levels deep. -/
  | tooDeep (limit : Nat)
  /-- A token follows the whole program. -/
  | leftover (found : Lexeme)
  | notBinary (symbol : String)
  | notUnary (symbol : String)
  | expectedKind (expected : TokenKind) (found : Lexeme)
  | expectedOperator (symbol : String) (found : Lexeme)
  | expectedParameters (found : Lexeme)
  | expectedBindingEnd (found : Lexeme)
  | expectedClauseEnd (closing : TokenKind) (found : Lexeme)
  | expectedAssignment (symbol : String)
  | missingComma (item : ListItem)
  /-- An expression stands where a name is needed. -/
  | notAName
  /-- No expression starts with the token. -/
  | noOperand (found : Lexeme)
  /-- No member of an object starts with the token. -/
  | noMember (found : Lexeme)
  | unexpectedEnd
  | badNumber
  | bareSuper
  | computedImport
  | methodSugar (key : String)
  | duplicateField (name : String)
  | duplicateLocal (name : String)
  | badComprehension (fault : ComprehensionFault)
deriving DecidableEq, Repr

namespace GrammarFault

/-- The wording of a grammar fault. -/
def message : GrammarFault → String
  | tooDeep limit => s!"Exceeded maximum nesting depth of {limit}"
  | leftover found => "Did not expect: " ++ found.display
  | notBinary symbol => "Not a binary operator: " ++ symbol
  | notUnary symbol => "Not a unary operator: " ++ symbol
  | expectedKind expected found =>
    "Expected token " ++ expected.text ++ " but got " ++ found.display
  | expectedOperator symbol found => "Expected operator " ++ symbol ++ " but got " ++ found.display
  | expectedParameters found => "Expected ( but got " ++ found.display
  | expectedBindingEnd found => "Expected , or ; but got " ++ found.display
  | expectedClauseEnd closing found =>
    "Expected for, if or " ++ closing.text ++ " after for clause, got: " ++ found.display
  | expectedAssignment symbol => "Expected one of :, ::, :::, +:, +::, +:::, got: " ++ symbol
  | missingComma item => "Expected a comma before next " ++ item.text ++ "."
  | notAName => "Expected simple identifier but got a complex expression."
  | noOperand found => "Unexpected: " ++ found.display ++ " while parsing terminal"
  | noMember found => "Unexpected: " ++ found.display ++ " while parsing field definition"
  | unexpectedEnd => "Unexpected end of file."
  | badNumber => "Could not parse floating point number."
  | bareSuper => "Expected . or [ after super."
  | computedImport => "Computed imports are not allowed"
  | methodSugar key => "Cannot use +: syntax sugar in a method: " ++ key
  | duplicateField name => "Duplicate field: " ++ name
  | duplicateLocal name => "Duplicate local var: " ++ name
  | badComprehension fault => fault.message

end GrammarFault

/-- The two stages in which a source text can fail. -/
inductive Stage where
  | lex | parse
deriving DecidableEq, Repr

namespace Stage

/-- All stages. -/
def all : List Stage := [lex, parse]

/-- The name under which a stage is dumped. -/
def name : Stage → String
  | lex => "Lex"
  | parse => "Parse"

/-- The stage that is dumped under `name`. -/
def ofName? (name : String) : Option Stage := all.find? fun stage => stage.name == name

/-- The code of the errors of a stage. -/
def code : Stage → String
  | lex => "E_LEX"
  | parse => "E_PARSE"

end Stage

/-- What is wrong with a source text. -/
inductive Fault where
  | lexical (fault : LexicalFault)
  | grammar (fault : GrammarFault)
deriving DecidableEq, Repr

namespace Fault

/-- The stage that finds the fault. -/
def stage : Fault → Stage
  | lexical _ => .lex
  | grammar _ => .parse

/-- The wording of a fault. -/
def message : Fault → String
  | lexical fault => fault.message
  | grammar fault => fault.message

end Fault

/-- A fault and the place it is reported at. -/
structure Error where
  fault : Fault
  span : Span
deriving DecidableEq, Repr

end JsonnetSyntax
