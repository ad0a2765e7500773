/-!
# Operators

The unary and binary operators with their symbols and precedences, and the visibility of object
fields, which is written with colons.  Smaller precedences bind tighter.
-/

namespace JsonnetSyntax

/-- How loosely an operator binds: smaller numbers bind tighter. -/
abbrev Precedence := Nat

namespace Precedence

/-- Application, indexing and object extension. -/
def application : Precedence := 2

/-- Unary operators. -/
def unary : Precedence := 4

/-- Whole expressions, with all operators. -/
def loosest : Precedence := 16

end Precedence

/-- Operators in front of one operand. -/
inductive UnaryOp where
  | not | bitwiseNot | plus | minus
deriving DecidableEq, Repr

namespace UnaryOp

/-- All unary operators. -/
def all : List UnaryOp := [not, bitwiseNot, plus, minus]

/-- The symbol of an operator. -/
def symbol : UnaryOp → String
  | not => "!"
  | bitwiseNot => "~"
  | plus => "+"
  | minus => "-"

/-- The operator with a symbol. -/
def ofSymbol? (text : String) : Option UnaryOp := all.find? fun op => op.symbol == text

/-- The name under which an operator is dumped. -/
def name : UnaryOp → String
  | not => "Not"
  | bitwiseNot => "BitwiseNot"
  | plus => "Plus"
  | minus => "Minus"

end UnaryOp

/-- Operators between two operands. -/
inductive BinaryOp where
  | mult | div | percent | plus | minus | shiftL | shiftR | greater | greaterEq | less | lessEq
  | equal | unequal | bitwiseAnd | bitwiseXor | bitwiseOr | and | or
deriving DecidableEq, Repr

namespace BinaryOp

/-- All binary operators. -/
def all : List BinaryOp :=
  [mult, div, percent, plus, minus, shiftL, shiftR, greater, greaterEq, less, lessEq, equal,
    unequal, bitwiseAnd, bitwiseXor, bitwiseOr, and, or]

/-- The symbol of an operator. -/
def symbol : BinaryOp → String
  | mult => "*"
  | div => "/"
  | percent => "%"
  | plus => "+"
  | minus => "-"
  | shiftL => "<<"
  | shiftR => ">>"
  | greater => ">"
  | greaterEq => ">="
  | less => "<"
  | lessEq => "<="
  | equal => "=="
  | unequal => "!="
  | bitwiseAnd => "&"
  | bitwiseXor => "^"
  | bitwiseOr => "|"
  | and => "&&"
  | or => "||"

/-- The operator with a symbol. -/
def ofSymbol? (text : String) : Option BinaryOp := all.find? fun op => op.symbol == text

/-- The name under which an operator is dumped. -/
def name : BinaryOp → String
  | mult => "Mult"
  | div => "Div"
  | percent => "Percent"
  | plus => "Plus"
  | minus => "Minus"
  | shiftL => "ShiftL"
  | shiftR => "ShiftR"
  | greater => "Greater"
  | greaterEq => "GreaterEq"
  | less => "Less"
  | lessEq => "LessEq"
  | equal => "ManifestEqual"
  | unequal => "ManifestUnequal"
  | bitwiseAnd => "BitwiseAnd"
  | bitwiseXor => "BitwiseXor"
  | bitwiseOr => "BitwiseOr"
  | and => "And"
  | or => "Or"

/-- How loosely an operator binds. -/
def precedence : BinaryOp → Precedence
  | mult | div | percent => 5
  | plus | minus => 6
  | shiftL | shiftR => 7
  | greater | greaterEq | less | lessEq => 8
  | equal | unequal => 9
  | bitwiseAnd => 10
  | bitwiseXor => 11
  | bitwiseOr => 12
  | and => 13
  | or => 14

end BinaryOp

/-- Whether a field shows up in the output: as the field it overrides does, never, or always. -/
inductive Visibility where
  | inherit | hidden | visible
deriving DecidableEq, Repr

namespace Visibility

/-- All visibilities. -/
def all : List Visibility := [inherit, hidden, visible]

/-- The colons that a visibility is written with. -/
def colons : Visibility → String
  | inherit => ":"
  | hidden => "::"
  | visible => ":::"

/-- The visibility written with some colons. -/
def ofColons? (text : String) : Option Visibility :=
  all.find? fun visibility => visibility.colons == text

/-- The name under which a visibility is dumped. -/
def name : Visibility → String
  | inherit => "Inherit"
  | hidden => "Hidden"
  | visible => "Visible"

end Visibility

end JsonnetSyntax
