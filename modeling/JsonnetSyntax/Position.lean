/-!
# Positions in a source text

A `Position` names a place between two characters of a text by its line and its column, both counted
from 1 in characters.  `Position.after` is the position reached by reading a text, and
`Position.after_append` says that reading can be split anywhere: every place the library reports is
computed through it.
-/

namespace JsonnetSyntax

/-- A place in a text: a line and a column, both counted from 1.  Line 0 stands for no place. -/
structure Position where
  line : Nat
  column : Nat
deriving DecidableEq, Repr, Inhabited

namespace Position

/-- The place before the first character of a text. -/
def origin : Position := ⟨1, 1⟩

/-- The position of something that stands nowhere in a text. -/
def unset : Position := ⟨0, 0⟩

/-- Whether the position is a place in a text. -/
def isSet (p : Position) : Bool := p.line != 0

/-- The place one character further: a line feed starts the next line, any other character is one
    column wide. -/
def advance (p : Position) (c : Char) : Position :=
  if c = '\n' then ⟨p.line + 1, 1⟩ else ⟨p.line, p.column + 1⟩

/-- The place reached by reading `text` from `p`. -/
def after (p : Position) (text : List Char) : Position := text.foldl advance p

/-- The written form `line:column`. -/
def render (p : Position) : String := s!"{p.line}:{p.column}"

/-- Reading nothing leads nowhere. -/
@[simp] theorem after_nil (p : Position) : p.after [] = p := rfl

/-- Reading a text is reading its first character and then the others. -/
@[simp] theorem after_cons (p : Position) (c : Char) (text : List Char) :
    p.after (c :: text) = (p.advance c).after text := rfl

/-- Reading two texts in turn leads where reading them joined leads. -/
@[simp] theorem after_append (p : Position) (first second : List Char) :
    p.after (first ++ second) = (p.after first).after second :=
  List.foldl_append

end Position

end JsonnetSyntax
