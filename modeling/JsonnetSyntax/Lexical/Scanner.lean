import JsonnetSyntax.Cursor
import JsonnetSyntax.Lexical.Tokens

/-!
# Scanning with a cursor

A `Scanner` makes tokens of a text while a cursor moves over it, character by character.  It has no
other view of the text than the cursor gives, and a step of it can be impossible: stepping back
twice, taking a slice that does not exist, or a subtraction below zero.  Such a step is a `Crash`,
which is told apart from a fault in the text.  A loop that goes round without reading anything is a
crash as well, so that every loop ends.

`Scanner.lex` is the lexer that works this way.
-/

namespace JsonnetSyntax

/-- A step that cannot be done. -/
inductive Crash where
  | cursor (fault : CursorFault)
  /-- A subtraction below zero. -/
  | underflow
  /-- A case that was thought impossible. -/
  | unreachable
  /-- A round of a loop that reads nothing. -/
  | stalled
deriving DecidableEq, Repr

/-- Why scanning stops before the end of the text. -/
inductive Halt where
  | crash (crash : Crash)
  | fault (error : Error)
deriving DecidableEq, Repr

/-- A cursor in a text, the tokens made so far with the fodder for the next one, and the place where
    the lexeme or fodder that is being read starts. -/
structure Scanner where
  file : String
  cursor : Cursor
  tokens : Array Token := #[]
  fodder : Array Fodder := #[]
  start : Nat := 0
  startPosition : Position := .origin

/-- A way to scan: it moves the scanner and gives a value, or it stops. -/
abbrev Scan (α : Type) := StateT Scanner (Except Halt) α

namespace Scan

/-! ## The cursor -/

/-- Stops at a step that cannot be done. -/
def crash {α : Type} (crash : Crash) : Scan α := throw (.crash crash)

/-- Stops at a fault in the text, reported at `position`. -/
def fail {α : Type} (fault : LexicalFault) (position : Position) : Scan α := do
  throw (.fault ⟨.lexical fault, .point (← get).file position⟩)

/-- Goes on with what the cursor answers. -/
def ofCursor {α : Type} : Except CursorFault α → Scan α
  | .ok value => pure value
  | .error fault => crash (.cursor fault)

/-- The difference of two numbers. -/
def sub (a b : Nat) : Scan Nat := if b ≤ a then pure (a - b) else crash .underflow

/-- Reads the next character. -/
def advance : Scan (Option Char) :=
  modifyGet fun s => (s.cursor.advance.1, { s with cursor := s.cursor.advance.2 })

/-- Takes the last step back. -/
def stepBack : Scan Unit := do
  let cursor ← ofCursor (← get).cursor.stepBack
  modify fun s => { s with cursor }

/-- The next character, which stays unread. -/
def peek : Scan (Option Char) := do
  let c ← advance
  stepBack
  return c

/-- Reads `n` characters. -/
def skip : Nat → Scan Unit
  | 0 => pure ()
  | n + 1 => do
    let _ ← advance
    skip n

/-- The line and column of a place. -/
def positionOf (mark : Mark) : Scan Position := do
  return ⟨mark.line, (← sub mark.offset mark.lineStart) + 1⟩

/-- The position of the next character. -/
def position : Scan Position := do positionOf (← get).cursor.current

/-- The position of the character that was read last. -/
def previousPosition : Scan Position := do
  match (← get).cursor.previous with
  | some mark => positionOf mark
  | none => crash (.cursor .noPreviousPosition)

/-- How many characters are read. -/
def offset : Scan Nat := return (← get).cursor.current.offset

/-- The text that is not read yet. -/
def rest : Scan (List Char) := return (← get).cursor.rest

/-- The text between two offsets. -/
def slice (start stop : Nat) : Scan (List Char) := do ofCursor ((← get).cursor.slice start stop)

/-! ## Loops -/

/-- How many characters the scanner has left. -/
def remaining (s : Scanner) : Nat := s.cursor.text.size - s.cursor.current.offset

/-- Does `round` from a state until it gives a result. -/
def runIterate {σ α : Type} (round : σ → Scan (σ ⊕ α)) (state : σ) (s : Scanner) :
    Except Halt (α × Scanner) :=
  match (round state).run s with
  | .error halt => .error halt
  | .ok (.inr result, after) => .ok (result, after)
  | .ok (.inl next, after) =>
    -- A round that reads nothing would be done again for ever.
    if remaining after < remaining s then runIterate round next after else .error (.crash .stalled)
termination_by remaining s

/-- Does `round` from a state until it gives a result.  Every round before that has to read
    something. -/
def iterate {σ α : Type} (round : σ → Scan (σ ⊕ α)) (state : σ) : Scan α := runIterate round state

/-- Reads a character that `p` holds of, behind those in `seen`; another one stays unread. -/
def readRound (p : Char → Bool) (seen : List Char) : Scan (List Char ⊕ List Char) := do
  match (← advance).filter p with
  | some c => return .inl (seen ++ [c])
  | none =>
    stepBack
    return .inr seen

/-- Reads the characters that `p` holds of, up to the first other one. -/
def readWhile (p : Char → Bool) : Scan (List Char) := iterate (readRound p) []

/-! ## Tokens and fodder -/

/-- What was read since the start of the lexeme. -/
def taken : Scan (List Char) := do slice (← get).start (← offset)

/-- Lets the next lexeme start at the cursor. -/
def restart : Scan Unit := do
  let offset ← offset
  let position ← position
  modify fun s => { s with start := offset, startPosition := position }

/-- Makes a token of what was read, with the fodder that waits for it. -/
def emitWith (content : Lexeme) (block : Option TextBlock) : Scan Unit := do
  let stop ← position
  modify fun s =>
    { s with
      tokens := s.tokens.push
        { toLexeme := content, block, fodder := s.fodder.toList,
          span := ⟨s.file, s.startPosition, stop⟩ }
      fodder := #[] }
  restart

/-- Makes a token of a kind whose data is what was read. -/
def emit (kind : TokenKind) : Scan Unit := do emitWith ⟨kind, String.ofList (← taken)⟩ none

/-- Appends whitespace to fodder: to its last element, if that is whitespace too. -/
def mergeWhitespace (fodder : Array Fodder) (data : String) : Array Fodder :=
  match fodder.back? with
  | some ⟨.whitespace, front⟩ => fodder.pop.push ⟨.whitespace, front ++ data⟩
  | _ => fodder.push ⟨.whitespace, data⟩

/-- Makes whitespace of what was read. -/
def addWhitespace : Scan Unit := do
  let data ← taken
  modify fun s => { s with fodder := mergeWhitespace s.fodder (String.ofList data) }
  restart

/-- Makes a comment of what was read. -/
def addComment (kind : FodderKind) : Scan Unit := do
  let data ← taken
  modify fun s => { s with fodder := s.fodder.push ⟨kind, String.ofList data⟩ }
  restart

/-! ## Words and strings -/

/-- Reads the rest of a word. -/
def word : Scan Unit := do
  let _ ← readWhile Piece.isWordChar
  emit (.ofWord (String.ofList (← taken)))

/-- Reads the next character, if there is one. -/
def escaped : Scan Unit := do
  match ← peek with
  -- The end of the text is reported by the next round.
  | none => pure ()
  | some _ => let _ ← advance

/-- Reads a character of a string, or its closing quote.  A backslash takes the next character with
    it. -/
def quotedRound (quote : Char) (_ : Unit) : Scan (Unit ⊕ Unit) := do
  match ← advance with
  | none => fail .openString (← get).startPosition
  | some c =>
    if c = quote then return .inr ()
    else if c = '\x5c' then
      escaped
      return .inl ()
    else return .inl ()

/-- Reads a string behind its opening quote. -/
def quoted (form : StringForm) (quote : Char) : Scan Unit := do
  let start ← offset
  iterate (quotedRound quote) ()
  -- The closing quote is read, and is no part of the content.
  let content ← slice start (← sub (← offset) 1)
  emitWith ⟨.string form, String.ofList content⟩ none

/-! ## Numbers -/

end Scan

/-- The places inside a number, behind its first digit. -/
inductive NumeralState where
  | zero | integer | point | fraction | exponentMark | exponentSign | exponent
deriving DecidableEq, Repr

namespace NumeralState

/-- Where the first character of a number leads. -/
def first? (c : Char) : Option NumeralState :=
  if c = '0' then some zero else if c.isDigit then some integer else none

/-- Where a character leads that may stand at a place. -/
def next? : NumeralState → Char → Option NumeralState
  | zero, c => if c = '.' then some point else if c = 'e' ∨ c = 'E' then some exponentMark else none
  | integer, c =>
    if c = '.' then some point else if c = 'e' ∨ c = 'E' then some exponentMark
    else if c.isDigit then some integer else none
  | point, c => if c.isDigit then some fraction else none
  | fraction, c =>
    if c = 'e' ∨ c = 'E' then some exponentMark else if c.isDigit then some fraction else none
  | exponentMark, c =>
    if c = '+' ∨ c = '-' then some exponentSign else if c.isDigit then some exponent else none
  | exponentSign, c => if c.isDigit then some exponent else none
  | exponent, c => if c.isDigit then some exponent else none

/-- The part of the number that lacks a digit, if it cannot end at a place. -/
def missing? : NumeralState → Option NumeralPart
  | zero | integer | fraction | exponent => none
  | point => some .point
  | exponentMark => some .exponentMark
  | exponentSign => some .exponentSign

end NumeralState

namespace Scan

/-- Reads a character of a number, or finds the end of it. -/
def numberRound (state : NumeralState) : Scan (NumeralState ⊕ Unit) := do
  let c ← advance
  match c.bind state.next? with
  | some next => return .inl next
  | none =>
    match state.missing? with
    -- The fault is at the character that breaks the number off, which is read already.
    | some part => fail (.brokenNumber part c) (← previousPosition)
    | none =>
      stepBack
      return .inr ()

/-- Reads a number. -/
def number : Scan Unit := do
  match (← advance).bind NumeralState.first? with
  | some state =>
    iterate numberRound state
    emit .number
  -- Only digits are sent here, so this case is never met.
  | none => crash .unreachable

/-! ## Comments, text blocks and operators -/

/-- Reads the rest of a comment that ends with its line. -/
def lineComment (kind : FodderKind) : Scan Unit := do
  let _ ← readWhile (· != '\n')
  addComment kind

/-- Reads a character of a comment, or the end of it. -/
def commentRound (_ : Unit) : Scan (Unit ⊕ Unit) := do
  match ← advance with
  | none => fail .openComment (← get).startPosition
  | some c =>
    if c = '*' then
      -- The character behind a star stays unread: it may be the star in front of the slash.
      if (← peek) = some '/' then
        let _ ← advance
        return .inr ()
      else return .inl ()
    else return .inl ()

/-- Reads a comment behind its slash. -/
def blockComment : Scan Unit := do
  -- The star behind the slash is only looked at so far.
  let _ ← advance
  iterate commentRound ()
  addComment .blockComment

/-- Reads a character of a line of a text block, behind the text `seen` of the line, or the end of
    the line. -/
def blockLineRound (seen : List Char) : Scan (List Char ⊕ List Char) := do
  match ← advance with
  | none => fail (.badBlock .endsInLine) (← get).startPosition
  | some c => if c = '\n' then return .inr seen else return .inl (seen ++ [c])

/-- Reads a line of a text block that starts with `indent`, and the empty lines behind it.  The
    content of the lines in front of it is `seen`. -/
def blockRound (indent seen : List Char) : Scan (List Char ⊕ List Char) := do
  skip indent.length
  let line ← iterate blockLineRound []
  let blank ← readWhile (· == '\n')
  let content := seen ++ line ++ '\n' :: blank
  -- The first line without the indent ends the rounds, whether it closes the block or not.
  if indent.isPrefixOf (← rest) then return .inl content else return .inr content

/-- Reads the end of a text block, the bars that close it included. -/
def closeBlock (indent content : List Char) : Scan Unit := do
  let closingIndent ← readWhile Block.isClosingIndent
  if BlockLayout.closing.isPrefixOf (← rest) then
    skip 3
    let verbatim ← taken
    emitWith ⟨.string .block, String.ofList content⟩
      (some ⟨String.ofList indent, String.ofList closingIndent, String.ofList verbatim⟩)
  else fail (.badBlock .notClosed) (← get).startPosition

/-- Reads a text block behind its first bar. -/
def textBlock : Scan Unit := do
  -- The two bars and the line feed behind the first bar.
  skip 3
  let blank ← readWhile (· == '\n')
  let indent := (← rest).takeWhile Block.isIndent
  if indent = [] then fail (.badBlock .noIndent) (← get).startPosition
  else closeBlock indent (← iterate (blockRound indent) blank)

/-- Takes the characters that are given back off a run in reverse, but not its last character. -/
def giveBack : List Char → List Char
  | c :: d :: run => if SymbolRun.isGivenBack c then giveBack (d :: run) else c :: d :: run
  | run => run

/-- Reads the operator that starts with `first`. -/
def operator (first : Char) : Scan Unit := do
  let run := giveBack (SymbolRun.reverseRun [first] (← rest))
  -- The first symbol is read already.
  skip (← sub run.length 1)
  emit .operator

/-- Reads what starts with a slash: a comment or an operator. -/
def slash : Scan Unit := do
  if (← peek) = some '/' then
    let _ ← advance
    lineComment .slashComment
  else if (← peek) = some '*' then blockComment
  else operator '/'

/-- Reads what starts with a bar: a text block or an operator. -/
def bar : Scan Unit := do
  if ['|', '|', '\n'].isPrefixOf (← rest) then textBlock else operator '|'

/-- Reads what starts with the symbol `first`. -/
def symbolic (first : Char) : Scan Unit :=
  if first = '/' then slash
  else if first = '#' then lineComment .hashComment
  else if first = '|' then bar
  else operator first

/-! ## Texts -/

/-- Reads what starts with an exclamation mark. -/
def negation : Scan Unit := do
  if (← peek) = some '=' then
    let _ ← advance
    emit .operator
  else emit .operator

/-- Reads what starts with a plus sign: with a colon behind it, it may be the start of a longer
    operator. -/
def plus : Scan Unit := do
  if (← peek) = some ':' then symbolic '+' else emit .operator

/-- Reads what starts with the character `c`, which is read already. -/
def lexeme (c : Char) : Scan Unit :=
  if Piece.isBlank c then addWhitespace
  else if let some mark := Punct.ofChar? c then emit (.punct mark)
  else if c = '!' then negation
  else if c = '+' then plus
  else if c = '~' ∨ c = '-' then emit .operator
  else if c.isDigit then do
    -- The places in a number count from its first digit, which is put back.
    stepBack
    number
  else if c = Piece.doubleQuote then quoted .double c
  else if c = Piece.singleQuote then quoted .single c
  else if Piece.isWordStart c then word
  else if SymbolRun.isSymbol c then symbolic c
  else do fail (.strayCharacter c) (← previousPosition)

/-- Reads a lexeme or fodder, unless the text ends. -/
def round (_ : Unit) : Scan (Unit ⊕ Unit) := do
  match ← advance with
  | none => return .inr ()
  | some c =>
    lexeme c
    return .inl ()

/-- Reads lexemes and fodder up to the end of the text. -/
def rounds : Scan Unit := iterate round ()

/-- Reads a whole text, and makes the token that marks its end. -/
def all : Scan Unit := do
  rounds
  emit .endOfFile

end Scan

namespace Scanner

/-- The scanner in front of a text. -/
def ofSource (file source : String) : Scanner := { file, cursor := .ofString source }

/-- The tokens of a source text, or why scanning stops. -/
def lex (file source : String) : Except Halt (List Token) := do
  let (_, s) ← Scan.all.run (ofSource file source)
  return s.tokens.toList

end Scanner

end JsonnetSyntax
