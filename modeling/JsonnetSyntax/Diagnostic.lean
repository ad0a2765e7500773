import JsonnetSyntax.Fault

/-!
# Diagnostics

A `Diagnostic` is what a reader is told about a fault.  `Diagnostic.render` shows it below the line
of the source it speaks of, with carets under the marked columns.
-/

namespace JsonnetSyntax

/-- A message about a place in a file, with an optional hint. -/
structure Diagnostic where
  stage : Stage
  message : String
  span : Span
  help : Option String := none
deriving DecidableEq, Repr

/-- The diagnostic of an error, without a hint. -/
def Error.toDiagnostic (e : Error) : Diagnostic := ⟨e.fault.stage, e.fault.message, e.span, none⟩

/-- The place and the wording of an error on one line. -/
def Error.display (e : Error) : String := e.span.render ++ " " ++ e.fault.message

/-- Line `index`, counted from 0, of a text whose lines end in a line feed or in a carriage return
    and a line feed; past the last line it is empty. -/
def lineOf (text : List Char) : Nat → List Char
  | 0 =>
    let line := text.takeWhile (· != '\n')
    -- Only a carriage return in front of a line feed is part of the line's end.
    if line.length < text.length && line.getLast? == some '\r' then line.dropLast else line
  | index + 1 => if text.isEmpty then [] else lineOf ((text.dropWhile (· != '\n')).drop 1) index

namespace Diagnostic

/-- The place and the message on one line. -/
def display (d : Diagnostic) : String := d.span.render ++ " " ++ d.message

/-- Adds a hint. -/
def withHelp (d : Diagnostic) (help : String) : Diagnostic := { d with help := some help }

/-- What stands in front of the carets: `columns` blanks, a tab wherever `line` has one. -/
def caretPadding (line : List Char) (columns : Nat) : List Char :=
  let copied := (line.take columns).map fun c => if c = '\t' then '\t' else ' '
  -- Past the end of the line there are blanks only.
  copied ++ List.replicate (columns - copied.length) ' '

/-- The number of carets: the width of a span within one line, else a single one. -/
def caretWidth (s : Span) : Nat :=
  if s.stop.line = s.start.line ∧ s.start.column < s.stop.column then
    s.stop.column - s.start.column
  else 1

/-- The number of a line, at least three characters wide. -/
def gutter (line : Nat) : String :=
  let digits := toString line
  "".pushn ' ' (3 - digits.length) ++ digits

/-- The source line that a span starts in, and the carets below it. -/
def excerpt (s : Span) (source : String) : String :=
  let line := lineOf source.toList (s.start.line - 1)
  "   |\n" ++
    gutter s.start.line ++ " | " ++ String.ofList line ++ "\n" ++
    "   | " ++ String.ofList (caretPadding line (s.start.column - 1)) ++
    "".pushn '^' (caretWidth s) ++ "\n"

/-- The full report on the text `source` of a file: code and message, the place with an excerpt if
    it is known, and the hint.  The file is called `file` whatever the span says. -/
def render (d : Diagnostic) (file source : String) : String :=
  "error[" ++ d.stage.code ++ "]: " ++ d.message ++ "\n" ++
    (if d.span.isSet then
      "  --> " ++ file ++ ":" ++ d.span.renderWithoutFile ++ "\n" ++ excerpt d.span source
    else "  --> " ++ file ++ "\n") ++
    d.help.elim "" fun help => "\nhelp: " ++ help ++ "\n"

end Diagnostic

end JsonnetSyntax
