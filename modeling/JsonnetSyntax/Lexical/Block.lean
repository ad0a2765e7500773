import JsonnetSyntax.Fault

/-!
# Text blocks

A text block is written between two lines of bars.  The blanks in front of its first line that is
not empty are its indent; every line has to start with it, apart from empty lines, and the first
line that does not closes the block: it holds blanks and then the bars.

`BlockLayout` is that structure.  It has two views: `content`, the text that the block stands for,
and `verbatim`, the block as it is written.  Main statement: `Block.scan_eq_append`, a scanned
layout written out and the rest make up the input.
-/

namespace JsonnetSyntax

/-- A line of a text block: an empty one, or one with a content behind the indent. -/
inductive BlockLine where
  | empty
  | text (content : List Char)
deriving DecidableEq, Repr

namespace BlockLine

/-- The line in the content of its block. -/
def content : BlockLine → List Char
  | empty => ['\n']
  | text content => content ++ ['\n']

/-- The line as it is written. -/
def written (indent : List Char) : BlockLine → List Char
  | empty => ['\n']
  | text content => indent ++ content ++ ['\n']

end BlockLine

/-- The parts of a text block. -/
structure BlockLayout where
  indent : List Char
  lines : List BlockLine
  closingIndent : List Char
deriving DecidableEq, Repr

namespace BlockLayout

/-- The bars and the line feed that open a block. -/
def opening : List Char := ['|', '|', '|', '\n']

/-- The bars that close a block. -/
def closing : List Char := ['|', '|', '|']

/-- The text that a block stands for. -/
def content (layout : BlockLayout) : List Char := layout.lines.flatMap BlockLine.content

/-- The block as it is written. -/
def verbatim (layout : BlockLayout) : List Char :=
  opening ++ layout.lines.flatMap (BlockLine.written layout.indent) ++ layout.closingIndent ++
    closing

end BlockLayout

namespace Block

/-- The characters that an indent is made of. -/
def isIndent (c : Char) : Bool := c == ' ' || c == '\t'

/-- The characters that may stand in front of the closing bars. -/
def isClosingIndent (c : Char) : Bool := c == ' ' || c == '\t' || c == '\r'

/-- The blanks in front of the first line that is not empty. -/
def indentOf (text : List Char) : List Char := (text.dropWhile (· == '\n')).takeWhile isIndent

/-- A line behind its indentation is what follows the indentation in the text. -/
private theorem append_of_isPrefixOf? {indent text line : List Char}
    (h : indent.isPrefixOf? text = some line) : indent ++ line = text := by
  induction indent generalizing text with
  | nil =>
    change some text = some line at h
    simpa using h.symm
  | cons c indent ih =>
    cases text with
    | nil =>
      change none = some line at h
      cases h
    | cons d text =>
      change (if c == d then indent.isPrefixOf? text else none) = some line at h
      split at h
      · next heq => simp [ih h, eq_of_beq heq]
      · cases h

/-- Reads lines that are empty or start with `indent`, behind the lines `seen`, kept in reverse.
    The text may not end inside a line. -/
def linesFrom (indent : List Char) (seen : List BlockLine) (text : List Char) :
    Except BlockFault (List BlockLine × List Char) :=
  match text with
  -- An empty line needs no indent.
  | '\n' :: rest => linesFrom indent (.empty :: seen) rest
  | text =>
    match _h : indent.isPrefixOf? text with
    | none => .ok (seen.reverse, text)
    | some line =>
      match _hrest : line.dropWhile (· != '\n') with
      -- The text has ended in front of the line feed.
      | [] => .error .endsInLine
      | _ :: rest => linesFrom indent (.text (line.takeWhile (· != '\n')) :: seen) rest
termination_by text.length
decreasing_by
  · simp
  · have hline := append_of_isPrefixOf? _h
    have hlength := (List.dropWhile_suffix (l := line) (· != '\n')).length_le
    rw [_hrest] at hlength
    simp at hlength
    rw [← hline]
    simp
    omega

/-- Reads the block whose opening stands in front of `text`. -/
def scan (text : List Char) : Except BlockFault (BlockLayout × List Char) := do
  let indent := indentOf text
  if indent = [] then throw .noIndent
  let (lines, rest) ← linesFrom indent [] text
  let closingIndent := rest.takeWhile isClosingIndent
  match BlockLayout.closing.isPrefixOf? (rest.dropWhile isClosingIndent) with
  | none => throw .notClosed
  | some rest => return (⟨indent, lines, closingIndent⟩, rest)

/-! ## Nothing is lost -/

/-- The lines read so far, written out, and the text that is left make up the input. -/
theorem linesFrom_eq_append {indent text rest : List Char} {seen lines : List BlockLine}
    (h : linesFrom indent seen text = .ok (lines, rest)) :
    lines.flatMap (BlockLine.written indent) ++ rest =
      seen.reverse.flatMap (BlockLine.written indent) ++ text := by
  fun_induction linesFrom indent seen text with
  | case1 seen text ih => simpa [BlockLine.written] using ih h
  | case2 seen text _ _ => cases h; rfl
  | case3 seen text _ line _ _ => cases h
  | case4 seen text _ line hindent c after hafter ih =>
    have split := List.takeWhile_append_dropWhile (p := (· != '\n')) (l := line)
    have newline : c = '\n' := by
      have := List.head?_dropWhile_not (· != '\n') line
      simpa [hafter] using this
    -- The line stands behind the indent, and the line feed behind the line.
    rw [ih h, ← append_of_isPrefixOf? hindent]
    conv => rhs; rw [← split, hafter]
    simp [BlockLine.written, newline]

/-- A scanned text block, written out behind its opening, and the rest make up the input. -/
theorem scan_eq_append {text rest : List Char} {layout : BlockLayout}
    (h : scan text = .ok (layout, rest)) :
    layout.verbatim ++ rest = BlockLayout.opening ++ text := by
  unfold scan at h
  simp only [bind, Except.bind, pure, Except.pure, throw, throwThe, MonadExceptOf.throw] at h
  split at h
  · cases h
  · split at h
    · cases h
    · next pair hlines =>
      obtain ⟨lines, after⟩ := pair
      simp only at h
      split at h
      · cases h
      · next tail hclosing =>
        cases h
        have written := linesFrom_eq_append hlines
        have closing := append_of_isPrefixOf? hclosing
        have split := List.takeWhile_append_dropWhile (p := isClosingIndent) (l := after)
        simp only [BlockLayout.verbatim, List.append_assoc, closing, split, written]
        rfl

end Block

end JsonnetSyntax
