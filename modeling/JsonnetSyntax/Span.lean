import JsonnetSyntax.Position

/-!
# Spans

A `Span` is the stretch of a named file between two positions.  `Span.render` is the form in which
spans appear in messages and dumps; `Span.renderRange` is the same form without the file, and
`Span.renderWithoutFile` gets it by cutting the file off the form with the file.
-/

namespace JsonnetSyntax

/-- The stretch of `file` from `start` up to `stop`. -/
structure Span where
  file : String
  start : Position
  stop : Position
deriving DecidableEq, Repr, Inhabited

/-- What stands in a text behind its first `count` bytes, unless one of its characters goes on
    there. -/
def textBehind? (text : String) (count : Nat) : Option String :=
  (text.pos? ⟨count⟩).map fun place => (text.sliceFrom place).copy

/-- Behind the bytes of its front, a text has its back, whatever the characters of the front are. -/
theorem textBehind?_append (front back : String) :
    textBehind? (front ++ back) front.utf8ByteSize = some back := by
  -- The front ends at a place between two characters, which splits the whole text there.
  have hvalid : (String.Pos.Raw.mk front.utf8ByteSize).IsValid (front ++ back) :=
    String.Pos.Raw.isValid_rawEndPos.append_right back
  have hplace : (front ++ back).pos? ⟨front.utf8ByteSize⟩ =
      some ((front ++ back).pos ⟨front.utf8ByteSize⟩ hvalid) := by
    have hslice := hvalid.toSlice
    simp [String.pos?, String.Slice.pos?, String.pos, hslice]
  have hsplits : ((front ++ back).pos ⟨front.utf8ByteSize⟩ hvalid).Splits front back :=
    String.Pos.splits_append_rawEndPos
  rw [textBehind?, hplace, Option.map_some, hsplits.copy_sliceFrom_eq]

namespace Span

/-- The empty span at one position. -/
def point (file : String) (p : Position) : Span := ⟨file, p, p⟩

/-- The span of something that stands nowhere in `file`. -/
def unset (file : String) : Span := point file .unset

/-- The span from the start of `first` to the end of `last`, in the file of `first`. -/
def between (first last : Span) : Span := ⟨first.file, first.start, last.stop⟩

/-- Whether the span stands in the text of its file. -/
def isSet (s : Span) : Bool := s.start.isSet

/-- The two positions without the file: `l:c` for a point, `l:c-c` within one line and
    `(l:c)-(l:c)` across lines. -/
def renderRange (s : Span) : String :=
  if s.start.line = s.stop.line then
    if s.start.column = s.stop.column then s.start.render
    else s!"{s.start.render}-{s.stop.column}"
  else s!"({s.start.render})-({s.stop.render})"

/-- The written form of a span: the file and the range, only the range if the file has no name, and
    only the file if the span is not set. -/
def render (s : Span) : String :=
  if s.isSet then
    if s.file.isEmpty then s.renderRange else s!"{s.file}:{s.renderRange}"
  else s.file

/-- The written form of a span that is set, less the bytes of the file's name and of the colon
    behind it. -/
def renderWithoutFile (s : Span) : String :=
  if s.file.isEmpty then s.render
  else (textBehind? s.render (s.file.utf8ByteSize + 1)).getD s.render

/-- Nothing but the range is left: the colon is one byte long, and the range starts behind it. -/
theorem renderWithoutFile_eq {s : Span} (h : s.isSet = true) :
    s.renderWithoutFile = s.renderRange := by
  unfold renderWithoutFile render
  rw [if_pos h]
  split
  · rfl
  · have hsize : (s.file ++ ":").utf8ByteSize = s.file.utf8ByteSize + 1 := by
      rw [String.utf8ByteSize_append]
      rfl
    have hcut := textBehind?_append (s.file ++ ":") s.renderRange
    have htext : s!"{s.file}:{s.renderRange}" = s.file ++ ":" ++ s.renderRange := rfl
    rw [htext, ← hsize, hcut, Option.getD_some]

/-- The range between two spans starts with the first of them. -/
@[simp] theorem between_start (first last : Span) : (between first last).start = first.start := rfl

/-- The range between two spans ends with the last of them. -/
@[simp] theorem between_stop (first last : Span) : (between first last).stop = last.stop := rfl

/-- The range between two spans is in the file of the first of them. -/
@[simp] theorem between_file (first last : Span) : (between first last).file = first.file := rfl

end Span

end JsonnetSyntax
