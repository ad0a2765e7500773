import JsonnetSyntax.Position

/-!
# Cursors

A `Cursor` reads a text character by character.  It knows its place in lines and columns, and it can
step back once after a step forward.  `Cursor.perform` answers any call; a call that fails does not
end the use of the cursor.
-/

namespace JsonnetSyntax

/-- A place in a text: how many characters stand in front of it, its line, and how many characters
    stand in front of that line. -/
structure Mark where
  offset : Nat := 0
  line : Nat := 1
  lineStart : Nat := 0
deriving DecidableEq, Repr

namespace Mark

/-- The place behind a character. -/
def step (m : Mark) (c : Char) : Mark :=
  if c = '\n' then ⟨m.offset + 1, m.line + 1, m.offset + 1⟩ else { m with offset := m.offset + 1 }

/-- The line and column of a place. -/
def position (m : Mark) : Position := ⟨m.line, m.offset - m.lineStart + 1⟩

end Mark

/-- Why a cursor cannot do what it is asked to. -/
inductive CursorFault where
  | noStepBack | noPreviousPosition | sliceOutOfRange
deriving DecidableEq, Repr

namespace CursorFault

/-- The wording of a fault. -/
def message : CursorFault → String
  | noStepBack => "step_back called with no valid previous rune"
  | noPreviousPosition => "prev_location called with no valid previous rune"
  | sliceOutOfRange => "slice"

end CursorFault

/-- A place in a text, and the place before the last step unless that was taken back. -/
structure Cursor where
  text : Array Char
  current : Mark := {}
  previous : Option Mark := none
deriving DecidableEq, Repr

namespace Cursor

/-- The cursor at the start of a text. -/
def ofString (source : String) : Cursor := { text := source.toList.toArray }

/-- Reads the next character.  At the end of the text the cursor stays, but the step can be taken
    back all the same. -/
def advance (c : Cursor) : Option Char × Cursor :=
  match c.text[c.current.offset]? with
  -- A step at the end of the text stays in place, and is remembered like any other.
  | none => (none, { c with previous := some c.current })
  | some char =>
    (some char,
      { c with
        current := c.current.step char
        previous := some c.current })

/-- A step reads the character at the offset. -/
theorem advance_fst (c : Cursor) : c.advance.1 = c.text[c.current.offset]? := by
  unfold advance
  split
  · next hnone => exact hnone.symm
  · next hsome => exact hsome.symm

/-- Takes the last step back.  That works once, and only after a step. -/
def stepBack (c : Cursor) : Except CursorFault Cursor :=
  match c.previous with
  | none => .error .noStepBack
  | some mark => .ok { c with current := mark, previous := none }

/-- A step can always be taken back.  That leads to the place where it started. -/
theorem stepBack_advance (c : Cursor) : c.advance.2.stepBack = .ok { c with previous := none } := by
  unfold advance
  split <;> rfl

/-- The next character, which stays unread: a step is made and taken back.  A step before it can no
    longer be taken back. -/
def peek (c : Cursor) : Option Char × Cursor :=
  match c.advance.2.stepBack with
  | .ok back => (c.advance.1, back)
  | .error _ => c.advance

/-- Looking ahead reads as a step does, and only gives up the step back. -/
theorem peek_eq (c : Cursor) : c.peek = (c.advance.1, { c with previous := none }) := by
  rw [peek, stepBack_advance]

/-- Reads `n` characters, or fewer if the text ends: one step there is as good as many. -/
def skip (c : Cursor) : Nat → Cursor
  | 0 => c
  -- Further steps at the end of the text would change nothing, however many are asked for.
  | n + 1 => if c.text.size ≤ c.current.offset then c.advance.2 else c.advance.2.skip n

/-- A step at the end of the text moves nothing. -/
theorem advance_of_size_le {c : Cursor} (h : c.text.size ≤ c.current.offset) :
    c.advance = (none, { c with previous := some c.current }) := by
  simp [advance, Array.getElem?_eq_none h]

/-- Reading `n + 1` characters is a step and reading `n` more. -/
theorem skip_succ (c : Cursor) (n : Nat) : c.skip (n + 1) = c.advance.2.skip n := by
  rw [skip]
  split
  -- At the end of the text, one step has the effect of any number of them.
  · next h =>
    cases n with
    | zero => rfl
    | succ n =>
      have hnext : c.advance.2.text.size ≤ c.advance.2.current.offset := by
        rw [advance_of_size_le h]
        exact h
      rw [skip, if_pos hnext, advance_of_size_le hnext, advance_of_size_le h]
  · rfl

/-- The position in front of the last step. -/
def previousPosition (c : Cursor) : Except CursorFault Position :=
  match c.previous with
  | none => .error .noPreviousPosition
  | some mark => .ok mark.position

/-- The text that is not read yet. -/
def rest (c : Cursor) : List Char := c.text.toList.drop c.current.offset

/-- Whether the text that is not read yet starts with `front`. -/
def restStartsWith (c : Cursor) (front : String) : Bool := front.toList.isPrefixOf c.rest

/-- The characters from offset `start` up to offset `stop` of the whole text. -/
def slice (c : Cursor) (start stop : Nat) : Except CursorFault (List Char) :=
  if start ≤ stop ∧ stop ≤ c.text.size then .ok ((c.text.toList.take stop).drop start)
  else .error .sliceOutOfRange

/-! ## Calls -/

/-- What a cursor can be asked to do, or to tell. -/
inductive Call where
  | advance | peek | stepBack
  | skip (n : Nat)
  | offset | position | previousPosition | rest
  | restStartsWith (front : String)
  | slice (start stop : Nat)
deriving DecidableEq, Repr

/-- What a cursor answers. -/
inductive Reply where
  | done
  | char (c : Option Char)
  | count (n : Nat)
  | position (p : Position)
  | text (chars : List Char)
  | truth (holds : Bool)
deriving DecidableEq, Repr

/-- Answers a call.  A call that fails leaves the cursor as it is. -/
def perform (c : Cursor) : Call → Except CursorFault Reply × Cursor
  | .advance => (.ok (.char c.advance.1), c.advance.2)
  | .peek => (.ok (.char c.peek.1), c.peek.2)
  | .stepBack =>
    match c.stepBack with
    | .ok back => (.ok .done, back)
    | .error fault => (.error fault, c)
  | .skip n => (.ok .done, c.skip n)
  | .offset => (.ok (.count c.current.offset), c)
  | .position => (.ok (.position c.current.position), c)
  | .previousPosition => (c.previousPosition.map .position, c)
  | .rest => (.ok (.text c.rest), c)
  | .restStartsWith front => (.ok (.truth (c.restStartsWith front)), c)
  | .slice start stop => ((c.slice start stop).map .text, c)

/-- The cursor after a row of calls, also where some of them fail. -/
def run (c : Cursor) (calls : List Call) : Cursor :=
  calls.foldl (fun c call => (c.perform call).2) c

end Cursor

end JsonnetSyntax
