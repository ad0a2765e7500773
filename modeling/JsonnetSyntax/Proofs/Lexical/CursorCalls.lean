import JsonnetSyntax.Proofs.Lexical.Locations
import JsonnetSyntax.Proofs.Lexical.ScanSteps

/-!
# Cursors know their place

A cursor keeps two places, each with an offset, a line and the start of that line, and it updates
them step by step.  After any row of calls, in any order and with any failures among them, both can
be counted in the text: the cursor stands behind some part of the text, and a step that can be taken
back was made right in front of it, or at the end of the text.

## Key results

- `Mark.behind_eq_ofText`: a place, counted in the text in front of it
- `Cursor.Tracks.perform`: every call leads from a tracked place to a tracked place
- `Cursor.place_of_run`: what a cursor knows after a row of calls
-/

namespace JsonnetSyntax

/-! ## Places by counting -/

namespace Mark

/-- The place behind a text: its characters, its lines, and the characters in front of the last
    line. -/
def ofText (text : List Char) : Mark :=
  ⟨text.length, 1 + text.count '\n', text.length - (text.reverse.takeWhile (· != '\n')).length⟩

/-- One more character moves the place behind a text as it moves any place. -/
theorem ofText_concat (text : List Char) (c : Char) :
    ofText (text ++ [c]) = (ofText text).step c := by
  unfold step
  by_cases hc : c = '\n'
  · simp [ofText, hc, Nat.add_assoc]
  · -- The text and its last line get longer by the same character.
    simp [ofText, hc]

/-- The steps over a text lead to the place behind it. -/
theorem behind_eq_ofText (text : List Char) : behind text = ofText text := by
  -- By induction from the last character.
  induction text using List.reverseRecOn with
  | nil => rfl
  | append_singleton text c ih => rw [behind_concat, ih, ofText_concat]

/-- The place behind a text has the line and the column that are counted in it. -/
theorem position_ofText (text : List Char) : (ofText text).position = .ofText text := by
  rw [← behind_eq_ofText, position_behind, Position.origin_after]

end Mark

namespace Cursor

variable {source : List Char} {c : Cursor}

/-! ## The invariant -/

/-- The cursor stands behind a part of a text, and the step that can be taken back, if there is one,
    is the last one that led there. -/
inductive Tracks (source : List Char) : Cursor → Prop where
  | settled {before rest : List Char} (htext : before ++ rest = source) :
    Tracks source (between before rest none)
  /-- The last step read a character. -/
  | stepped {before rest : List Char} {char : Char} (htext : before ++ char :: rest = source) :
    Tracks source (between (before ++ [char]) rest (some (.behind before)))
  /-- The last step was made at the end of the text. -/
  | stayed : Tracks source (between source [] (some (.behind source)))

namespace Tracks

/-- A tracked cursor stands between two parts of the text. -/
theorem exists_between (h : Tracks source c) :
    ∃ before rest slot, before ++ rest = source ∧ c = between before rest slot := by
  cases h with
  | settled htext => exact ⟨_, _, _, htext, rfl⟩
  | @stepped before rest char htext =>
    rw [List.append_cons] at htext
    exact ⟨_, _, _, htext, rfl⟩
  | stayed => exact ⟨_, _, _, List.append_nil source, rfl⟩

/-- A new cursor stands at the start of its text. -/
theorem ofString (source : String) : Tracks source.toList (.ofString source) := by
  show Tracks source.toList (between [] source.toList none)
  exact settled (List.nil_append _)

/-- A step forward leads from a tracked place to a tracked place. -/
theorem advance (h : Tracks source c) : Tracks source c.advance.2 := by
  obtain ⟨before, rest, slot, htext, rfl⟩ := h.exists_between
  -- A step reads the next character, or it is made at the end.
  cases rest with
  | nil =>
    -- At the end of the text, the step fills the slot and moves nothing.
    rw [List.append_nil] at htext
    subst htext
    rw [advance_between_nil]
    exact stayed
  | cons char rest =>
    rw [advance_between_cons]
    exact stepped htext

/-- Without the step that can be taken back, the cursor stands where it stands. -/
theorem forget (h : Tracks source c) : Tracks source { c with previous := none } := by
  obtain ⟨before, rest, slot, htext, rfl⟩ := h.exists_between
  exact settled htext

/-- A step that is taken back leads to a tracked place. -/
theorem stepBack {back : Cursor} (h : Tracks source c) (hback : c.stepBack = .ok back) :
    Tracks source back := by
  cases h with
  | settled htext => exact nomatch hback
  | @stepped before rest char htext =>
    -- The character that was read last is unread again.
    have htarget : back = between before (char :: rest) none := by
      cases hback
      simp [between]
    rw [htarget]
    exact settled htext
  | stayed =>
    cases hback
    exact settled (List.append_nil source)

/-- A row of steps forward leads from a tracked place to a tracked place. -/
theorem skip (h : Tracks source c) (n : Nat) : Tracks source (c.skip n) := by
  induction n generalizing c with
  | zero => exact h
  | succ n ih =>
    rw [skip_succ]
    exact ih h.advance

/-- Every call leads from a tracked place to a tracked place, also one that fails. -/
theorem perform (h : Tracks source c) (call : Call) : Tracks source (c.perform call).2 := by
  cases call with
  | advance => exact h.advance
  | peek =>
    show Tracks source c.peek.2
    rw [peek_eq]
    exact h.forget
  | stepBack =>
    cases hback : c.stepBack with
    | ok back =>
      simp only [Cursor.perform, hback]
      exact h.stepBack hback
    | error fault =>
      simp only [Cursor.perform, hback]
      exact h
  | skip n => exact h.skip n
  | offset => exact h
  | position => exact h
  | previousPosition => exact h
  | rest => exact h
  | restStartsWith front => exact h
  | slice start stop => exact h

/-- Every row of calls leads from a tracked place to a tracked place. -/
theorem run (h : Tracks source c) (calls : List Call) : Tracks source (c.run calls) := by
  induction calls generalizing c with
  | nil => exact h
  | cons call calls ih => exact ih (h.perform call)

/-! ## What the invariant says -/

/-- A tracked place can be counted in the text in front of its offset. -/
theorem current_eq (h : Tracks source c) :
    c.current.offset ≤ source.length ∧ c.current = .ofText (source.take c.current.offset) := by
  obtain ⟨before, rest, slot, rfl, rfl⟩ := h.exists_between
  have hoffset : (between before rest slot).current.offset = before.length :=
    (Mark.offset_behind before).1
  rw [hoffset, List.take_left]
  exact ⟨by simp, Mark.behind_eq_ofText before⟩

/-- The slot holds the place one character in front of the cursor, or the place of the cursor itself
    at the end of the text. -/
theorem previous_eq {m : Mark} (h : Tracks source c) (hprevious : c.previous = some m) :
    (m = c.current ∧ c.current.offset = source.length) ∨
      ∃ k, k + 1 = c.current.offset ∧ m = .ofText (source.take k) := by
  cases h with
  | settled htext => exact nomatch hprevious
  -- The slot is the place in front of the last character, or the end.
  | @stepped before rest char htext =>
    cases hprevious
    refine .inr ⟨before.length, ?_, ?_⟩
    · show before.length + 1 = (Mark.behind (before ++ [char])).offset
      rw [(Mark.offset_behind _).1, List.length_append, List.length_singleton]
    · rw [← htext, List.take_left, Mark.behind_eq_ofText]
  | stayed =>
    cases hprevious
    exact .inl ⟨rfl, (Mark.offset_behind source).1⟩

end Tracks

/-! ## Rows of calls -/

/-- After any row of calls, a cursor stands at a place of the text that its offset determines, with
    its line and its column as they are counted in the text, and so does the slot for a step back.
    From there, a step that is taken back leads to the same place, and a look ahead shows the
    character that the next step reads and moves nothing. -/
theorem place_of_run (source : String) (calls : List Call) {c : Cursor}
    (h : (Cursor.ofString source).run calls = c) :
    c.current.offset ≤ source.toList.length ∧
      c.current = .ofText (source.toList.take c.current.offset) ∧
      c.current.position = .ofText (source.toList.take c.current.offset) ∧
      (∀ m, c.previous = some m →
        (m = c.current ∧ c.current.offset = source.toList.length) ∨
          ∃ k, k + 1 = c.current.offset ∧ m = .ofText (source.toList.take k)) ∧
      c.advance.2.stepBack = .ok { c with previous := none } ∧
      c.peek.1 = c.advance.1 ∧ c.peek.1 = c.peek.2.advance.1 ∧
      c.peek.2.current = c.current := by
  have htracks : Tracks source.toList c := h ▸ (Tracks.ofString source).run calls
  obtain ⟨hoffset, hcurrent⟩ := htracks.current_eq
  have hposition : c.current.position = .ofText (source.toList.take c.current.offset) := by
    rw [← Mark.position_ofText, ← hcurrent]
  refine ⟨hoffset, hcurrent, hposition, fun m => htracks.previous_eq, stepBack_advance c, ?_, ?_,
    ?_⟩
  · rw [peek_eq]
  · -- The next step reads at the same offset, whatever is in the slot.
    rw [peek_eq, advance_fst, advance_fst]
  · rw [peek_eq]

/-- A step over a line feed, with a look ahead, a step back that fails and a slice that fails around
    it. -/
theorem place_of_run_sample :
    ∃ c, (Cursor.ofString "a\n😀b").run [.advance, .peek, .stepBack, .advance, .slice 3 1] = c ∧
      c.previous = some ⟨1, 1, 0⟩ ∧ c.current.position = ⟨2, 1⟩ ∧
      c.current.position = .ofText ("a\n😀b".toList.take c.current.offset) ∧
      c.advance.2.stepBack = .ok { c with previous := none } ∧ c.peek.1 = c.peek.2.advance.1 := by
  obtain ⟨-, -, hposition, -, hback, -, hpeek, -⟩ :=
    place_of_run "a\n😀b" [.advance, .peek, .stepBack, .advance, .slice 3 1] rfl
  exact ⟨_, rfl, by decide +kernel, by decide +kernel, hposition, hback, hpeek⟩

end Cursor

end JsonnetSyntax
