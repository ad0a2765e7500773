import Mathlib.Data.List.DropRight
import JsonnetSyntax.Span

/-!
# Spans from their text

The written form of a span that is set determines the span.  The name of the file may hold anything,
also colons, digits and parentheses, but the range behind it can be read off the text from its end:
a number is the longest run of digits there, and the mark in front of it tells the three forms of a
range apart.

## Key results

- `digits_unique`, `Position.render_unique`: a number and a position at the end of a text
- `Span.rangeText`, `RangeText.unique`: the three forms of a range
- `Span.parts_eq_of_render_eq`, `Span.eq_of_render_eq`: equal texts are texts of equal spans
- `Span.render_inj`: which spans are written the same
-/

namespace JsonnetSyntax

/-! ## Numbers at the end of a text -/

/-- The text does not end in a digit. -/
def EndsPlain (text : List Char) : Prop := ∀ c ∈ text.getLast?, c.isDigit = false

/-- A text with a character at its end that is no digit ends in no digit. -/
theorem endsPlain_concat {text : List Char} {c : Char} (hc : c.isDigit = false) :
    EndsPlain (text ++ [c]) := by
  intro c' hc'
  rw [List.getLast?_concat, Option.mem_some] at hc'
  rw [← hc']
  exact hc

section Digits

variable {front front' : List Char}

/-- Without the digits at its end, a text that ends in a number is what stands in front of the
    number. -/
theorem rdropWhile_digits (hfront : EndsPlain front) (n : Nat) :
    (front ++ Nat.toDigits 10 n).rdropWhile Char.isDigit = front := by
  have hdigits : ∀ c ∈ (Nat.toDigits 10 n).reverse, c.isDigit = true := by
    intro c hc
    exact Nat.isDigit_of_mem_toDigits (by decide) (by decide) (List.mem_reverse.mp hc)
  rw [List.rdropWhile, List.reverse_append, List.dropWhile_append_of_pos hdigits]
  -- What is left at the end is no digit, so no further character goes.
  cases hreverse : front.reverse with
  | nil => simpa using hreverse
  | cons c rest =>
    have hlast : c ∈ front.getLast? := by
      rw [← List.head?_reverse, hreverse]
      rfl
    rw [List.dropWhile_cons_of_neg (by simp [hfront c hlast]), ← hreverse, List.reverse_reverse]

/-- A number at the end of a text is determined by the text. -/
theorem digits_unique {m n : Nat} (hfront : EndsPlain front) (hfront' : EndsPlain front')
    (h : front ++ Nat.toDigits 10 m = front' ++ Nat.toDigits 10 n) : front = front' ∧ m = n := by
  have heq : front = front' := by
    rw [← rdropWhile_digits hfront m, ← rdropWhile_digits hfront' n, h]
  subst heq
  have hdigits := List.append_cancel_left h
  have hvalue := congrArg (fun ds => Nat.ofDigitChars 10 ds 0) hdigits
  simp only [Nat.ofDigitChars_ten_toDigits] at hvalue
  exact ⟨rfl, hvalue⟩

/-- So is a mark in front of the number. -/
theorem mark_digits_unique {x y : Char} {m n : Nat} (hx : x.isDigit = false)
    (hy : y.isDigit = false)
    (h : front ++ x :: Nat.toDigits 10 m = front' ++ y :: Nat.toDigits 10 n) :
    front = front' ∧ x = y ∧ m = n := by
  rw [List.append_cons, List.append_cons front'] at h
  obtain ⟨hfronts, rfl⟩ := digits_unique (endsPlain_concat hx) (endsPlain_concat hy) h
  obtain ⟨rfl, hmarks⟩ := List.append_inj' hfronts rfl
  exact ⟨rfl, List.singleton_inj.mp hmarks, rfl⟩

/-! ## Positions and ranges -/

/-- A text is written as it is. -/
theorem toString_text (text : String) : toString text = text := rfl

/-- A position is written as its line, a colon and its column. -/
theorem Position.toList_render (p : Position) :
    p.render.toList = Nat.toDigits 10 p.line ++ ':' :: Nat.toDigits 10 p.column := by
  simp [Position.render, toString_text]

/-- A position at the end of a text is determined by the text. -/
theorem Position.render_unique {p q : Position} (hfront : EndsPlain front)
    (hfront' : EndsPlain front') (h : front ++ p.render.toList = front' ++ q.render.toList) :
    front = front' ∧ p = q := by
  rw [toList_render, toList_render, ← List.append_assoc, ← List.append_assoc] at h
  obtain ⟨hlines, -, hcolumn⟩ := mark_digits_unique rfl rfl h
  obtain ⟨rfl, hline⟩ := digits_unique hfront hfront' hlines
  obtain ⟨line, column⟩ := p
  obtain ⟨line', column'⟩ := q
  cases hline
  cases hcolumn
  exact ⟨rfl, rfl⟩

end Digits

namespace Span

/-- What stands in front of the range in the text of a span. -/
def fileMark (s : Span) : List Char := if s.file.isEmpty then [] else s.file.toList ++ [':']

/-- The mark in front of a range is empty or ends in a colon. -/
theorem endsPlain_fileMark (s : Span) : EndsPlain s.fileMark := by
  unfold fileMark
  split
  · intro c hc
    cases hc
  · exact endsPlain_concat rfl

/-- A span that is set is written as its mark and its range. -/
theorem toList_render {s : Span} (h : s.isSet = true) :
    s.render.toList = s.fileMark ++ s.renderRange.toList := by
  unfold render fileMark
  rw [if_pos h]
  split
  · rfl
  · simp [toString_text]

/-- The file is known by what stands in front of the range. -/
theorem file_eq_of_fileMark {s t : Span} (h : s.fileMark = t.fileMark) : s.file = t.file := by
  unfold fileMark at h
  -- A file without a name has no mark, and every other mark ends in a colon.
  split at h <;> split at h
  · simp_all
  · simp at h
  · simp at h
  · exact String.toList_inj.mp (List.append_cancel_right h)

end Span

/-! ## The forms of a range -/

/-- The forms in which a range is written: a point, two columns of a line, and two positions. -/
inductive RangeForm where
  | point | columns | positions
deriving DecidableEq

/-- The last character of a form that is no digit. -/
def RangeForm.mark : RangeForm → Char
  | point => ':'
  | columns => '-'
  | positions => ')'

/-- The marks of the three forms are distinct. -/
theorem RangeForm.eq_of_mark_eq {form form' : RangeForm} (h : form.mark = form'.mark) :
    form = form' := by
  cases form <;> cases form' <;> first | rfl | exact absurd h (by decide)

/-- The text is that of a range from one position to another, in some form. -/
inductive RangeText : RangeForm → List Char → Position → Position → Prop where
  | point (p : Position) : RangeText .point p.render.toList p p
  | columns (p : Position) (n : Nat) :
    RangeText .columns (p.render.toList ++ '-' :: Nat.toDigits 10 n) p ⟨p.line, n⟩
  | positions (p q : Position) :
    RangeText .positions
      (['('] ++ p.render.toList ++ [')', '-'] ++ ['('] ++ q.render.toList ++ [')']) p q

/-- Every range is written in one of the three forms. -/
theorem Span.rangeText (s : Span) : ∃ form, RangeText form s.renderRange.toList s.start s.stop := by
  obtain ⟨file, start, ⟨line, column⟩⟩ := s
  unfold renderRange
  dsimp only
  -- The form depends on whether the positions are on one line, and then on their columns.
  split
  · next hline =>
    subst hline
    split
    · next hcolumn =>
      subst hcolumn
      exact ⟨.point, .point start⟩
    · refine ⟨.columns, ?_⟩
      simpa [toString_text] using RangeText.columns start column
  · refine ⟨.positions, ?_⟩
    simpa [toString_text] using RangeText.positions start ⟨line, column⟩

section RangeText

variable {form form' : RangeForm} {front front' text text' : List Char} {p p' q q' : Position}

/-- The last character of a text that is no digit. -/
def lastMark (text : List Char) : Option Char := (text.rdropWhile Char.isDigit).getLast?

/-- The last mark of a text stands in front of the number at its end. -/
theorem lastMark_append_digits {x : Char} (hx : x.isDigit = false) (n : Nat) :
    lastMark (front ++ x :: Nat.toDigits 10 n) = some x := by
  rw [lastMark, List.append_cons, rdropWhile_digits (endsPlain_concat hx), List.getLast?_concat]

/-- The form of a range can be seen at its end. -/
theorem RangeText.lastMark_eq (h : RangeText form text p q) :
    lastMark (front ++ text) = some form.mark := by
  cases h with
  | point =>
    rw [Position.toList_render, ← List.append_assoc]
    exact lastMark_append_digits rfl _
  | columns n =>
    rw [← List.append_assoc]
    exact lastMark_append_digits rfl _
  | positions =>
    rw [← List.append_assoc, lastMark, List.rdropWhile_concat_neg _ _ _ (by simp),
      List.getLast?_concat]
    rfl

/-- A range at the end of a text is determined by the text. -/
theorem RangeText.unique (h : RangeText form text p q) (h' : RangeText form' text' p' q')
    (hfront : EndsPlain front) (hfront' : EndsPlain front')
    (heq : front ++ text = front' ++ text') :
    front = front' ∧ p = p' ∧ q = q' := by
  -- First the forms are compared, which the last marks show, and then the numbers.
  have hform : form = form' := by
    have hmark : lastMark (front ++ text) = some form.mark := h.lastMark_eq
    rw [heq, h'.lastMark_eq] at hmark
    exact RangeForm.eq_of_mark_eq (Option.some.inj hmark).symm
  subst hform
  cases h with
  | point =>
    cases h'
    obtain ⟨rfl, rfl⟩ := Position.render_unique hfront hfront' heq
    exact ⟨rfl, rfl, rfl⟩
  | columns n =>
    cases h'
    rw [← List.append_assoc, ← List.append_assoc] at heq
    obtain ⟨hstart, -, rfl⟩ := mark_digits_unique rfl rfl heq
    obtain ⟨rfl, rfl⟩ := Position.render_unique hfront hfront' hstart
    exact ⟨rfl, rfl, rfl⟩
  | positions =>
    cases h'
    -- The two positions are read off one after the other, with the parentheses behind them.
    simp only [← List.append_assoc] at heq
    have hstop := List.append_cancel_right heq
    obtain ⟨hmark, rfl⟩ :=
      Position.render_unique (endsPlain_concat rfl) (endsPlain_concat rfl) hstop
    have hstart := List.append_cancel_right (List.append_cancel_right hmark)
    obtain ⟨hopening, rfl⟩ :=
      Position.render_unique (endsPlain_concat rfl) (endsPlain_concat rfl) hstart
    exact ⟨List.append_cancel_right hopening, rfl, rfl⟩

end RangeText

/-- The text of a span that is set determines what stands in front of the range, and the range. -/
theorem Span.parts_eq_of_render_eq {s t : Span} (hs : s.isSet = true) (ht : t.isSet = true)
    (h : s.render = t.render) : s.fileMark = t.fileMark ∧ s.start = t.start ∧ s.stop = t.stop := by
  have hchars : s.fileMark ++ s.renderRange.toList = t.fileMark ++ t.renderRange.toList := by
    rw [← toList_render hs, ← toList_render ht, h]
  obtain ⟨form, hrange⟩ := s.rangeText
  obtain ⟨form', hrange'⟩ := t.rangeText
  exact hrange.unique hrange' s.endsPlain_fileMark t.endsPlain_fileMark hchars

/-- So it determines the span. -/
theorem Span.eq_of_render_eq {s t : Span} (hs : s.isSet = true) (ht : t.isSet = true)
    (h : s.render = t.render) : s = t := by
  obtain ⟨hmark, hstart, hstop⟩ := parts_eq_of_render_eq hs ht h
  have hfile := file_eq_of_fileMark hmark
  cases s
  cases t
  cases hfile
  cases hstart
  cases hstop
  rfl

/-- Spans that are set are written the same only if their files, their starts and their ends are the
    same. -/
theorem Span.render_inj {s t : Span} (hs : s.isSet = true) (ht : t.isSet = true) :
    s.render = t.render ↔ s.file = t.file ∧ s.start = t.start ∧ s.stop = t.stop := by
  constructor
  · intro h
    obtain ⟨hmark, hstart, hstop⟩ := parts_eq_of_render_eq hs ht h
    exact ⟨file_eq_of_fileMark hmark, hstart, hstop⟩
  · intro ⟨hfile, hstart, hstop⟩
    obtain ⟨file, start, stop⟩ := s
    cases hfile
    cases hstart
    cases hstop
    rfl

/-- Two spans with the same characters at the end of their texts: in one they belong to the name of
    the file. -/
theorem Span.render_inj_sample :
    (⟨"é:(1:2)-(3:4)", ⟨5, 6⟩, ⟨5, 6⟩⟩ : Span).isSet = true ∧
      (⟨"", ⟨5, 6⟩, ⟨5, 6⟩⟩ : Span).isSet = true ∧
      (⟨"é:(1:2)-(3:4)", ⟨5, 6⟩, ⟨5, 6⟩⟩ : Span).render ≠ (⟨"", ⟨5, 6⟩, ⟨5, 6⟩⟩ : Span).render := by
  refine ⟨rfl, rfl, fun h => ?_⟩
  obtain ⟨hfile, -, -⟩ := (Span.render_inj rfl rfl).mp h
  exact absurd hfile (by decide)

-- A span that is not set can be written like one that is.
example : (Span.unset "a:1:1").render = (Span.point "a" ⟨1, 1⟩).render := by decide +kernel

end JsonnetSyntax
