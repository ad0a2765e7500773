import JsonnetSyntax.Proofs.Diagnostic.Excerpt

/-!
# The file that a report names

A report names the file that it is asked to name.  The span of an error has a file of its own, and
the report gets the range by cutting that file off the text of the span, by its length in bytes.
Nothing of the file is left then, whatever its characters are, so two errors that differ in the file
of their span only have the same report.

## Key results

- `Span.renderWithoutFile_withFile`, `Span.render_withFile_empty`: the text of a span without its
  file
- `Diagnostic.render_withFile`: reports do not depend on the file of the span
-/

namespace JsonnetSyntax

namespace Span

variable {s : Span}

/-- The same stretch of another file. -/
def withFile (s : Span) (name : String) : Span := { s with file := name }

/-- Whether a stretch is set does not depend on its file. -/
@[simp] theorem isSet_withFile (s : Span) (name : String) : (s.withFile name).isSet = s.isSet := rfl

/-- The range is written without the file. -/
@[simp] theorem renderRange_withFile (s : Span) (name : String) :
    (s.withFile name).renderRange = s.renderRange := rfl

/-- Without the file, the texts of a stretch in two files are the same. -/
theorem renderWithoutFile_withFile (h : s.isSet = true) (name : String) :
    (s.withFile name).renderWithoutFile = s.renderWithoutFile := by
  have hother : (s.withFile name).isSet = true := h
  rw [renderWithoutFile_eq hother, renderWithoutFile_eq h, renderRange_withFile]

/-- A stretch of a file without a name is written as its range. -/
theorem render_withFile_empty (h : s.isSet = true) :
    (s.withFile "").render = s.renderWithoutFile := by
  rw [renderWithoutFile_eq h, render, isSet_withFile, if_pos h]
  exact if_pos rfl

end Span

namespace Diagnostic

/-- The same message about the same stretch of another file. -/
def withFile (d : Diagnostic) (name : String) : Diagnostic :=
  { d with span := d.span.withFile name }

/-- The excerpt shows the text that it is given. -/
theorem excerpt_withFile (s : Span) (name source : String) :
    excerpt (s.withFile name) source = excerpt s source := rfl

/-- The report on an error does not depend on the file of the error's span.  If the span is set, its
    range stands behind the file that the report is asked to name, as it is written for a file
    without a name. -/
theorem render_withFile (d : Diagnostic) (file source : String) :
    (∀ name, (d.withFile name).render file source = d.render file source) ∧
      (d.span.isSet = true →
        d.render file source =
          "error[" ++ d.stage.code ++ "]: " ++ d.message ++ "\n" ++
            "  --> " ++ file ++ ":" ++ (d.withFile "").span.render ++ "\n" ++
            excerpt d.span source ++ d.hint) := by
  constructor
  · intro name
    -- Of the parts of a report, only the range is made from a text with the file in it.
    delta render withFile
    dsimp only
    rw [Span.isSet_withFile, excerpt_withFile]
    by_cases hset : d.span.isSet = true
    · rw [if_pos hset, if_pos hset, Span.renderWithoutFile_withFile hset]
    · rw [if_neg hset, if_neg hset]
  · intro hset
    have hrange : (d.withFile "").span.render = d.span.renderWithoutFile :=
      Span.render_withFile_empty hset
    rw [hrange]
    delta render hint
    simp only [hset, if_true, String.append_assoc]

/-- A file whose name has a colon and characters of two and of four bytes. -/
theorem render_withFile_sample :
    (⟨.parse, "m", ⟨"é:😀", ⟨1, 2⟩, ⟨1, 3⟩⟩, none⟩ : Diagnostic).span.isSet = true ∧
      (⟨.parse, "m", ⟨"é:😀", ⟨1, 2⟩, ⟨1, 3⟩⟩, none⟩ : Diagnostic).render "f" "a b" =
        (⟨.parse, "m", ⟨"", ⟨1, 2⟩, ⟨1, 3⟩⟩, none⟩ : Diagnostic).render "f" "a b" ∧
      (⟨.parse, "m", ⟨"é:😀", ⟨1, 2⟩, ⟨1, 3⟩⟩, none⟩ : Diagnostic).render "f" "a b" =
        "error[E_PARSE]: m\n  --> f:1:2-3\n   |\n  1 | a b\n   |  ^\n" := by
  obtain ⟨hsame, hshape⟩ :=
    render_withFile ⟨.parse, "m", ⟨"é:😀", ⟨1, 2⟩, ⟨1, 3⟩⟩, none⟩ "f" "a b"
  refine ⟨rfl, (hsame "").symm, ?_⟩
  rw [hshape rfl]
  decide +kernel

end Diagnostic

end JsonnetSyntax
