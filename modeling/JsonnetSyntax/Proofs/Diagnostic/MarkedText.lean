import JsonnetSyntax.Proofs.Diagnostic.Excerpt
import JsonnetSyntax.Proofs.Grammar.FaultPlaces
import JsonnetSyntax.Proofs.Grammar.Lookahead
import JsonnetSyntax.Proofs.Grammar.Ranges
import JsonnetSyntax.Proofs.Lexical.FirstFault

/-!
# The text that a report marks

Every error of a source is reported between two offsets of the source: a fault of the lexer at the
text that it could not cut into tokens, a fault of the grammar at a token or from one token to a
later one.  Offsets lead to lines and columns, so the report on an error shows the line in which it
starts, and marks as many characters of it as the error covers.

## Key results

- `isIn_of_lex_error`, `isIn_of_parse_error`: the places of errors
- `Diagnostic.marks_of_ofOffsets`: what the excerpt of a place shows
- `render_marks`: what the report on an error shows
-/

namespace JsonnetSyntax

/-! ## Places between offsets -/

/-- The stretch of a file between two offsets of its text. -/
def Span.ofOffsets (file : String) (text : List Char) (i j : Nat) : Span :=
  ⟨file, .ofText (text.take i), .ofText (text.take j)⟩

/-- The span is a stretch of a file between two offsets of its text. -/
def Span.IsIn (file : String) (text : List Char) (span : Span) : Prop :=
  ∃ i j, i ≤ j ∧ j ≤ text.length ∧ span = ofOffsets file text i j

/-- A stretch in the middle of a text stands between two of its offsets. -/
theorem Span.isIn_of_append (file : String) (front mid back : List Char) :
    IsIn file (front ++ mid ++ back) ⟨file, .ofText front, .ofText (front ++ mid)⟩ := by
  refine ⟨front.length, (front ++ mid).length, by simp, by simp, ?_⟩
  have hstart : (front ++ mid ++ back).take front.length = front := by
    rw [List.append_assoc, List.take_left]
  rw [ofOffsets, hstart, List.take_left]

/-- Offsets are in the order of the places that they lead to. -/
theorem lt_of_ofText_lt {text : List Char} {i j : Nat}
    (h : Position.ofText (text.take i) < Position.ofText (text.take j)) : i < j := by
  -- Otherwise the second place would be in front of the first one, or the same.
  by_contra hle
  obtain ⟨more, hmore⟩ : text.take j <+: text.take i :=
    List.take_prefix_take_left (Nat.le_of_not_lt hle)
  have hback := Position.ofText_le_append (text.take j) more
  rw [hmore] at hback
  exact absurd h (not_lt.mpr hback)

/-- From one place to a later one. -/
theorem Span.IsIn.between {file : String} {text : List Char} {first last : Span}
    (hfirst : first.IsIn file text) (hlast : last.IsIn file text) (h : first.start < last.stop) :
    (Span.between first last).IsIn file text := by
  obtain ⟨i, _, -, -, rfl⟩ := hfirst
  obtain ⟨_, j, -, hj, rfl⟩ := hlast
  exact ⟨i, j, (lt_of_ofText_lt h).le, hj, rfl⟩

/-! ## Places of errors -/

/-- What is read of a text that starts with no piece is its front. -/
theorem Stuck.isPrefix {back read : List Char} {message : String} (h : Stuck back read message) :
    read <+: back := by
  cases h with
  | number _ htext => exact ⟨_, htext.symm⟩
  | _ => exact List.nil_prefix

/-- A fault of the lexer is reported inside the source. -/
theorem isIn_of_lex_error {file source : String} {e : Error} (h : lex file source = .error e) :
    e.span.IsIn file source.toList := by
  -- The text is cut up to its end, or up to the fault.
  obtain ⟨pieces, rest, hcuts, rfl | ⟨c, more, interruption, rfl, hfirst⟩⟩ :=
    Cuts.exists_stop source.toList
  · cases h.symm.trans (lex_eq_ok_iff.mpr ⟨pieces, hcuts, rfl⟩)
  · cases h.symm.trans (lex_eq_error hcuts hfirst)
    obtain ⟨back, hback⟩ := (stuck_of_first hfirst).isPrefix
    have hin := Span.isIn_of_append file (Cut.written pieces ++ interruption.read) [] back
    rw [List.append_nil, List.append_assoc, hback, ← hcuts.text_eq] at hin
    exact hin

/-- Every token of a source stands inside the source. -/
theorem isIn_of_mem {file source : String} {tokens : List Token} {t : Token}
    (h : lex file source = .ok tokens) (ht : t ∈ tokens) : t.span.IsIn file source.toList := by
  have hexact := exact_of_lex h
  obtain ⟨pieces, hcuts, rfl⟩ := lex_eq_ok_iff.mp h
  -- The source is the text of its tokens, so each token stands between the others.
  have hsource : source.toList = (reconstruct (assemble file pieces)).toList := by
    rw [reconstruct_assemble, hcuts.text_eq, List.append_nil]
  obtain ⟨before, behind, htokens⟩ := List.append_of_mem ht
  rw [htokens] at hexact hsource
  have hspan := hexact before.length t (by simp)
  rw [List.take_left] at hspan
  rw [hspan, hsource, reconstruct_append, reconstruct_cons, Token.fullText_eq, Token.spanBehind]
  simpa using Span.isIn_of_append file ((reconstruct before).toList ++ t.fodderText.toList)
    t.sourceText.toList
    (reconstruct behind).toList

/-- A fault of the grammar is reported inside the source. -/
theorem isIn_of_parse_error {file source : String} {tokens : List Token} {e : Error}
    (hlex : lex file source = .ok tokens) (h : parse tokens = .error e) :
    e.span.IsIn file source.toList := by
  have hexact := exact_of_lex hlex
  obtain ⟨front, eof, rfl, hplain, heof, -⟩ := exists_concat_of_lex hlex
  have hstream : TokenStream.ofTokens (front ++ [eof]) = ⟨front, eof⟩ := by
    rw [TokenStream.ofTokens_append (fun t ht => (hplain t ht).kind) (List.cons_ne_nil _ _),
      TokenStream.ofTokens_cons_end heof, List.append_nil]
  have hshows := shows_of_parse h
  rw [hstream] at hshows
  generalize e.span = span at hshows ⊢
  -- A fault is at one token, or reaches from one token to a later one.
  cases hshows with
  | token ht => exact isIn_of_mem hlex ht
  | row hown hcovers =>
    -- The tokens of the row are in order, so the first one starts in front of the end of the last
    -- one.
    have hordered : Ordered front :=
      ⟨fun t ht => hexact.start_lt_stop (List.mem_append_left _ ht) (hplain t ht).sourceText,
        hexact.pairwise.sublist (List.sublist_append_left ..)⟩
    have hlt := hcovers.start_lt_stop (hordered.of_part hown)
    have hmem : ∀ t, t ∈ _ → t ∈ front ++ [eof] :=
      fun t ht => List.mem_append_left _ (hown.subset ht)
    obtain ⟨first, hfirst, last, hlast, rfl⟩ := hcovers.exists_mem
    exact (isIn_of_mem hlex (hmem first hfirst)).between (isIn_of_mem hlex (hmem last hlast)) hlt

/-- Every error of a source is reported inside the source. -/
theorem isIn_of_parseSource {file source : String} {e : Error}
    (h : parseSource file source = .error e) :
    e.span.IsIn file source.toList := by
  rw [parseSource] at h
  cases hlex : lex file source with
  | error e' =>
    rw [hlex] at h
    cases h
    exact isIn_of_lex_error hlex
  | ok tokens =>
    rw [hlex] at h
    exact isIn_of_parse_error hlex h

/-! ## Reports -/

namespace Diagnostic

/-- What a report shows of the text between two offsets, the places of which are those of a span:
    the line in which it starts, and below it blanks and carets. -/
structure Marks (text : List Char) (i j : Nat) (span : Span) (printed padding : List Char)
    (carets : Nat) : Prop where
  line_lt : span.start.line - 1 < (text.splitOn '\n').length
  printed_eq : printed = printedLine (text.splitOn '\n') (span.start.line - 1)
  /-- The character at the first offset is marked, unless it ends the line. -/
  marked : ∀ c, text[i]? = some c → c ≠ '\n' → ¬ (c = '\r' ∧ text[i + 1]? = some '\n') →
    printed[span.start.column - 1]? = some c
  length_padding : padding.length = span.start.column - 1
  padding_eq : ∀ k < span.start.column - 1,
    padding[k]? = some (if printed[k]? = some '\t' then '\t' else ' ')
  carets_eq : carets = if i < j ∧ span.start.line = span.stop.line then j - i else 1

/-- The character at an offset stands in the line and the column that the offset leads to. -/
theorem getElem?_lineOf {text : List Char} {i : Nat} {c : Char} (hget : text[i]? = some c)
    (hc : c ≠ '\n') (hend : ¬ (c = '\r' ∧ text[i + 1]? = some '\n')) :
    (lineOf text ((text.take i).count '\n'))[(lastLine (text.take i)).length]? = some c := by
  obtain ⟨hi, rfl⟩ := List.getElem?_eq_some_iff.mp hget
  have htext : text.take i ++ text[i] :: text.drop (i + 1) = text := by
    rw [← List.drop_eq_getElem_cons hi, List.take_append_drop]
  have hmarked := getElem?_printedLine (text.take i) (text.drop (i + 1)) hc (by simpa using hend)
  rw [htext] at hmarked
  rw [lineOf_eq_printedLine]
  exact hmarked

/-- What the excerpt of the text between two offsets shows. -/
theorem marks_of_ofOffsets {file : String} {text : List Char} {i j : Nat} {span : Span}
    (hij : i ≤ j) (hj : j ≤ text.length) (hspan : span = .ofOffsets file text i j) :
    Marks text i j span (lineOf text (span.start.line - 1))
      (caretPadding (lineOf text (span.start.line - 1)) (span.start.column - 1))
        (caretWidth span) := by
  have hline : span.start.line - 1 = (text.take i).count '\n' := by
    simp [hspan, Span.ofOffsets, Position.ofText]
  have hcolumn : span.start.column - 1 = (lastLine (text.take i)).length := by
    simp [hspan, Span.ofOffsets, Position.column_ofText]
  -- The line and the column are counted in the text in front of the first offset.
  constructor
  · have hcount := (List.take_sublist i text).count_le '\n'
    rw [hline, length_splitOn_lineFeed]
    omega
  · exact lineOf_eq_printedLine ..
  · intro c hget hc hend
    rw [hline, hcolumn]
    exact getElem?_lineOf hget hc hend
  · exact length_caretPadding ..
  · intro k hk
    exact getElem?_caretPadding _ hk
  · -- The text up to the second offset is the text up to the first one and the text that is marked.
    obtain ⟨mid, hmid⟩ : text.take i <+: text.take j := List.take_prefix_take_left hij
    have hlength : mid.length = j - i := by
      have hlengths := congrArg List.length hmid
      simp only [List.length_append, List.length_take] at hlengths
      omega
    -- The span covers something if it holds a character, and one line if it holds no line feed.
    have hne : mid ≠ [] ↔ i < j := by
      rw [← List.length_pos_iff]
      omega
    have hsame : '\n' ∉ mid ↔ span.start.line = span.stop.line := by
      rw [hspan]
      show '\n' ∉ mid ↔ (Position.ofText (text.take i)).line = (Position.ofText (text.take j)).line
      rw [← hmid, Position.line_ofText_append, ← List.count_eq_zero]
      omega
    have hwidth := caretWidth_ofText file (text.take i) mid
    rw [hmid, ← Span.ofOffsets, ← hspan] at hwidth
    simp only [hwidth, hne, hsame, hlength]

end Diagnostic

/-- The report on an error of a source shows the line in which the error starts, and marks it. -/
theorem render_marks {file source : String} {e : Error} (h : parseSource file source = .error e) :
    ∃ i j, i ≤ j ∧ j ≤ source.toList.length ∧
      e.span = ⟨file, .ofText (source.toList.take i), .ofText (source.toList.take j)⟩ ∧
      e.span.isSet = true ∧
      ∃ printed padding carets,
        e.toDiagnostic.render file source = e.toDiagnostic.headline file ++ "   |\n" ++
          (Diagnostic.gutter e.span.start.line ++ " | " ++ String.ofList printed) ++ "\n" ++
          ("   | " ++ String.ofList padding ++ "".pushn '^' carets) ++ "\n" ∧
        Diagnostic.Marks source.toList i j e.span printed padding carets := by
  obtain ⟨i, j, hij, hj, hspan⟩ := isIn_of_parseSource h
  have hset : e.span.isSet = true := by
    rw [hspan]
    simp [Span.isSet, Position.isSet, Span.ofOffsets, Position.ofText]
  refine ⟨i, j, hij, hj, hspan, hset, _, _, _, ?_, Diagnostic.marks_of_ofOffsets hij hj hspan⟩
  have hrows := Diagnostic.render_eq_rows (d := e.toDiagnostic) hset file source
  have hhint : e.toDiagnostic.hint = "" := rfl
  rw [hrows, hhint, String.append_empty]
  rfl

/-- An error behind a tab in a line that ends in a carriage return and a line feed. -/
theorem render_marks_sample :
    ∃ e i j printed padding carets,
      parseSource "sample" "[\n\t1 22\r\n]" = .error e ∧ e.span.isSet = true ∧
      Diagnostic.Marks "[\n\t1 22\r\n]".toList i j e.span printed padding carets := by
  have hfails : (parseSource "sample" "[\n\t1 22\r\n]").isOk = false := by decide +kernel
  cases h : parseSource "sample" "[\n\t1 22\r\n]" with
  | ok root => simp [h, Except.isOk, Except.toBool] at hfails
  | error e =>
    obtain ⟨i, j, -, -, -, hset, printed, padding, carets, -, hmarks⟩ := render_marks h
    exact ⟨e, i, j, printed, padding, carets, rfl, hset, hmarks⟩

end JsonnetSyntax
