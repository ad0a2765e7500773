import Mathlib.Data.List.TakeWhile
import JsonnetSyntax.Diagnostic
import JsonnetSyntax.Grammar.Session
import JsonnetSyntax.Proofs.Lexical.Locations

/-!
# What an excerpt shows

Positions count lines in line feeds; the excerpt of a diagnostic prints a line without the carriage
return in front of its line feed.  Both mean the same lines: those that the line feeds separate.  So
a position behind a part of a text leads to a line of the text and to a column of that line, and the
carets of an excerpt are as many as the characters between two positions on one line.

The rows of an excerpt do not line up, however: the line number and the bar in front of the source
line are wider than the blanks and the bar in front of the carets.

## Key results

- `lineOf_eq_printedLine`: the lines that are printed
- `getElem?_splitOn_append`: the line that a position leads to
- `getElem?_printedLine`: the character that a position leads to
- `Diagnostic.getElem?_caretPadding`, `Diagnostic.caretWidth_ofText`: the blanks and the carets
- `Diagnostic.caretOffset_add`: where the first caret stands
-/

namespace JsonnetSyntax

/-! ## Lines -/

/-- A line as it is printed: without the carriage return in front of the line feed that ends it.
    Past the last line, nothing is printed. -/
def printedLine (lines : List (List Char)) (index : Nat) : List Char :=
  match lines[index]? with
  | none => []
  | some line =>
    if index + 1 < lines.length ∧ line.getLast? = some '\r' then line.dropLast else line

section Lines

variable {text line rest front back mid : List Char}

/-- In a line no character is a line feed, in the form that `takeWhile` and `dropWhile` test. -/
theorem bne_of_not_mem (h : '\n' ∉ line) : ∀ c ∈ line, (c != '\n') = true := by
  intro c hc
  simpa using fun heq : c = '\n' => h (heq ▸ hc)

/-- A text goes up to its first line feed as far as its first line. -/
theorem takeWhile_append_lineFeed (h : '\n' ∉ line) (rest : List Char) :
    (line ++ '\n' :: rest).takeWhile (· != '\n') = line := by
  rw [List.takeWhile_append_of_pos (bne_of_not_mem h)]
  simp

/-- The first line of a text is printed without a carriage return at its end. -/
theorem lineOf_append_zero (h : '\n' ∉ line) (rest : List Char) :
    lineOf (line ++ '\n' :: rest) 0 =
      if line.getLast? = some '\r' then line.dropLast else line := by
  have hlength : line.length < line.length + (rest.length + 1) := by omega
  simp [lineOf, takeWhile_append_lineFeed h, hlength]

/-- The later lines are those of the text behind the first line feed. -/
theorem lineOf_append_succ (h : '\n' ∉ line) (rest : List Char) (index : Nat) :
    lineOf (line ++ '\n' :: rest) (index + 1) = lineOf rest index := by
  simp [lineOf, List.dropWhile_append_of_pos (bne_of_not_mem h)]

/-- An empty text prints nothing, whatever line is asked for. -/
theorem lineOf_nil (index : Nat) : lineOf [] index = [] := by
  cases index with
  | zero => rfl
  | succ index => rfl

/-- A text without line feeds is one line, which no line feed ends. -/
theorem lineOf_of_not_mem (h : '\n' ∉ text) (index : Nat) :
    lineOf text index = if index = 0 then text else [] := by
  have htake := List.takeWhile_eq_self_iff.mpr (bne_of_not_mem h)
  have hdrop := List.dropWhile_eq_nil_iff.mpr (bne_of_not_mem h)
  cases index with
  | zero => simp [lineOf, htake]
  | succ index => simp [lineOf, hdrop, lineOf_nil]

/-- The lines that are printed are those that line feeds separate. -/
theorem lineOf_eq_printedLine (text : List Char) (index : Nat) :
    lineOf text index = printedLine (text.splitOn '\n') index := by
  -- By induction on the line: a text has a first line in front of a line feed, or it is one line.
  induction index generalizing text with
  | zero =>
    by_cases h : '\n' ∈ text
    -- The line feed ends this line, so a line is left and a carriage return would be dropped.
    · obtain ⟨line, rest, rfl, hline⟩ := List.eq_append_cons_of_mem h
      have hmore : 0 < (rest.splitOn '\n').length :=
        List.length_pos_iff.mpr (List.splitOn_ne_nil _ _)
      rw [lineOf_append_zero hline, List.splitOn_append_cons_self_of_not_mem hline]
      simp [printedLine, hmore]
    · rw [lineOf_of_not_mem h, List.splitOn_eq_singleton h]
      simp [printedLine]
  | succ index ih =>
    by_cases h : '\n' ∈ text
    · obtain ⟨line, rest, rfl, hline⟩ := List.eq_append_cons_of_mem h
      rw [lineOf_append_succ hline, ih, List.splitOn_append_cons_self_of_not_mem hline]
      simp [printedLine]
    · rw [lineOf_of_not_mem h, List.splitOn_eq_singleton h]
      simp [printedLine]

/-- There is one line more than there are line feeds. -/
theorem length_splitOn_lineFeed (text : List Char) :
    (text.splitOn '\n').length = text.count '\n' + 1 := by
  induction text with
  | nil => simp
  | cons c text ih =>
    rw [List.splitOn_cons_eq_if_modifyHead]
    by_cases hc : c = '\n'
    · simp [hc, ih]
    · simp [hc, ih]

/-! ## Lines and positions -/

/-- The part of a text behind its last line feed. -/
def lastLine (text : List Char) : List Char := (text.reverse.takeWhile (· != '\n')).reverse

/-- A text without line feeds is its own last line. -/
theorem lastLine_of_not_mem (h : '\n' ∉ text) : lastLine text = text := by
  have hreverse : '\n' ∉ text.reverse := by simpa using h
  rw [lastLine, List.takeWhile_eq_self_iff.mpr (bne_of_not_mem hreverse), List.reverse_reverse]

/-- What stands behind a line feed, and has none itself, is the last line. -/
theorem lastLine_append (h : '\n' ∉ line) (front : List Char) :
    lastLine (front ++ '\n' :: line) = line := by
  have hreverse : '\n' ∉ line.reverse := by simpa using h
  have htake := takeWhile_append_lineFeed hreverse front.reverse
  rw [lastLine, List.reverse_append, List.reverse_cons, List.append_assoc, List.singleton_append,
    htake, List.reverse_reverse]

/-- A text is its last line, or lines in front of a line feed and its last line. -/
theorem lastLine_cases (text : List Char) :
    '\n' ∉ text ∧ lastLine text = text ∨
      ∃ front, text = front ++ '\n' :: lastLine text ∧ '\n' ∉ lastLine text := by
  by_cases h : '\n' ∈ text
  -- The last line feed of the text is the first one of the text read backwards.
  · obtain ⟨line, rest, hreverse, hline⟩ := List.eq_append_cons_of_mem (List.mem_reverse.mpr h)
    have htext : text = rest.reverse ++ '\n' :: line.reverse := by
      rw [← List.reverse_reverse text, hreverse]
      simp
    have hlast : lastLine text = line.reverse := by
      rw [htext]
      exact lastLine_append (by simpa using hline) rest.reverse
    rw [hlast]
    exact .inr ⟨rest.reverse, htext, by simpa using hline⟩
  · exact .inl ⟨h, lastLine_of_not_mem h⟩

/-- The first line is what stands in front of the first line feed. -/
theorem getElem?_splitOn_zero (text : List Char) :
    (text.splitOn '\n')[0]? = some (text.takeWhile (· != '\n')) := by
  by_cases h : '\n' ∈ text
  · obtain ⟨line, rest, rfl, hline⟩ := List.eq_append_cons_of_mem h
    rw [List.splitOn_append_cons_self_of_not_mem hline, takeWhile_append_lineFeed hline]
    rfl
  · rw [List.splitOn_eq_singleton h, List.takeWhile_eq_self_iff.mpr (bne_of_not_mem h)]
    rfl

/-- The line in which a part of a text ends: what the part has of it, and what is left of it. -/
theorem getElem?_splitOn_append (front back : List Char) :
    ((front ++ back).splitOn '\n')[front.count '\n']? =
      some (lastLine front ++ back.takeWhile (· != '\n')) := by
  obtain ⟨hline, hlast⟩ | ⟨before, hfront, hline⟩ := lastLine_cases front
  · rw [List.count_eq_zero.mpr hline, getElem?_splitOn_zero, hlast,
      List.takeWhile_append_of_pos (bne_of_not_mem hline)]
  · -- The lines in front of the last line feed come first.
    have hcount : front.count '\n' = (before.splitOn '\n').length := by
      rw [length_splitOn_lineFeed, hfront, List.count_append, List.count_cons_self,
        List.count_eq_zero.mpr hline]
    have hlines : (front ++ back).splitOn '\n' =
        before.splitOn '\n' ++ (lastLine front ++ back).splitOn '\n' := by
      conv_lhs => rw [hfront]
      rw [List.append_assoc, List.cons_append, List.splitOn_append_cons_self]
    rw [hlines, hcount, List.getElem?_append_right (Nat.le_refl _), Nat.sub_self,
      getElem?_splitOn_zero, List.takeWhile_append_of_pos (bne_of_not_mem hline)]

/-- Each line feed that is passed leads to the next line. -/
theorem Position.line_ofText_append (front mid : List Char) :
    (ofText (front ++ mid)).line = (ofText front).line + mid.count '\n' := by
  simp [ofText, Nat.add_assoc]

/-- The column counts the characters of the last line, from one. -/
theorem Position.column_ofText (text : List Char) :
    (ofText text).column = 1 + (lastLine text).length := by
  simp [ofText, lastLine]

/-- On one line, the column grows by the characters that are passed. -/
theorem Position.column_ofText_append (h : '\n' ∉ mid) (front : List Char) :
    (ofText (front ++ mid)).column = (ofText front).column + mid.length := by
  have hreverse : ∀ c ∈ mid.reverse, (c != '\n') = true := by
    intro c hc
    exact bne_of_not_mem h c (List.mem_reverse.mp hc)
  simp only [ofText, List.reverse_append, List.takeWhile_append_of_pos hreverse, List.length_append,
    List.length_reverse]
  omega

/-- The character behind a part of a text stands in the printed line at the column of the place
    behind the part, unless it is the end of the line. -/
theorem getElem?_printedLine (front rest : List Char) {c : Char} (hc : c ≠ '\n')
    (hend : ¬ (c = '\r' ∧ rest.head? = some '\n')) :
    (printedLine ((front ++ c :: rest).splitOn '\n') (front.count '\n'))[(lastLine front).length]? =
      some c := by
  -- The line of the place is what `front` has of it, then `c`, then what `rest` has of it.
  have hline := getElem?_splitOn_append front (c :: rest)
  rw [List.takeWhile_cons_of_pos (by simpa using hc)] at hline
  rw [printedLine, hline]
  dsimp only
  split
  · next hreturn =>
    -- The character that is not printed is the last one of the line, so it is not this one.
    have hmore : rest.takeWhile (· != '\n') ≠ [] := by
      intro hnone
      obtain ⟨hlines, hlast⟩ := hreturn
      rw [hnone, List.getLast?_concat] at hlast
      rw [length_splitOn_lineFeed, List.count_append, List.count_cons_of_ne hc] at hlines
      cases rest with
      | nil => simp at hlines
      -- With nothing left there is no further line; with a line feed left, `c` would be the return.
      | cons d rest =>
        by_cases hd : d = '\n'
        · exact hend ⟨Option.some.inj hlast, congrArg some hd⟩
        · rw [List.takeWhile_cons_of_pos (by simpa using hd)] at hnone
          cases hnone
    have hlength := List.length_pos_iff.mpr hmore
    rw [List.getElem?_dropLast, if_pos]
    · simp
    · simp only [List.length_append, List.length_cons]
      omega
  · simp

end Lines

/-! ## Blanks and carets -/

namespace Diagnostic

/-- The padding fills the columns in front of the carets, also behind the end of the line. -/
theorem length_caretPadding (line : List Char) (columns : Nat) :
    (caretPadding line columns).length = columns := by
  simp only [caretPadding, List.length_append, List.length_map, List.length_take,
    List.length_replicate]
  omega

/-- In front of the carets stand blanks, and tabs where the line has tabs. -/
theorem getElem?_caretPadding (shown : List Char) {columns k : Nat} (hk : k < columns) :
    (caretPadding shown columns)[k]? = some (if shown[k]? = some '\t' then '\t' else ' ') := by
  by_cases hline : k < shown.length
  · have hcopied :
        k < ((shown.take columns).map fun c => if c = '\t' then '\t' else ' ').length := by
      simp only [List.length_map, List.length_take]
      omega
    rw [caretPadding, List.getElem?_append_left hcopied, List.getElem?_map,
      List.getElem?_take_of_lt hk, List.getElem?_eq_getElem hline]
    simp
  · -- Behind the end of the line, blanks are added.
    have hcopied : ((shown.take columns).map fun c => if c = '\t' then '\t' else ' ').length =
        shown.length := by
      rw [List.length_map, List.length_take]
      omega
    have hblank : k - shown.length < columns - shown.length := by omega
    rw [caretPadding, List.getElem?_append_right (by omega), hcopied, List.getElem?_replicate,
      if_pos hblank, List.getElem?_eq_none (Nat.le_of_not_lt hline)]
    simp

/-- There is no caret in the padding. -/
theorem not_mem_caretPadding (line : List Char) (columns : Nat) :
    '^' ∉ caretPadding line columns := by
  intro hmem
  obtain ⟨k, hk, hget⟩ := List.mem_iff_getElem.mp hmem
  rw [length_caretPadding] at hk
  have hblank := getElem?_caretPadding line hk
  rw [List.getElem?_eq_some_iff.mpr ⟨_, hget⟩] at hblank
  split at hblank <;> simp at hblank

/-- There is a caret at least. -/
theorem caretWidth_pos (s : Span) : 0 < caretWidth s := by
  unfold caretWidth
  split <;> omega

/-- There are as many carets as characters between two places on one line, and one if there are none
    or if the places are on different lines. -/
theorem caretWidth_ofText (file : String) (front mid : List Char) :
    caretWidth ⟨file, .ofText front, .ofText (front ++ mid)⟩ =
      if mid ≠ [] ∧ '\n' ∉ mid then mid.length else 1 := by
  unfold caretWidth
  by_cases hline : '\n' ∈ mid
  · have hcount := List.count_pos_iff.mpr hline
    have hother : (Position.ofText (front ++ mid)).line ≠ (Position.ofText front).line := by
      rw [Position.line_ofText_append]
      omega
    -- The spans of several lines are marked by one caret.
    simp [hother, hline]
  · have hsame : (Position.ofText (front ++ mid)).line = (Position.ofText front).line := by
      rw [Position.line_ofText_append, List.count_eq_zero.mpr hline]
      omega
    have hwidth := Position.column_ofText_append hline front
    simp only [hsame, hwidth, true_and, hline, not_false_eq_true, and_true]
    by_cases hmid : mid = []
    · simp [hmid]
    -- A text that is not empty ends behind the column where it starts.
    · have hpos := List.length_pos_iff.mpr hmid
      rw [if_pos (by omega), if_pos hmid]
      omega

/-! ## Rows -/

/-- The row that shows the line of the source in which a span starts. -/
def sourceRow (s : Span) (source : String) : String :=
  gutter s.start.line ++ " | " ++ String.ofList (lineOf source.toList (s.start.line - 1))

/-- The row below it. -/
def caretRow (s : Span) (source : String) : String :=
  "   | " ++
    String.ofList (caretPadding (lineOf source.toList (s.start.line - 1)) (s.start.column - 1)) ++
    "".pushn '^' (caretWidth s)

/-- The first line of a report, and the place that it names. -/
def headline (d : Diagnostic) (file : String) : String :=
  "error[" ++ d.stage.code ++ "]: " ++ d.message ++ "\n" ++ "  --> " ++ file ++ ":" ++
    d.span.renderRange ++ "\n"

/-- The hint at the end of a report. -/
def hint (d : Diagnostic) : String := d.help.elim "" fun help => "\nhelp: " ++ help ++ "\n"

/-- A report on a place that is known shows both rows. -/
theorem render_eq_rows {d : Diagnostic} (h : d.span.isSet = true) (file source : String) :
    d.render file source = d.headline file ++ "   |\n" ++ sourceRow d.span source ++ "\n" ++
      caretRow d.span source ++ "\n" ++ d.hint := by
  -- `delta` opens the texts without their equations, which take long to generate.
  delta render excerpt headline sourceRow caretRow hint
  simp only [h, if_true, Span.renderWithoutFile_eq h, String.append_assoc]

/-! ## Where the carets stand -/

/-- How many characters stand in front of the first caret. -/
def caretOffset (s : Span) (source : String) : Nat :=
  ((caretRow s source).toList.takeWhile (· != '^')).length

/-- How many characters of the row that shows the source stand in front of the column in which a
    span starts: the line number, the bar and the columns in front. -/
def columnOffset (s : Span) : Nat := (gutter s.start.line ++ " | ").length + (s.start.column - 1)

/-- The line number takes three columns, or more if it has more digits. -/
theorem length_gutter (line : Nat) : (gutter line).length = max 3 (toString line).length := by
  simp only [gutter, String.length_append, String.length_pushn, String.length_empty]
  omega

/-- The characters of a text of one character, repeated. -/
theorem toList_pushn (c : Char) (n : Nat) : ("".pushn c n).toList = List.replicate n c := by
  rw [String.pushn_eq_repeat_push]
  induction n with
  | zero => rfl
  | succ n ih => rw [Nat.repeat, String.toList_push, ih, List.replicate_succ']

/-- The row of the carets, character by character: five of the frame, the padding, the carets. -/
theorem toList_caretRow (s : Span) (source : String) :
    (caretRow s source).toList = [' ', ' ', ' ', '|', ' '] ++
      (caretPadding (lineOf source.toList (s.start.line - 1)) (s.start.column - 1) ++
        List.replicate (caretWidth s) '^') := by
  simp [caretRow, toList_pushn]

/-- The frame in front of the carets takes five columns, whatever the line number is. -/
theorem caretOffset_eq (s : Span) (source : String) :
    caretOffset s source = 5 + (s.start.column - 1) := by
  have hbar : ∀ c ∈ [' ', ' ', ' ', '|', ' '], (c != '^') = true := by simp
  have hpadding : ∀ c ∈ caretPadding (lineOf source.toList (s.start.line - 1)) (s.start.column - 1),
      (c != '^') = true := by
    intro c hc
    simpa using fun heq : c = '^' => not_mem_caretPadding _ _ (heq ▸ hc)
  -- There is a caret at least, and it is the first character behind the blanks.
  obtain ⟨width, hwidth⟩ := Nat.exists_eq_succ_of_ne_zero (caretWidth_pos s).ne'
  have hcarets : (List.replicate (caretWidth s) '^').takeWhile (· != '^') = [] := by
    rw [hwidth, List.replicate_succ]
    rfl
  rw [caretOffset, toList_caretRow, List.takeWhile_append_of_pos hbar,
    List.takeWhile_append_of_pos hpadding, hcarets, List.append_nil, List.length_append,
    length_caretPadding]
  rfl

/-- The first caret does not stand below the column in which a span starts.  It stands to the left
    of it, by one character if the line number has up to three digits, and by one more for each
    further digit. -/
theorem caretOffset_add {d : Diagnostic} (h : d.span.isSet = true) (file source : String) :
    d.render file source = d.headline file ++ "   |\n" ++ sourceRow d.span source ++ "\n" ++
      caretRow d.span source ++ "\n" ++ d.hint ∧
    caretOffset d.span source + (max 3 (toString d.span.start.line).length - 2) =
      columnOffset d.span := by
  refine ⟨render_eq_rows h file source, ?_⟩
  -- The frame of the source row is the line number and three characters, that of the caret row
  -- five.
  have hbar : " | ".length = 3 := rfl
  rw [caretOffset_eq, columnOffset, String.length_append, length_gutter, hbar]
  omega

/-- A report on a line whose number has four digits. -/
theorem caretOffset_add_sample :
    caretOffset ⟨"sample", ⟨1234, 7⟩, ⟨1234, 9⟩⟩ "a\nb" + 2 =
      columnOffset ⟨"sample", ⟨1234, 7⟩, ⟨1234, 9⟩⟩ := by
  have hset : (Span.mk "sample" ⟨1234, 7⟩ ⟨1234, 9⟩).isSet = true := rfl
  exact (caretOffset_add (d := ⟨.parse, "", ⟨"sample", ⟨1234, 7⟩, ⟨1234, 9⟩⟩, none⟩) hset "sample"
    "a\nb").2

/-- So the caret of an error need not stand below the place of the error. -/
theorem caretOffset_ne_columnOffset :
    ∃ e, parseSource "config.jsonnet" "((a b))" = .error e ∧ e.span.isSet = true ∧
      1 ≤ e.span.start.column ∧
      caretOffset e.span "((a b))" ≠ columnOffset e.span := by
  -- The tree of the error is not needed: its span decides the offsets, and it is computed here.
  have hspan : (match parseSource "config.jsonnet" "((a b))" with
      | .ok _ => none
      | .error e => some e.span) = some ⟨"config.jsonnet", ⟨1, 5⟩, ⟨1, 6⟩⟩ := by decide +kernel
  generalize parseSource "config.jsonnet" "((a b))" = result at hspan ⊢
  cases result with
  | ok root => cases hspan
  | error e =>
    have hplace : e.span = ⟨"config.jsonnet", ⟨1, 5⟩, ⟨1, 6⟩⟩ := Option.some.inj hspan
    refine ⟨e, rfl, ?_⟩
    rw [hplace]
    decide +kernel

end Diagnostic

end JsonnetSyntax
