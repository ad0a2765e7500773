import JsonnetSyntax.Proofs.Lexical.NextLexeme

/-!
# Which texts are text blocks

A `BlockLayout` that is `Valid` describes a text block without the scanner: one indent of spaces and
tabs, lines that are empty or start with it, and a last line with the closing bars that does not.
Behind the opening, the scanner finds a block exactly where the text of a valid layout stands, and
no text is that of two layouts.  Every other text lacks an indent, ends inside a line, or is not
closed, and these three are the faults that are reported.

## Key results

- `Block.linesFrom_written`, `Block.linesFrom_stop`, `Block.linesFrom_endsInLine`: how lines are
  read
- `Block.layout_or_fault`: behind the opening stands a block, or one of the three faults does
- `Block.scan_eq_ok_iff_valid`: the scanner finds the text of valid layouts
- `lex_textBlock`: how lexing goes on at the opening of a text block
-/

namespace JsonnetSyntax

/-! ## Valid layouts -/

/-- The content of a line that is not empty. -/
def BlockLine.text? : BlockLine → Option (List Char)
  | .empty => none
  | .text content => some content

/-- The lines can stand in a block with the indent: the indent is made of spaces and tabs, no line
    holds a line feed, and no blank follows the indent in the first line that is not empty. -/
structure BlockLayout.HasLines (indent : List Char) (lines : List BlockLine) : Prop where
  indent_ne_nil : indent ≠ []
  indent_blank : ∀ c ∈ indent, c = ' ' ∨ c = '\t'
  newline_free : ∀ content, .text content ∈ lines → '\n' ∉ content
  first_text : ∃ content, lines.findSome? BlockLine.text? = some content ∧
    content.head? ≠ some ' ' ∧ content.head? ≠ some '\t'

/-- The layout is that of a text block: its last line has blanks in front of the bars, but not the
    indent. -/
structure BlockLayout.Valid (layout : BlockLayout) : Prop where
  lines : HasLines layout.indent layout.lines
  closing_blank : ∀ c ∈ layout.closingIndent, c = ' ' ∨ c = '\t' ∨ c = '\r'
  closing_short : ¬ layout.indent <+: layout.closingIndent

namespace Block

/-- Lines as they are written in a block with an indent. -/
def written (indent : List Char) (lines : List BlockLine) : List Char :=
  lines.flatMap (BlockLine.written indent)

/-- Behind empty lines, the text ends or goes on with a character that is no blank. -/
def LacksIndent (text : List Char) : Prop :=
  ∃ n rest, text = List.replicate n '\n' ++ rest ∧
    ∀ c ∈ rest.head?, c ≠ '\n' ∧ c ≠ ' ' ∧ c ≠ '\t'

/-- The text ends inside a line that starts with the indent. -/
def EndsInLine (text : List Char) : Prop :=
  ∃ indent lines content, BlockLayout.HasLines indent (lines ++ [.text content]) ∧
    text = written indent lines ++ (indent ++ content)

/-- Behind the lines of a block stands a line that lacks the indent and is not a closing line
    either. -/
def StaysOpen (text : List Char) : Prop :=
  ∃ indent lines rest, BlockLayout.HasLines indent lines ∧ text = written indent lines ++ rest ∧
    rest.head? ≠ some '\n' ∧ ¬ indent <+: rest ∧
    ∀ blanks after, (∀ c ∈ blanks, c = ' ' ∨ c = '\t' ∨ c = '\r') →
      rest ≠ blanks ++ BlockLayout.closing ++ after

variable {indent text rest content : List Char} {seen lines : List BlockLine} {layout : BlockLayout}

/-- No lines are written as nothing. -/
@[simp] theorem written_nil (indent : List Char) : written indent [] = [] := rfl

/-- Lines are written one after the other. -/
@[simp] theorem written_cons (indent : List Char) (line : BlockLine) (lines : List BlockLine) :
    written indent (line :: lines) = line.written indent ++ written indent lines := rfl

/-- A block is written as its opening, its lines, and its closing line. -/
theorem verbatim_eq (layout : BlockLayout) :
    layout.verbatim = BlockLayout.opening ++
      (written layout.indent layout.lines ++ (layout.closingIndent ++ BlockLayout.closing)) := by
  simp [BlockLayout.verbatim, written]

/-- An indent is made of spaces and tabs. -/
theorem isIndent_iff {c : Char} : isIndent c = true ↔ c = ' ' ∨ c = '\t' := by
  simp [isIndent]

/-- In front of the closing bars, carriage returns may stand too. -/
theorem isClosingIndent_iff {c : Char} :
    isClosingIndent c = true ↔ c = ' ' ∨ c = '\t' ∨ c = '\r' := by
  simp [isClosingIndent, or_assoc]

/-! ## Reading lines -/

/-- A text that starts with an indent does not start with a line feed. -/
theorem indent_append_ne (hne : indent ≠ []) (hblank : ∀ c ∈ indent, c = ' ' ∨ c = '\t')
    (after tail : List Char) : indent ++ after ≠ '\n' :: tail := by
  cases indent with
  | nil => exact absurd rfl hne
  | cons c indent =>
    intro heq
    obtain ⟨rfl, -⟩ := List.cons.inj heq
    simpa using hblank '\n' (List.mem_cons_self ..)

/-- The lines of a block are read one after the other. -/
theorem linesFrom_written (hne : indent ≠ []) (hblank : ∀ c ∈ indent, c = ' ' ∨ c = '\t')
    (hlines : ∀ content, .text content ∈ lines → '\n' ∉ content) (seen : List BlockLine)
    (rest : List Char) :
    linesFrom indent seen (written indent lines ++ rest) =
      linesFrom indent (lines.reverse ++ seen) rest := by
  -- By induction on the lines; each is read and goes to the lines seen so far.
  induction lines generalizing seen with
  | nil => rfl
  | cons line lines ih =>
    have hothers :=
      ih (fun content hmem => hlines content (List.mem_cons_of_mem _ hmem)) (line :: seen)
    rw [List.reverse_cons, List.append_assoc, List.singleton_append, ← hothers]
    cases line with
    | empty => exact linesFrom.eq_1 ..
    | text content =>
      -- The line is the indent, its content up to the line feed, and what follows.
      have hcontent := hlines content (List.mem_cons_self ..)
      obtain ⟨htake, hdrop⟩ := takeWhile_line hcontent (written indent lines ++ rest)
      have htext : written indent (.text content :: lines) ++ rest =
          indent ++ (content ++ '\n' :: (written indent lines ++ rest)) := by
        simp [BlockLine.written]
      rw [htext, linesFrom.eq_2 _ _ _ (indent_append_ne hne hblank _)]
      split
      · next hnone => exact absurd (List.prefix_append ..) (isPrefixOf?_eq_none.mp hnone)
      · next line hline =>
        obtain rfl := List.append_cancel_left (List.isPrefixOf?_eq_some_iff_append_eq.mp hline)
        split
        · next hnil => cases hdrop.symm.trans hnil
        · next hcons =>
          cases hdrop.symm.trans hcons
          rw [htake]

/-- Lines end in front of a line that lacks the indent. -/
theorem linesFrom_stop (hhead : text.head? ≠ some '\n') (hindent : ¬ indent <+: text) :
    linesFrom indent seen text = .ok (seen.reverse, text) := by
  refine (linesFrom_eq_ok_iff ?_).mpr (.inl ⟨hindent, rfl, rfl⟩)
  rintro tail rfl
  exact hhead rfl

/-- A line that is not finished is a fault. -/
theorem linesFrom_endsInLine (hne : indent ≠ []) (hblank : ∀ c ∈ indent, c = ' ' ∨ c = '\t')
    (hcontent : '\n' ∉ content) :
    linesFrom indent seen (indent ++ content) = .error .endsInLine := by
  rw [linesFrom.eq_2 _ _ _ (indent_append_ne hne hblank _)]
  have hdrop : content.dropWhile (· != '\n') = [] := by
    rw [List.dropWhile_eq_nil_iff]
    intro c hc
    rw [bne_iff_ne]
    rintro rfl
    exact hcontent hc
  split
  · next hnone => exact absurd (List.prefix_append ..) (isPrefixOf?_eq_none.mp hnone)
  · next line hline =>
    obtain rfl := List.append_cancel_left (List.isPrefixOf?_eq_some_iff_append_eq.mp hline)
    split
    · rfl
    · next hcons => cases hdrop.symm.trans hcons

/-- Every text starts with lines of a block.  Behind them stands a line that lacks the indent, or
    one that is not finished. -/
theorem exists_lines (indent text : List Char) :
    ∃ lines rest, text = written indent lines ++ rest ∧
      (∀ content, .text content ∈ lines → '\n' ∉ content) ∧
      ((rest.head? ≠ some '\n' ∧ ¬ indent <+: rest) ∨ ∃ content,
        rest = indent ++ content ∧ '\n' ∉ content) := by
  -- By induction on the length of the text: each line makes it shorter.
  induction hn : text.length using Nat.strongRecOn generalizing text with
  | ind n ih =>
    by_cases hhead : text.head? = some '\n'
    · obtain ⟨after, rfl⟩ := List.head?_eq_some_iff.mp hhead
      obtain ⟨lines, rest, rfl, hlines, hrest⟩ := ih after.length (by simp [← hn]) after rfl
      exact ⟨.empty :: lines, rest, rfl, by simpa using hlines, hrest⟩
    by_cases hindent : indent <+: text
    · obtain ⟨line, rfl⟩ := hindent
      by_cases hline : '\n' ∈ line
      · -- The line is finished, and the lines behind it are shorter.
        obtain ⟨content, after, rfl, hcontent⟩ := List.eq_append_cons_of_mem hline
        obtain ⟨lines, rest, rfl, hlines, hrest⟩ :=
          ih after.length (by simp [← hn]; omega) after rfl
        refine ⟨.text content :: lines, rest, by simp [BlockLine.written], ?_, hrest⟩
        intro other hmem
        obtain heq | hmem := List.mem_cons.mp hmem
        · cases heq
          exact hcontent
        · exact hlines other hmem
      · exact ⟨[], indent ++ line, rfl, by simp, .inr ⟨line, rfl, hline⟩⟩
    · exact ⟨[], text, rfl, by simp, .inl ⟨hhead, hindent⟩⟩

/-! ## The indent -/

/-- The indent of an indented text is the indent and the blanks behind it. -/
theorem indentOf_append_indent (hne : indent ≠ []) (hblank : ∀ c ∈ indent, c = ' ' ∨ c = '\t')
    (after : List Char) : indentOf (indent ++ after) = indent ++ after.takeWhile isIndent := by
  have hall : ∀ c ∈ indent, isIndent c = true := fun c hc => isIndent_iff.mpr (hblank c hc)
  have hdrop : (indent ++ after).dropWhile (· == '\n') = indent ++ after := by
    -- An indent starts with a space or a tab, so no line feed is dropped in front of it.
    cases indent with
    | nil => exact absurd rfl hne
    | cons c indent =>
      rw [List.cons_append, List.dropWhile_cons_of_neg]
      rw [beq_iff_eq]
      rintro rfl
      simpa using hblank '\n' (List.mem_cons_self ..)
  rw [indentOf, hdrop, List.takeWhile_append_of_pos hall]

/-- In front of the first line that is not empty stand the indent and the blanks of the line. -/
theorem indentOf_written (hne : indent ≠ []) (hblank : ∀ c ∈ indent, c = ' ' ∨ c = '\t')
    (hfirst : lines.findSome? BlockLine.text? = some content) (rest : List Char) :
    indentOf (written indent lines ++ rest) = indent ++ content.takeWhile isIndent := by
  -- By induction on the lines; empty ones have no indent and are passed over.
  induction lines with
  | nil => cases hfirst
  | cons line lines ih =>
    cases line with
    | empty => exact ih hfirst
    | text first =>
      cases hfirst
      have htext : written indent (.text content :: lines) ++ rest =
          indent ++ (content ++ '\n' :: (written indent lines ++ rest)) := by
        simp [BlockLine.written]
      rw [htext, indentOf_append_indent hne hblank, takeWhile_append_boundary (by simp [isIndent])]

/-- Empty lines have no indent of their own. -/
theorem indentOf_written_of_empty (hfirst : lines.findSome? BlockLine.text? = none)
    (rest : List Char) :
    indentOf (written indent lines ++ rest) = indentOf rest := by
  induction lines with
  | nil => rfl
  | cons line lines ih =>
    cases line with
    | empty => exact ih hfirst
    | text first => cases hfirst

/-- A content that adds nothing to the indent does not start with a blank. -/
theorem takeWhile_isIndent_eq_nil :
    content.takeWhile isIndent = [] ↔ content.head? ≠ some ' ' ∧ content.head? ≠ some '\t' := by
  cases content with
  | nil => simp
  | cons c content => simp [List.takeWhile_cons, isIndent]

/-- The same if the last line is not finished. -/
theorem indentOf_open_line (hne : indent ≠ []) (hblank : ∀ c ∈ indent, c = ' ' ∨ c = '\t')
    {first : List Char}
    (hfirst : (lines ++ [BlockLine.text content]).findSome? BlockLine.text? = some first) :
    indentOf (written indent lines ++ (indent ++ content)) =
      indent ++ first.takeWhile isIndent := by
  rw [List.findSome?_append] at hfirst
  cases hlines : lines.findSome? BlockLine.text? with
  | some other =>
    rw [hlines] at hfirst
    cases hfirst
    exact indentOf_written hne hblank hlines _
  | none =>
    rw [hlines] at hfirst
    cases hfirst
    rw [indentOf_written_of_empty hlines, indentOf_append_indent hne hblank]

/-- The indent of a text holds spaces and tabs only. -/
theorem mem_indentOf {c : Char} (h : c ∈ indentOf text) : c = ' ' ∨ c = '\t' :=
  isIndent_iff.mp (List.mem_takeWhile_imp h)

/-- Blanks in front of a text that starts with no line feed are its indent. -/
theorem indentOf_isPrefix (h : text.head? ≠ some '\n') : indentOf text <+: text := by
  have hdrop : text.dropWhile (· == '\n') = text := by
    cases text with
    | nil => rfl
    | cons c text => exact List.dropWhile_cons_of_neg (by simpa using h)
  rw [indentOf, hdrop]
  exact List.takeWhile_prefix _

/-! ## The forms of a text behind an opening -/

/-- A text lacks an indent exactly if the scanner finds none. -/
theorem lacksIndent_iff : LacksIndent text ↔ indentOf text = [] := by
  -- Line feeds in front of the indent are passed over, however many there are.
  constructor
  · rintro ⟨n, rest, rfl, hhead⟩
    have hindent : indentOf (List.replicate n '\n' ++ rest) = indentOf rest := by
      induction n with
      | zero => rfl
      | succ n ih => exact ih
    rw [hindent]
    cases rest with
    | nil => rfl
    | cons c rest =>
      obtain ⟨hfeed, hspace, htab⟩ := hhead c rfl
      simp [indentOf, isIndent, hfeed, hspace, htab]
  · intro h
    have hfeeds : ∀ c ∈ text.takeWhile (· == '\n'), c = '\n' :=
      fun c hc => beq_iff_eq.mp (List.mem_takeWhile_imp (p := (· == '\n')) hc)
    -- The line feeds at the front of the text, and the text behind them.
    refine ⟨(text.takeWhile (· == '\n')).length, text.dropWhile (· == '\n'), ?_, ?_⟩
    · rw [← List.eq_replicate_of_mem hfeeds, List.takeWhile_append_dropWhile]
    · intro c hc
      have hhead := takeWhile_isIndent_eq_nil.mp h
      have hfeed := List.head?_dropWhile_not (· == '\n') text
      rw [Option.mem_def.mp hc] at hhead hfeed
      simp_all

/-- Without an indent there is no block. -/
theorem scan_of_lacksIndent (h : LacksIndent text) : scan text = .error .noIndent := by
  rw [scan, lacksIndent_iff.mp h]
  rfl

/-- A block whose text ends inside a line is not read. -/
theorem scan_of_endsInLine (h : EndsInLine text) : scan text = .error .endsInLine := by
  obtain ⟨indent, lines, content, hlines, rfl⟩ := h
  obtain ⟨first, hfirst, hhead⟩ := hlines.first_text
  have hindent : indentOf (written indent lines ++ (indent ++ content)) = indent := by
    rw [indentOf_open_line hlines.indent_ne_nil hlines.indent_blank hfirst,
      takeWhile_isIndent_eq_nil.mpr hhead, List.append_nil]
  have hread :
      linesFrom indent [] (written indent lines ++ (indent ++ content)) = .error .endsInLine := by
    rw [linesFrom_written hlines.indent_ne_nil hlines.indent_blank, linesFrom_endsInLine
      hlines.indent_ne_nil hlines.indent_blank (hlines.newline_free content (by simp))]
    exact fun other hmem => hlines.newline_free other (List.mem_append_left _ hmem)
  simp only [scan, hindent, hread, if_neg hlines.indent_ne_nil]
  rfl

/-- Behind the lines of a block stands a line that lacks the indent. -/
theorem linesFrom_of_hasLines (h : BlockLayout.HasLines indent lines)
    (hhead : rest.head? ≠ some '\n') (hshort : ¬ indent <+: rest) :
    linesFrom indent [] (written indent lines ++ rest) = .ok (lines, rest) := by
  rw [linesFrom_written h.indent_ne_nil h.indent_blank h.newline_free, linesFrom_stop hhead hshort,
    List.append_nil, List.reverse_reverse]

/-- The lines of a block have its indent. -/
theorem indentOf_of_hasLines (h : BlockLayout.HasLines indent lines) (rest : List Char) :
    indentOf (written indent lines ++ rest) = indent := by
  obtain ⟨content, hfirst, hhead⟩ := h.first_text
  rw [indentOf_written h.indent_ne_nil h.indent_blank hfirst, takeWhile_isIndent_eq_nil.mpr hhead,
    List.append_nil]

/-- A block without a closing line is not read. -/
theorem scan_of_staysOpen (h : StaysOpen text) : scan text = .error .notClosed := by
  obtain ⟨indent, lines, rest, hlines, rfl, hhead, hshort, hopen⟩ := h
  -- Behind the blanks the bars would close the block, which the form rules out.
  have hclosing : BlockLayout.closing.isPrefixOf? (rest.dropWhile isClosingIndent) = none := by
    rw [isPrefixOf?_eq_none]
    rintro ⟨after, hafter⟩
    refine hopen (rest.takeWhile isClosingIndent) after ?_ ?_
    · exact fun c hc => isClosingIndent_iff.mp (List.mem_takeWhile_imp hc)
    · rw [List.append_assoc, hafter, List.takeWhile_append_dropWhile]
  simp only [scan, indentOf_of_hasLines hlines, linesFrom_of_hasLines hlines hhead hshort,
    if_neg hlines.indent_ne_nil, hclosing, bind, Except.bind, throw, throwThe, MonadExceptOf.throw]

/-- In front of the closing line of a valid layout, the lines end. -/
theorem closing_line_stops (h : layout.Valid) (rest : List Char) :
    (layout.closingIndent ++ (BlockLayout.closing ++ rest)).head? ≠ some '\n' ∧
      ¬ layout.indent <+: layout.closingIndent ++ (BlockLayout.closing ++ rest) := by
  constructor
  · cases hindent : layout.closingIndent with
    | nil => simp [BlockLayout.closing]
    | cons c blanks =>
      intro hc
      obtain rfl : c = '\n' := by simpa using hc
      simpa using h.closing_blank '\n' (by simp [hindent])
  · -- No bar is a blank, so the indent would end in front of the bars.
    intro hindent
    obtain hshort | ⟨bars, hbars⟩ :=
      List.prefix_or_prefix_of_prefix hindent (List.prefix_append layout.closingIndent _)
    · exact h.closing_short hshort
    · rw [← hbars, List.prefix_append_right_inj] at hindent
      cases bars with
      | nil =>
        rw [List.append_nil] at hbars
        exact h.closing_short (hbars ▸ List.prefix_refl _)
      | cons c bars =>
        obtain ⟨rfl, -⟩ := List.cons_prefix_cons.mp hindent
        simpa using h.lines.indent_blank '|' (by simp [← hbars])

/-- The text of a valid layout is scanned to this layout. -/
theorem scan_of_valid (h : layout.Valid) (rest : List Char) :
    scan (written layout.indent layout.lines ++
      (layout.closingIndent ++ (BlockLayout.closing ++ rest))) =
      .ok (layout, rest) := by
  obtain ⟨hhead, hshort⟩ := closing_line_stops h rest
  -- The blanks of the closing line are taken back as its indent, and the bars close the block.
  have hblank : ∀ c ∈ layout.closingIndent, isClosingIndent c = true :=
    fun c hc => isClosingIndent_iff.mpr (h.closing_blank c hc)
  refine scan_eq_ok_iff.mpr ⟨indentOf_of_hasLines h.lines _, h.lines.indent_ne_nil, _,
    linesFrom_of_hasLines h.lines hhead hshort, ?_, ?_⟩
  · rw [List.takeWhile_append_of_pos hblank]
    exact List.append_nil _
  · rw [List.dropWhile_append_of_pos hblank]
    rfl

/-- Behind the opening of a block stands the text of a valid layout, or a text with one of the
    faults. -/
theorem layout_or_fault (text : List Char) :
    (∃ layout rest,
      BlockLayout.Valid layout ∧ BlockLayout.opening ++ text = layout.verbatim ++ rest) ∨
      LacksIndent text ∨ EndsInLine text ∨ StaysOpen text := by
  by_cases hne : indentOf text = []
  -- By the indent that the scanner finds, and then by how the lines behind the opening end.
  · exact .inr (.inl (lacksIndent_iff.mpr hne))
  have hblank : ∀ c ∈ indentOf text, c = ' ' ∨ c = '\t' := fun c hc => mem_indentOf hc
  generalize hindent : indentOf text = indent at hne hblank
  obtain ⟨lines, rest, rfl, hlines, ⟨hhead, hshort⟩ | ⟨content, rfl, hcontent⟩⟩ :=
    exists_lines indent text
  · cases hfirst : lines.findSome? BlockLine.text? with
    | none =>
      -- All lines are empty, so the indent stands in front of the rest.
      rw [indentOf_written_of_empty hfirst] at hindent
      exact absurd (hindent ▸ indentOf_isPrefix hhead) hshort
    | some first =>
      rw [indentOf_written hne hblank hfirst, List.append_right_eq_self] at hindent
      have hhas : BlockLayout.HasLines indent lines :=
        ⟨hne, hblank, hlines, first, hfirst, takeWhile_isIndent_eq_nil.mp hindent⟩
      by_cases hclosed : ∃ blanks after, (∀ c ∈ blanks, c = ' ' ∨ c = '\t' ∨ c = '\r') ∧
          rest = blanks ++ BlockLayout.closing ++ after
      · obtain ⟨blanks, after, hblanks, rfl⟩ := hclosed
        rw [List.append_assoc] at hshort
        refine .inl ⟨⟨indent, lines, blanks⟩, after, ⟨hhas, hblanks, ?_⟩, ?_⟩
        · exact fun hstart => hshort (hstart.trans (List.prefix_append ..))
        · simp [verbatim_eq]
      · refine .inr (.inr (.inr ⟨indent, lines, rest, hhas, rfl, hhead, hshort, ?_⟩))
        exact fun blanks after hblanks heq => hclosed ⟨blanks, after, hblanks, heq⟩
  · refine .inr (.inr (.inl ⟨indent, lines, content, ?_, rfl⟩))
    have hsome : ((lines ++ [BlockLine.text content]).findSome? BlockLine.text?).isSome = true := by
      simp [BlockLine.text?]
    obtain ⟨first, hfirst⟩ := Option.isSome_iff_exists.mp hsome
    rw [indentOf_open_line hne hblank hfirst, List.append_right_eq_self] at hindent
    refine ⟨hne, hblank, ?_, first, hfirst, takeWhile_isIndent_eq_nil.mp hindent⟩
    intro other hmem
    obtain hmem | hmem := List.mem_append.mp hmem
    · exact hlines other hmem
    · cases List.mem_singleton.mp hmem
      exact hcontent

/-- The scanner finds the text of valid layouts, and nothing else. -/
theorem scan_eq_ok_iff_valid :
    scan text = .ok (layout, rest) ↔
      layout.Valid ∧ BlockLayout.opening ++ text = layout.verbatim ++ rest := by
  have hscan : ∀ {layout : BlockLayout} {rest : List Char}, layout.Valid →
      BlockLayout.opening ++ text = layout.verbatim ++ rest → scan text = .ok (layout, rest) := by
    intro layout rest hvalid heq
    rw [verbatim_eq, List.append_assoc, List.append_cancel_left_eq] at heq
    rw [heq, List.append_assoc, List.append_assoc]
    exact scan_of_valid hvalid rest
  constructor
  · intro h
    -- What is scanned is none of the three faults, and there is one layout for it only.
    obtain ⟨other, left, hvalid, heq⟩ | hform | hform | hform := layout_or_fault text
    · cases (hscan hvalid heq).symm.trans h
      exact ⟨hvalid, heq⟩
    · cases (scan_of_lacksIndent hform).symm.trans h
    · cases (scan_of_endsInLine hform).symm.trans h
    · cases (scan_of_staysOpen hform).symm.trans h
  · rintro ⟨hvalid, heq⟩
    exact hscan hvalid heq

end Block

/-! ## Lexing at the opening of a text block -/

/-- Three bars and a line feed open a block. -/
theorem Piece.first_opening (text : List Char) :
    Piece.first '|' ('|' :: '|' :: '\n' :: text) = Piece.firstBlock text := rfl

/-- A block that cannot be read is a fault at its opening. -/
theorem failsBehind_of_scan {file source : String} {before : List Piece} {text : List Char}
    {fault : BlockFault} (h : Cuts source.toList before (BlockLayout.opening ++ text))
    (hscan : Block.scan text = .error fault) :
    FailsBehind file source (Cut.written before) fault.message := by
  have hfirst : Piece.first '|' ('|' :: '|' :: '\n' :: text) = .error ⟨.badBlock fault, []⟩ := by
    rw [Piece.first_opening, Piece.firstBlock, hscan]
  have hfails : FailsBehind file source _ _ := failsBehind_of_first h hfirst
  rwa [List.append_nil] at hfails

/-- Behind the opening of a block, a piece is cut off exactly if the block has a valid layout. -/
theorem cuts_block_iff {source : List Char} {before : List Piece} {text rest : List Char}
    {piece : Piece} (h : Cuts source before (BlockLayout.opening ++ text)) :
    Cuts source (before ++ [piece]) rest ↔
      ∃ layout : BlockLayout, layout.Valid ∧ BlockLayout.opening ++ text = layout.verbatim ++ rest ∧
        piece = .ofBlock layout := by
  rw [h.append_iff]
  show Cuts ('|' :: '|' :: '|' :: '\n' :: text) [piece] rest ↔ _
  rw [Cuts.singleton_iff, Piece.first_opening, Piece.firstBlock]
  constructor
  · intro hfirst
    split at hfirst
    · cases hfirst
    · next layout left hscan =>
      cases hfirst
      obtain ⟨hvalid, heq⟩ := Block.scan_eq_ok_iff_valid.mp hscan
      exact ⟨layout, hvalid, heq, rfl⟩
  · rintro ⟨layout, hvalid, heq, rfl⟩
    rw [Block.scan_eq_ok_iff_valid.mpr ⟨hvalid, heq⟩]

/-- Where the text that is left starts with the opening of a block, lexing emits a text block
    exactly if the text of a valid layout stands there, and goes on behind it; there is at most one
    such layout.  The token has the content, the two indents and the text of the layout.  Otherwise
    lexing fails at the opening, with one message for each of the three ways in which a block can be
    broken. -/
theorem lex_textBlock {file source : String} {before : List Piece} {text : List Char}
    (h : Cuts source.toList before (BlockLayout.opening ++ text)) :
    (∀ piece rest, Cuts source.toList (before ++ [piece]) rest ↔
      ∃ layout : BlockLayout, layout.Valid ∧ BlockLayout.opening ++ text = layout.verbatim ++ rest ∧
        piece = .ofBlock layout) ∧
    (∀ (layout other : BlockLayout) (rest left : List Char), layout.Valid → other.Valid →
      BlockLayout.opening ++ text = layout.verbatim ++ rest →
      BlockLayout.opening ++ text = other.verbatim ++ left → layout = other ∧ rest = left) ∧
    (∀ (layout : BlockLayout) (rest : List Char) (tokens : List Token), layout.Valid →
      BlockLayout.opening ++ text = layout.verbatim ++ rest → lex file source = .ok tokens →
      ∃ more, tokens.map Token.content = before.filterMap Piece.content? ++
        (⟨.string .block, String.ofList layout.content⟩,
          some ⟨String.ofList layout.indent, String.ofList layout.closingIndent,
            String.ofList layout.verbatim⟩) :: more) ∧
    (Block.LacksIndent text → FailsBehind file source (Cut.written before)
      "Text block's first line must start with whitespace") ∧
    (Block.EndsInLine text → FailsBehind file source (Cut.written before) "Unexpected EOF") ∧
    (Block.StaysOpen text → FailsBehind file source (Cut.written before)
      "Text block not terminated with |||") ∧
    ((∃ layout rest,
      BlockLayout.Valid layout ∧ BlockLayout.opening ++ text = layout.verbatim ++ rest) ∨
      Block.LacksIndent text ∨ Block.EndsInLine text ∨ Block.StaysOpen text) := by
  refine ⟨fun piece rest => cuts_block_iff h, ?_, ?_, ?_, ?_, ?_, Block.layout_or_fault text⟩
  · intro layout other rest left hvalid hother heq heq'
    have hscan := Block.scan_eq_ok_iff_valid.mpr ⟨hvalid, heq⟩
    have hscan' := Block.scan_eq_ok_iff_valid.mpr ⟨hother, heq'⟩
    cases hscan.symm.trans hscan'
    exact ⟨rfl, rfl⟩
  · intro layout rest tokens hvalid heq hlex
    obtain ⟨pieces, hcuts, rfl⟩ := lex_eq_ok_iff.mp hlex
    -- The block is the next piece, so the pieces of the source start with it.
    obtain ⟨more, rfl⟩ := Cuts.isPrefix ((cuts_block_iff h).mpr ⟨layout, hvalid, heq, rfl⟩) hcuts
    refine ⟨more.filterMap Piece.content? ++ [(⟨.endOfFile, ""⟩, none)], ?_⟩
    rw [map_content_assemble, List.filterMap_append, List.filterMap_append, List.append_assoc,
      List.append_assoc]
    rfl
  · exact fun hform => failsBehind_of_scan h (Block.scan_of_lacksIndent hform)
  · exact fun hform => failsBehind_of_scan h (Block.scan_of_endsInLine hform)
  · exact fun hform => failsBehind_of_scan h (Block.scan_of_staysOpen hform)

/-- A block with empty lines and an indented closing line, and one whose first line is not
    indented. -/
theorem lex_textBlock_sample :
    (∃ before text,
      Cuts "x |||\n\n\ta\n\n\tb\n  ||| y".toList before (BlockLayout.opening ++ text) ∧
      Cuts "x |||\n\n\ta\n\n\tb\n  ||| y".toList
        (before ++ [.ofBlock ⟨['\t'], [.empty, .text ['a'], .empty, .text ['b']], [' ', ' ']⟩])
        [' ', 'y']) ∧
    ∃ before text, Cuts "x |||\ny".toList before (BlockLayout.opening ++ text) ∧
      FailsBehind "sample" "x |||\ny" (Cut.written before)
        "Text block's first line must start with whitespace" := by
  have hword : ∀ text, Piece.first 'x' (' ' :: text) = .ok (.ofWord ['x'], ' ' :: text) :=
    fun _ => rfl
  have hblank :
      ∀ text, Piece.first ' ' ('|' :: text) = .ok (.ofFodder .whitespace [' '], '|' :: text) :=
    fun _ => rfl
  constructor
  · have hcuts :
        Cuts "x |||\n\n\ta\n\n\tb\n  ||| y".toList [.ofWord ['x'], .ofFodder .whitespace [' ']]
        (BlockLayout.opening ++ "\n\ta\n\n\tb\n  ||| y".toList) :=
      .cons (hword _) (.cons (hblank _) (.nil _))
    obtain ⟨hblock, -⟩ := @lex_textBlock "sample" _ _ _ hcuts
    refine ⟨_, _, hcuts, (hblock _ _).mpr ⟨_, ?_, by decide, rfl⟩⟩
    exact ⟨⟨by decide, by simp, by simp, ['a'], rfl, by decide, by decide⟩, by simp, by decide⟩
  · have hcuts : Cuts "x |||\ny".toList [.ofWord ['x'], .ofFodder .whitespace [' ']]
        (BlockLayout.opening ++ ['y']) := .cons (hword _) (.cons (hblank _) (.nil _))
    obtain ⟨-, -, -, hfails, -⟩ := @lex_textBlock "sample" _ _ _ hcuts
    exact ⟨_, _, hcuts, hfails ⟨0, ['y'], rfl, by simp⟩⟩

end JsonnetSyntax
