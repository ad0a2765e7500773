import JsonnetSyntax.Proofs.Lexical.Scanning
import JsonnetSyntax.Proofs.Lexical.TextBlocks

/-!
# Scanning text blocks

A scanner reads a text block line by line: in every round a line that starts with the indent, and
then the empty lines behind it.  The empty lines in front of the first line are read before the
rounds, and the line that closes the block behind them.  Read together, these are the lines of the
block.

## Key results

- `Block.linesFrom_text`: the lines of a block, as the rounds read them
- `Spot.run_blockLines`: the rounds
- `Spot.answers_textBlock`: whole text blocks
-/

namespace JsonnetSyntax

/-! ## Lines in rounds -/

namespace Block

variable {indent : List Char}

/-- The lines of two rows are written one behind the other. -/
theorem written_append (indent : List Char) (first second : List BlockLine) :
    written indent (first ++ second) = written indent first ++ written indent second :=
  List.flatMap_append

/-- The empty lines at the front of a text. -/
def emptyLines (text : List Char) : List BlockLine :=
  (text.takeWhile (· == '\n')).map fun _ => .empty

/-- Empty lines are written as their line breaks. -/
theorem written_emptyLines (indent text : List Char) :
    written indent (emptyLines text) = text.takeWhile (· == '\n') := by
  induction text with
  | nil => rfl
  | cons c text ih =>
    by_cases hc : c = '\n'
    · simpa [emptyLines, hc, BlockLine.written] using ih
    · simp [emptyLines, hc]

/-- Empty lines have their line breaks as content. -/
theorem content_emptyLines (text : List Char) :
    (emptyLines text).flatMap BlockLine.content = text.takeWhile (· == '\n') := by
  induction text with
  | nil => rfl
  | cons c text ih =>
    by_cases hc : c = '\n'
    · simpa [emptyLines, hc, BlockLine.content] using ih
    · simp [emptyLines, hc]

/-- Empty lines are read one after the other. -/
theorem linesFrom_emptyLines (hne : indent ≠ []) (hblank : ∀ c ∈ indent, c = ' ' ∨ c = '\t')
    (seen : List BlockLine) (text : List Char) :
    linesFrom indent seen text =
      linesFrom indent ((emptyLines text).reverse ++ seen) (text.dropWhile (· == '\n')) := by
  have htext := List.takeWhile_append_dropWhile (p := (· == '\n')) (l := text)
  have hplain : ∀ content, .text content ∈ emptyLines text → '\n' ∉ content := by
    intro content hmem
    simp [emptyLines] at hmem
  rw [← linesFrom_written hne hblank hplain, written_emptyLines, htext]

/-- A line with a content is read, and the empty lines behind it. -/
theorem linesFrom_text (hne : indent ≠ []) (hblank : ∀ c ∈ indent, c = ' ' ∨ c = '\t')
    (seen : List BlockLine) {content : List Char} (hcontent : '\n' ∉ content) (after : List Char) :
    linesFrom indent seen (indent ++ (content ++ '\n' :: after)) =
      linesFrom indent ((emptyLines after).reverse ++ .text content :: seen)
        (after.dropWhile (· == '\n')) := by
  have hplain : ∀ other, .text other ∈ [BlockLine.text content] → '\n' ∉ other := by
    simpa using hcontent
  have hline := linesFrom_written hne hblank hplain seen after
  rw [← linesFrom_emptyLines hne hblank]
  simpa [BlockLine.written] using hline

/-- How a block is read, in steps. -/
theorem scan_eq (text : List Char) :
    scan text =
      if indentOf text = [] then .error .noIndent
      else match linesFrom (indentOf text) [] text with
        | .error fault => .error fault
        | .ok (lines, rest) =>
          match BlockLayout.closing.isPrefixOf? (rest.dropWhile isClosingIndent) with
          | none => .error .notClosed
          | some after => .ok (⟨indentOf text, lines, rest.takeWhile isClosingIndent⟩, after) := by
  by_cases hne : indentOf text = []
  · simp only [scan, if_pos hne]
    rfl
  · simp only [scan, if_neg hne]
    cases linesFrom (indentOf text) [] text with
    | error fault => rfl
    | ok found =>
      obtain ⟨lines, rest⟩ := found
      cases BlockLayout.closing.isPrefixOf? (rest.dropWhile isClosingIndent) with
      | none => rfl
      | some after => rfl

end Block

/-! ## Rounds -/

namespace Spot

open Scan Block

variable {p : Spot} {taken rest text : List Char} {slot : Option Mark} {c : Char}

/-- A character that does not end the line is taken. -/
theorem run_blockLineRound_cons {seen : List Char} (hc : c ≠ '\n') :
    (blockLineRound seen).run (p.scanner taken (c :: rest) slot) =
      .ok (.inl (seen ++ [c]), p.scanner (taken ++ [c]) rest (some (p.mark taken))) := by
  rw [blockLineRound, run_bind_of_ok run_advance_cons]
  simp only [if_neg hc]
  rfl

/-- A line of a text block is read through its end. -/
theorem run_blockLine (p : Spot) (taken seen content rest : List Char) (slot : Option Mark)
    (hcontent : '\n' ∉ content) :
    ∃ slot', (iterate blockLineRound seen).run (p.scanner taken (content ++ '\n' :: rest) slot) =
      .ok (seen ++ content, p.scanner (taken ++ content ++ ['\n']) rest slot') := by
  induction content generalizing taken seen slot with
  | nil =>
    refine ⟨some (p.mark taken), run_iterate_done ?_⟩
    rw [blockLineRound, List.nil_append, run_bind_of_ok run_advance_cons, List.append_nil,
      List.append_nil]
    exact congrArg (fun round : Scan _ => round.run _) (if_pos rfl)
  -- The character is taken, and the rest of the line is read in the rounds that are left.
  | cons c content ih =>
    rw [List.mem_cons, not_or] at hcontent
    obtain ⟨slot', hline⟩ := ih (taken ++ [c]) (seen ++ [c]) (some (p.mark taken)) hcontent.2
    refine ⟨slot', ?_⟩
    rw [List.cons_append, run_iterate_next (run_blockLineRound_cons (Ne.symm hcontent.1))
      (by simp [remaining_scanner]), hline]
    simp

/-- A line of a text block at the end of the text is not finished. -/
theorem run_blockLine_open (p : Spot) (taken seen content : List Char) (slot : Option Mark)
    (hcontent : '\n' ∉ content) :
    (iterate blockLineRound seen).run (p.scanner taken content slot) =
      .error (p.fault ⟨.badBlock .endsInLine, []⟩) := by
  induction content generalizing taken seen slot with
  | nil =>
    refine run_iterate_stop ?_
    rw [blockLineRound, run_bind_of_ok run_advance_nil]
    rfl
  | cons c content ih =>
    rw [List.mem_cons, not_or] at hcontent
    rw [run_iterate_next (run_blockLineRound_cons (Ne.symm hcontent.1))
      (by simp [remaining_scanner])]
    exact ih (taken ++ [c]) (seen ++ [c]) _ hcontent.2

/-- A round of the lines of a text block reads a line and the empty lines behind it. -/
theorem run_blockRound (p : Spot) (indent front : List Char) (seen : List BlockLine)
    {content : List Char} (hcontent : '\n' ∉ content) (after : List Char) (slot : Option Mark) :
    (blockRound indent (seen.reverse.flatMap BlockLine.content)).run
        (p.scanner (front ++ written indent seen.reverse) (indent ++ (content ++ '\n' :: after))
          slot) =
      .ok ((if indent.isPrefixOf (after.dropWhile (· == '\n')) then Sum.inl else Sum.inr)
          (((emptyLines after).reverse ++ .text content :: seen).reverse.flatMap BlockLine.content),
        p.scanner
          (front ++ written indent ((emptyLines after).reverse ++ .text content :: seen).reverse)
          (after.dropWhile (· == '\n')) none) := by
  obtain ⟨slot₁, hskip⟩ :=
    run_skip p (front ++ written indent seen.reverse) indent (content ++ '\n' :: after) slot
  obtain ⟨slot₂, hline⟩ :=
    run_blockLine p (front ++ written indent seen.reverse ++ indent) [] content after slot₁ hcontent
  have hlines : ((emptyLines after).reverse ++ .text content :: seen).reverse =
      seen.reverse ++ (.text content :: emptyLines after) := by
    simp
  -- The same lines as they are written, and as they are read.
  have hwritten : front ++ written indent (seen.reverse ++ (.text content :: emptyLines after)) =
      front ++ written indent seen.reverse ++ indent ++ content ++ ['\n'] ++
        after.takeWhile (· == '\n') := by
    simp [written_append, written_emptyLines, BlockLine.written]
  have hread : (seen.reverse ++ (.text content :: emptyLines after)).flatMap BlockLine.content =
      seen.reverse.flatMap BlockLine.content ++ ([] ++ content) ++
        '\n' :: after.takeWhile (· == '\n') := by
    simp [content_emptyLines, BlockLine.content]
  rw [blockRound, run_bind_of_ok hskip, run_bind_of_ok hline, run_bind_of_ok run_readWhile,
    run_bind_of_ok run_rest, hlines, hwritten, hread]
  split <;> rfl

/-- The lines of a text block are read up to the first one that lacks the indent. -/
theorem run_blockLines {indent : List Char} (hne : indent ≠ [])
    (hblank : ∀ c ∈ indent, c = ' ' ∨ c = '\t') (p : Spot) (front : List Char)
    (seen : List BlockLine) (rest : List Char) (slot : Option Mark) (hindent : indent <+: rest) :
    (iterate (blockRound indent) (seen.reverse.flatMap BlockLine.content)).run
        (p.scanner (front ++ written indent seen.reverse) rest slot) =
      match linesFrom indent seen rest with
      | .ok (lines, after) =>
        .ok (lines.flatMap BlockLine.content, p.scanner (front ++ written indent lines) after none)
      | .error fault => .error (p.fault ⟨.badBlock fault, []⟩) := by
  -- A round takes a whole line, so the induction is on the length of what is left.
  induction hn : rest.length using Nat.strongRecOn generalizing seen rest slot with
  | ind n ih =>
    obtain ⟨line, rfl⟩ := hindent
    by_cases hline : '\n' ∈ line
    · obtain ⟨content, after, rfl, hcontent⟩ := List.eq_append_cons_of_mem hline
      have hround := run_blockRound p indent front seen hcontent after slot
      rw [linesFrom_text hne hblank seen hcontent after]
      by_cases hnext : indent <+: after.dropWhile (· == '\n')
      · -- The next line starts with the indent too.
        rw [if_pos (List.isPrefixOf_iff_prefix.mpr hnext)] at hround
        have hless : (after.dropWhile (· == '\n')).length <
            (indent ++ (content ++ '\n' :: after)).length := by
          have hle := (List.dropWhile_suffix (l := after) (· == '\n')).length_le
          simp
          omega
        rw [run_iterate_next hround (by simpa [remaining_scanner] using hless)]
        exact ih _ (hn ▸ hless) _ _ _ hnext rfl
      · -- The next line lacks the indent, so this round is the last.
        rw [if_neg (mt List.isPrefixOf_iff_prefix.mp hnext)] at hround
        have hhead : (after.dropWhile (· == '\n')).head? ≠ some '\n' := by
          intro hhead
          have hnot := List.head?_dropWhile_not (· == '\n') after
          simp [hhead] at hnot
        rw [run_iterate_done hround, linesFrom_stop hhead hnext]
    · -- The text ends inside the line.
      rw [linesFrom_endsInLine hne hblank hline]
      obtain ⟨slot', hskip⟩ := run_skip p (front ++ written indent seen.reverse) indent line slot
      refine run_iterate_stop ?_
      rw [blockRound, run_bind_of_ok hskip]
      exact run_bind_of_error (run_blockLine_open p _ [] line slot' hline)

/-- Behind its lines, a text block is closed or stays open. -/
theorem answers_closeBlock (p : Spot) (indent : List Char) (lines : List BlockLine)
    (rest : List Char) (slot : Option Mark) :
    p.Answers
      ((closeBlock indent (lines.flatMap BlockLine.content)).run
        (p.scanner (BlockLayout.opening ++ written indent lines) rest slot))
      (match BlockLayout.closing.isPrefixOf? (rest.dropWhile isClosingIndent) with
        | none => .error ⟨.badBlock .notClosed, []⟩
        | some after => .ok (.ofBlock ⟨indent, lines, rest.takeWhile isClosingIndent⟩, after)) := by
  rw [closeBlock, run_bind_of_ok run_readWhile, run_bind_of_ok run_rest]
  cases hclosing : BlockLayout.closing.isPrefixOf? (rest.dropWhile isClosingIndent) with
  | none =>
    have hopen := mt List.isPrefixOf_iff_prefix.mp (isPrefixOf?_eq_none.mp hclosing)
    rw [if_neg hopen]
    rfl
  | some after =>
    -- The bars are skipped, and the block is emitted as it stands in the source.
    have hafter := List.isPrefixOf?_eq_some_iff_append_eq.mp hclosing
    obtain ⟨slot', hskip⟩ :=
      run_skip p (BlockLayout.opening ++ written indent lines ++ rest.takeWhile isClosingIndent)
        BlockLayout.closing after none
    have hverbatim : (BlockLayout.mk indent lines (rest.takeWhile isClosingIndent)).verbatim =
        BlockLayout.opening ++ written indent lines ++ rest.takeWhile isClosingIndent ++
          BlockLayout.closing := by
      rw [verbatim_eq]
      simp
    rw [← hafter, if_pos (List.isPrefixOf_iff_prefix.mpr (List.prefix_append ..)),
      show (3 : Nat) = BlockLayout.closing.length from rfl, run_bind_of_ok hskip,
        run_bind_of_ok run_taken,
      ← hverbatim]
    exact ⟨slot', run_emitWith (Piece.toList_text_ofBlock _)⟩

/-- A text block is scanned behind its first bar. -/
theorem answers_textBlock :
    p.Answers (textBlock.run (p.scanner ['|'] ('|' :: '|' :: '\n' :: text) slot))
      (Piece.firstBlock text) := by
  obtain ⟨slot₁, hskip⟩ : ∃ slot',
      (skip 3).run (p.scanner ['|'] ('|' :: '|' :: '\n' :: text) slot) =
        .ok ((), p.scanner BlockLayout.opening text slot') :=
    run_skip p ['|'] ['|', '|', '\n'] text slot
  rw [textBlock, run_bind_of_ok hskip, run_bind_of_ok run_readWhile, run_bind_of_ok run_rest,
    Piece.firstBlock, scan_eq, ← indentOf]
  by_cases hne : indentOf text = []
  · -- The first line with a content has no indent.
    rw [if_pos hne, if_pos hne]
    rfl
  · rw [if_neg hne, if_neg hne]
    have hindent : indentOf text <+: text.dropWhile (· == '\n') := List.takeWhile_prefix _
    -- The empty lines in front of the first line are read already.
    have hloop := run_blockLines hne (fun c hc => mem_indentOf hc) p BlockLayout.opening
      (emptyLines text).reverse (text.dropWhile (· == '\n')) none hindent
    have hlines := linesFrom_emptyLines hne (fun c hc => mem_indentOf hc) [] text
    rw [List.append_nil] at hlines
    rw [List.reverse_reverse, content_emptyLines, written_emptyLines, ← hlines] at hloop
    cases hread : linesFrom (indentOf text) [] text with
    | error fault =>
      rw [hread] at hloop
      exact run_bind_of_error hloop
    | ok found =>
      obtain ⟨lines, after⟩ := found
      rw [hread] at hloop
      rw [run_bind_of_ok hloop]
      have hclose := answers_closeBlock p (indentOf text) lines after none
      cases hclosing : BlockLayout.closing.isPrefixOf? (after.dropWhile isClosingIndent) with
      | none =>
        simp only [hclosing] at hclose ⊢
        exact hclose
      | some behind =>
        simp only [hclosing] at hclose ⊢
        exact hclose

end Spot

end JsonnetSyntax
