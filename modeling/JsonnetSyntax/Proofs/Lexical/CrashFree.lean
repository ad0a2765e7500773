import JsonnetSyntax.Proofs.Lexical.BlockScanning

/-!
# Scanning never crashes

A scanner takes one round per lexeme or comment, and one per blank: the blanks are put together
afterwards.  So a row of pieces that is cut off a text leads from the spot in front of it to the
spot behind it, in rounds that never crash.  At the end of the text the tokens are complete; where
no piece can be cut off, scanning stops with the fault.

## Key results

- `Spot.answers_lexeme`: a lexeme or comment, by its first character
- `Spot.run_blanks`: blanks are put together
- `Spot.run_pieces`: the rounds over a row of pieces
- `scan_crashFree`: a scanner gives the tokens or the fault of the text
-/

namespace JsonnetSyntax

namespace Piece

variable {c : Char} {text after : List Char} {data : String}

/-- A symbol that opens neither a comment nor a text block starts an operator. -/
theorem firstSymbolic_eq_operator (hslash : c = '/' → text.head? ≠ some '/' ∧ text.head? ≠ some '*')
    (hhash : c ≠ '#') (hbar : c = '|' → ¬ ['|', '|', '\n'] <+: text) :
    firstSymbolic c text =
      .ok (.ofLexeme .operator (SymbolRun.scan c text).1, (SymbolRun.scan c text).2) := by
  -- The arms for comments and blocks are those that the hypotheses rule out.
  unfold firstSymbolic
  split
  · exact absurd rfl (hslash rfl).1
  · exact absurd rfl hhash
  · exact absurd rfl (hslash rfl).2
  · next text => exact absurd (List.prefix_append ['|', '|', '\n'] text) (hbar rfl)
  · rfl

/-- No symbol starts blanks. -/
theorem firstSymbolic_ne_whitespace :
    firstSymbolic c text ≠ .ok (.fodder ⟨.whitespace, data⟩, after) := by
  intro h
  unfold firstSymbolic firstBlockComment firstBlock at h
  split at h
  · simp [ofFodder] at h
  · simp [ofFodder] at h
  · split at h <;> simp [ofFodder] at h
  · split at h <;> simp [ofBlock] at h
  · simp [ofLexeme] at h

/-- Only a blank starts whitespace. -/
theorem first_ne_whitespace (hc : isBlank c = false) :
    first c text ≠ .ok (.fodder ⟨.whitespace, data⟩, after) := by
  intro h
  unfold first firstNumber firstQuoted firstNegation at h
  rw [hc, if_neg Bool.false_ne_true] at h
  -- One case for each scanner, in the order of `first`.
  split at h
  · simp [ofLexeme] at h
  split at h
  · split at h <;> simp [ofLexeme] at h
  split at h
  · simp [ofLexeme] at h
  split at h
  · split at h <;> simp [ofLexeme] at h
  split at h
  · split at h <;> simp [ofLexeme] at h
  split at h
  · split at h <;> simp [ofLexeme] at h
  split at h
  · simp [ofWord, ofLexeme] at h
  split at h
  · exact firstSymbolic_ne_whitespace h
  · cases h

end Piece

namespace Spot

open Scan

variable {p q : Spot} {taken rest text : List Char} {slot : Option Mark} {c : Char}

/-! ## All lexemes -/

/-- What starts with a slash is a comment of one of two kinds, or an operator. -/
theorem answers_slash :
    p.Answers (slash.run (p.scanner ['/'] text slot)) (Piece.firstSymbolic '/' text) := by
  rw [slash, run_bind_of_ok run_peek]
  by_cases hslash : text.head? = some '/'
  · obtain ⟨text, rfl⟩ := List.head?_eq_some_iff.mp hslash
    rw [if_pos hslash, run_bind_of_ok run_advance_cons]
    exact answers_lineComment
  · rw [if_neg hslash, run_bind_of_ok run_peek]
    by_cases hstar : text.head? = some '*'
    · obtain ⟨text, rfl⟩ := List.head?_eq_some_iff.mp hstar
      rw [if_pos hstar]
      exact answers_blockComment
    · rw [if_neg hstar,
        Piece.firstSymbolic_eq_operator (fun _ => ⟨hslash, hstar⟩) (by decide) (by simp)]
      exact answers_operator

/-- What starts with a bar is a text block, or an operator. -/
theorem answers_bar :
    p.Answers (bar.run (p.scanner ['|'] text slot)) (Piece.firstSymbolic '|' text) := by
  rw [bar, run_bind_of_ok run_rest]
  by_cases hblock : ['|', '|', '\n'] <+: text
  · obtain ⟨text, rfl⟩ := hblock
    rw [if_pos (List.isPrefixOf_iff_prefix.mpr (List.prefix_append ..))]
    exact answers_textBlock
  · rw [if_neg (mt List.isPrefixOf_iff_prefix.mp hblock),
      Piece.firstSymbolic_eq_operator (by simp) (by decide) (fun _ => hblock)]
    exact answers_operator

/-- What starts with a symbol is scanned behind the symbol. -/
theorem answers_symbolic :
    p.Answers ((symbolic c).run (p.scanner [c] text slot)) (Piece.firstSymbolic c text) := by
  unfold symbolic
  by_cases hslash : c = '/'
  · rw [if_pos hslash, hslash]
    exact answers_slash
  rw [if_neg hslash]
  by_cases hhash : c = '#'
  · rw [if_pos hhash, hhash]
    exact answers_lineComment
  rw [if_neg hhash]
  by_cases hbar : c = '|'
  · rw [if_pos hbar, hbar]
    exact answers_bar
  rw [if_neg hbar,
    Piece.firstSymbolic_eq_operator (fun h => absurd h hslash) hhash (fun h => absurd h hbar)]
  exact answers_operator

/-- What starts with an exclamation mark is one of two operators. -/
theorem answers_negation :
    p.Answers (negation.run (p.scanner ['!'] text slot)) (.ok (Piece.firstNegation text)) := by
  rw [negation, run_bind_of_ok run_peek]
  by_cases hequals : text.head? = some '='
  · obtain ⟨text, rfl⟩ := List.head?_eq_some_iff.mp hequals
    rw [if_pos hequals, run_bind_of_ok run_advance_cons]
    exact ⟨_, run_emit (by simp)⟩
  · have hfirst : Piece.firstNegation text = (.ofLexeme .operator ['!'], text) := by
      unfold Piece.firstNegation
      split
      · exact absurd rfl hequals
      · rfl
    rw [if_neg hequals, hfirst]
    exact ⟨_, run_emit (by simp)⟩

/-- What starts with a plus is an operator of its own, unless a colon follows. -/
theorem answers_plus : p.Answers (plus.run (p.scanner ['+'] text slot)) (Piece.first '+' text) := by
  rw [plus, run_bind_of_ok run_peek]
  by_cases hcolon : text.head? = some ':'
  · have hfirst : Piece.first '+' text = Piece.firstSymbolic '+' text := by
      have hpunct : Punct.ofChar? '+' = none := rfl
      simp only [Piece.first, Piece.standsAlone, hcolon, hpunct]
      rfl
    rw [if_pos hcolon, hfirst]
    exact answers_symbolic
  · have hfirst : Piece.first '+' text = .ok (.ofLexeme .operator ['+'], text) := by
      have hpunct : Punct.ofChar? '+' = none := rfl
      have halone : Piece.standsAlone '+' text = true := by simp [Piece.standsAlone, hcolon]
      simp only [Piece.first, halone, hpunct]
      rfl
    rw [if_neg hcolon, hfirst]
    exact ⟨_, run_emit (by simp)⟩

/-- Whatever starts with a character that is no blank is scanned behind that character. -/
theorem answers_lexeme (hblank : Piece.isBlank c = false) :
    p.Answers ((lexeme c).run (p.scanner [c] text (some (p.mark [])))) (Piece.first c text) := by
  by_cases hplus : c = '+'
  · rw [hplus]
    exact answers_plus
  have halone : Piece.standsAlone c text = true ↔ c = '~' ∨ c = '-' := by
    simp [Piece.standsAlone, hplus]
  have hform : ∀ content : List Char,
      (Lexeme.sourceText ⟨.string .double, String.ofList content⟩ none).toList =
          Piece.doubleQuote :: (content ++ [Piece.doubleQuote]) ∧
        (Lexeme.sourceText ⟨.string .single, String.ofList content⟩ none).toList =
          Piece.singleQuote :: (content ++ [Piece.singleQuote]) := by
    simp [Lexeme.sourceText, Piece.doubleQuote, Piece.singleQuote]
  -- The branches of the two programs are in the same order, so they are taken together.
  simp only [lexeme, Piece.first, hblank, Bool.false_eq_true, if_false, if_neg hplus, beq_iff_eq,
    halone]
  cases hpunct : Punct.ofChar? c with
  | some mark => exact ⟨_, run_emit (by simp)⟩
  | none =>
    dsimp only
    by_cases hnot : c = '!'
    · rw [if_pos hnot, if_pos hnot, hnot]
      exact answers_negation
    rw [if_neg hnot, if_neg hnot]
    by_cases hsign : c = '~' ∨ c = '-'
    · rw [if_pos hsign, if_pos hsign]
      exact ⟨_, run_emit (by simp)⟩
    rw [if_neg hsign, if_neg hsign]
    by_cases hdigit : c.isDigit = true
    · -- The step onto the digit was the last one, so it can be taken back.
      have hback : [] ++ c :: text = [c] ++ text := rfl
      rw [if_pos hdigit, if_pos hdigit, run_bind_of_ok (run_stepBack hback)]
      exact answers_number hdigit
    rw [if_neg hdigit, if_neg hdigit]
    by_cases hdouble : c = Piece.doubleQuote
    · rw [if_pos hdouble, if_pos hdouble, hdouble]
      exact answers_quoted (by decide) fun content => (hform content).1
    rw [if_neg hdouble, if_neg hdouble]
    by_cases hsingle : c = Piece.singleQuote
    · rw [if_pos hsingle, if_pos hsingle, hsingle]
      exact answers_quoted (by decide) fun content => (hform content).2
    rw [if_neg hsingle, if_neg hsingle]
    by_cases hword : Piece.isWordStart c = true
    · rw [if_pos hword, if_pos hword]
      exact answers_word
    rw [if_neg hword, if_neg hword]
    by_cases hsymbol : SymbolRun.isSymbol c = true
    · rw [if_pos hsymbol, if_pos hsymbol]
      exact answers_symbolic
    rw [if_neg hsymbol, if_neg hsymbol]
    -- No character was looked at behind the stray one, so its position is known.
    exact run_bind_of_ok run_previousPosition

/-! ## Rounds -/

/-- At the end of the text, a round ends the scanning. -/
theorem run_round_nil :
    (Scan.round ()).run (p.scanner [] [] slot) =
      .ok (.inr (), p.scanner [] [] (some (p.mark []))) := by
  rw [Scan.round, run_bind_of_ok run_advance_nil]
  rfl

/-- A round that ends behind what it reads is followed by the others. -/
theorem run_rounds_of_lexeme {after : List Char} {slot' : Option Mark}
    (h : (lexeme c).run (p.scanner [c] text (some (p.mark []))) =
      .ok ((), q.scanner [] after slot'))
    (hless : after.length ≤ text.length) :
    rounds.run (p.scanner [] (c :: text) slot) =
      rounds.run (q.scanner [] after slot') := by
  have hround : (Scan.round ()).run (p.scanner [] (c :: text) slot) =
      .ok (.inl (), q.scanner [] after slot') := by
    rw [Scan.round, run_bind_of_ok run_advance_cons]
    exact run_bind_of_ok h
  -- A round is a step onto the first character and the scanner that it chooses.
  refine run_iterate_next hround ?_
  rw [remaining_scanner, remaining_scanner, List.length_cons]
  omega

/-! ## Blanks -/

/-- Blanks behind fodder of another kind, or behind a token, are fodder of their own. -/
theorem run_addWhitespace (h : ∀ data, p.assembly.fodder.back? ≠ some ⟨.whitespace, data⟩) :
    addWhitespace.run (p.scanner taken rest slot) =
      .ok ((), (p.add (.ofFodder .whitespace taken)).scanner [] rest slot) := by
  have hmerge : mergeWhitespace p.assembly.fodder (String.ofList taken) =
      p.assembly.fodder.push ⟨.whitespace, String.ofList taken⟩ := by
    unfold mergeWhitespace
    split
    · next data hback => exact absurd hback (h data)
    · rfl
  rw [addWhitespace, run_bind_of_ok run_taken, run_bind_of_ok rfl, run_restart rfl]
  simp [add, scanner, Assembly.add, Piece.ofFodder, Piece.text, hmerge]

/-- Blanks behind blanks are put together with them. -/
theorem run_addWhitespace_behind {blanks : List Char} :
    addWhitespace.run ((p.add (.ofFodder .whitespace blanks)).scanner taken rest slot) =
      .ok ((), (p.add (.ofFodder .whitespace (blanks ++ taken))).scanner [] rest slot) := by
  rw [addWhitespace, run_bind_of_ok run_taken, run_bind_of_ok rfl, run_restart rfl]
  simp [add, scanner, Assembly.add, Piece.ofFodder, Piece.text, mergeWhitespace]

/-- What starts with a blank is put together with the blanks in front of it. -/
theorem run_lexeme_blank (hc : Piece.isBlank c = true) (s : Scanner) :
    (lexeme c).run s = addWhitespace.run s := by
  rw [lexeme, if_pos hc]

/-- The rounds over the blanks that follow a blank put them together. -/
theorem run_blanks (p : Spot) (blanks text : List Char) (slot : Option Mark) :
    ∃ slot', rounds.run ((p.add (.ofFodder .whitespace blanks)).scanner [] text slot) =
      rounds.run
        ((p.add (.ofFodder .whitespace (blanks ++ text.takeWhile Piece.isBlank))).scanner []
          (text.dropWhile Piece.isBlank) slot') := by
  -- By induction on the text: each blank is a round, and the first other character ends the run.
  induction text generalizing blanks slot with
  | nil => exact ⟨slot, by simp⟩
  | cons c text ih =>
    by_cases hc : Piece.isBlank c = true
    · obtain ⟨slot', hmore⟩ :=
        ih (blanks ++ [c]) (some ((p.add (.ofFodder .whitespace blanks)).mark []))
      have hlexeme : (lexeme c).run ((p.add (.ofFodder .whitespace blanks)).scanner [c] text
          (some ((p.add (.ofFodder .whitespace blanks)).mark []))) = _ :=
        (run_lexeme_blank hc _).trans run_addWhitespace_behind
      refine ⟨slot', ?_⟩
      rw [run_rounds_of_lexeme hlexeme (Nat.le_refl _), hmore]
      simp [hc]
    · -- No blank follows, so nothing is put together.
      exact ⟨slot, by simp [hc]⟩

/-! ## Rows of pieces -/

/-- If the fodder at a spot ends in blanks, no blank follows. -/
def Fresh (p : Spot) (text : List Char) : Prop :=
  ∀ data, p.assembly.fodder.back? = some ⟨.whitespace, data⟩ →
    ∀ c, text.head? = some c → Piece.isBlank c = false

/-- A whole run of blanks is a piece, so no blank follows it. -/
theorem Fresh.add {piece : Piece} {after : List Char}
    (h : Piece.first c text = .ok (piece, after)) :
    (p.add piece).Fresh after := by
  -- Behind a lexeme no fodder waits; behind blanks, all blanks have been taken.
  intro data hback d hd
  cases piece with
  | lexeme content block => simp [Spot.add, Assembly.add, Assembly.push] at hback
  | fodder element =>
    obtain rfl : element = ⟨.whitespace, data⟩ := by simpa [Spot.add, Assembly.add] using hback
    cases hc : Piece.isBlank c with
    | false => exact absurd h (Piece.first_ne_whitespace hc)
    | true =>
      rw [Piece.first, if_pos hc] at h
      cases h
      have hnot := List.head?_dropWhile_not Piece.isBlank text
      simpa [hd] using hnot

/-- A piece that is cut off leads to the spot behind it. -/
theorem run_piece {piece : Piece} {after : List Char} (h : Piece.first c text = .ok (piece, after))
    (hfresh : p.Fresh (c :: text)) :
    ∃ slot', rounds.run (p.scanner [] (c :: text) slot) =
      rounds.run ((p.add piece).scanner [] after slot') := by
  cases hc : Piece.isBlank c with
  | true =>
    -- The blanks are one piece, but they are read in a round each.
    have hback : ∀ data, p.assembly.fodder.back? ≠ some ⟨.whitespace, data⟩ := by
      intro data hback
      have hnot := hfresh data hback c rfl
      rw [hc] at hnot
      cases hnot
    have hlexeme : (lexeme c).run (p.scanner [c] text (some (p.mark []))) = _ :=
      (run_lexeme_blank hc _).trans (run_addWhitespace hback)
    obtain ⟨slot', hblanks⟩ := run_blanks p [c] text (some (p.mark []))
    rw [Piece.first, if_pos hc] at h
    cases h
    exact ⟨slot', (run_rounds_of_lexeme hlexeme (Nat.le_refl _)).trans hblanks⟩
  | false =>
    have hanswers : p.Answers _ (Piece.first c text) := answers_lexeme hc
    have hless := Piece.length_le_of_first h
    rw [h] at hanswers
    obtain ⟨slot', hlexeme⟩ := hanswers
    exact ⟨slot', run_rounds_of_lexeme hlexeme hless⟩

/-- A row of pieces that is cut off leads to the spot behind it. -/
theorem run_pieces {pieces : List Piece} (h : Cuts text pieces rest) (hfresh : p.Fresh text) :
    ∃ slot', rounds.run (p.scanner [] text slot) =
        rounds.run ((pieces.foldl Spot.add p).scanner [] rest slot') ∧
      (pieces.foldl Spot.add p).Fresh rest := by
  -- By induction on the pieces; each leads to a spot at which the next one is fresh.
  induction h generalizing p slot with
  | nil text => exact ⟨slot, rfl, hfresh⟩
  | @cons c text mid rest piece pieces hfirst hothers ih =>
    obtain ⟨slot₁, hpiece⟩ : ∃ slot', rounds.run (p.scanner [] (c :: text) slot) =
        rounds.run ((p.add piece).scanner [] mid slot') := run_piece hfirst hfresh
    obtain ⟨slot₂, hrow, hafter⟩ : ∃ slot', rounds.run ((p.add piece).scanner [] mid slot₁) =
          rounds.run ((pieces.foldl Spot.add (p.add piece)).scanner [] rest slot') ∧
        (pieces.foldl Spot.add (p.add piece)).Fresh rest := ih (.add hfirst)
    exact ⟨slot₂, hpiece.trans hrow, hafter⟩

/-- Behind a row of pieces, the file is the same, the pieces are assembled and their text is
read. -/
theorem foldl_add (p : Spot) (pieces : List Piece) :
    (pieces.foldl Spot.add p).file = p.file ∧
      (pieces.foldl Spot.add p).assembly = pieces.foldl (Assembly.add p.file) p.assembly ∧
      (pieces.foldl Spot.add p).before = p.before ++ Cut.written pieces := by
  induction pieces generalizing p with
  | nil => exact ⟨rfl, rfl, (List.append_nil _).symm⟩
  | cons piece pieces ih =>
    obtain ⟨hfile, hassembly, hbefore⟩ := ih (p.add piece)
    refine ⟨hfile, hassembly, ?_⟩
    rw [List.foldl_cons, hbefore]
    simp [Spot.add, Cut.written]

/-- At the end of the text, the token that marks it is made. -/
theorem run_all_end (h : rounds.run (p.scanner [] text none) =
      rounds.run (q.scanner [] [] slot)) :
    all.run (p.scanner [] text none) =
      .ok ((), (q.add (.ofLexeme .endOfFile [])).scanner [] [] (some (q.mark []))) := by
  -- The last round finds no character, so the loop ends and the token is made.
  have hlast : rounds.run (q.scanner [] [] slot) = _ := run_iterate_done run_round_nil
  rw [all, run_bind_of_ok (h.trans hlast)]
  exact run_emit (by simp)

/-- Where no piece can be cut off, scanning stops. -/
theorem run_all_fault {interruption : Interruption}
    (hfirst : Piece.first c rest = .error interruption) (h : rounds.run (p.scanner [] text none) =
      rounds.run (q.scanner [] (c :: rest) slot)) :
    all.run (p.scanner [] text none) = .error (q.fault interruption) := by
  have hblank : Piece.isBlank c = false := by
    by_contra hblank
    rw [Piece.first, if_pos (by simpa using hblank)] at hfirst
    cases hfirst
  -- The scanner chosen by the first character gives the same fault.
  have hanswers : q.Answers _ (Piece.first c rest) := answers_lexeme hblank
  rw [hfirst] at hanswers
  have hround :
      (Scan.round ()).run (q.scanner [] (c :: rest) slot) = .error (q.fault interruption) := by
    rw [Scan.round, run_bind_of_ok run_advance_cons]
    exact run_bind_of_error hanswers
  have hlast : rounds.run (q.scanner [] (c :: rest) slot) = _ := run_iterate_stop hround
  exact run_bind_of_error (h.trans hlast)

end Spot

/-- Scanning a text with a cursor never crashes: no step back without a step, no position, slice or
    difference that does not exist, no case that was thought impossible, and no loop that goes on
    without reading.  It ends with the tokens of the text, or with the fault in it. -/
theorem scan_crashFree (file source : String) :
    (∀ crash, Scanner.lex file source ≠ .error (.crash crash)) ∧
      ((∃ tokens, Scanner.lex file source = .ok tokens ∧ lex file source = .ok tokens) ∨
        ∃ e, Scanner.lex file source = .error (.fault e) ∧ lex file source = .error e) := by
  have hends : (∃ tokens, Scanner.lex file source = .ok tokens ∧ lex file source = .ok tokens) ∨
      ∃ e, Scanner.lex file source = .error (.fault e) ∧ lex file source = .error e := by
    have hsource :
        Scanner.ofSource file source = (Spot.origin file).scanner [] source.toList none := rfl
    have hfresh : (Spot.origin file).Fresh source.toList := by
      intro data hback
      cases hback
    obtain ⟨pieces, rest, hcuts, hstop⟩ := Cuts.exists_stop source.toList
    obtain ⟨slot, hrounds, -⟩ := Spot.run_pieces hcuts hfresh
    have hfile : (pieces.foldl Spot.add (.origin file)).file = file := (Spot.foldl_add _ pieces).1
    have hassembly :
        (pieces.foldl Spot.add (.origin file)).assembly = pieces.foldl (Assembly.add file) {} :=
      (Spot.foldl_add _ pieces).2.1
    have hbefore : (pieces.foldl Spot.add (.origin file)).before = Cut.written pieces :=
      (Spot.foldl_add _ pieces).2.2
    -- Either the whole text is cut into pieces, or cutting stops at a fault.
    rcases hstop with rfl | ⟨c, more, interruption, rfl, hfirst⟩
    · refine .inl ⟨assemble file pieces, ?_, lex_eq_ok_iff.mpr ⟨pieces, hcuts, rfl⟩⟩
      rw [Scanner.lex, hsource, Spot.run_all_end hrounds, assemble, ← hassembly]
      show Except.ok (Assembly.finish (pieces.foldl Spot.add (.origin file)).file _) = _
      rw [hfile]
    · refine .inr ⟨_, ?_, lex_eq_error hcuts hfirst⟩
      -- The place of the fault, counted from the last piece and from the start of the text.
      have hposition :
          (pieces.foldl Spot.add (.origin file)).assembly.position.after interruption.read =
          .ofText (Cut.written pieces ++ interruption.read) := by
        rw [Spot.position_eq, hbefore, ← Position.after_append, Position.origin_after]
      rw [Scanner.lex, hsource, Spot.run_all_fault hfirst hrounds, Spot.fault, hposition, hfile]
      rfl
  refine ⟨?_, hends⟩
  rintro crash hcrash
  obtain ⟨tokens, htokens, -⟩ | ⟨e, hfault, -⟩ := hends
  · cases hcrash.symm.trans htokens
  · cases hcrash.symm.trans hfault

end JsonnetSyntax
