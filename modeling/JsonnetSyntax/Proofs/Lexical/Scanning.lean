import JsonnetSyntax.Proofs.Lexical.NumeralStates
import JsonnetSyntax.Proofs.Lexical.ScanSteps

/-!
# Scanning lexemes

Every kind of lexeme has its own way of being scanned, with loops that look ahead, step back and
count offsets.  Here each of them is compared with the cut that takes the same lexeme off the front
of a list of characters: they stop at the same place with the same piece, or report the same fault.
In particular none of them crashes.

## Key results

- `Spot.Answers`: scanning gives what a cut gives
- `Spot.answers_word`, `Spot.answers_quoted`, `Spot.answers_number`: words, strings and numbers
- `Spot.answers_lineComment`, `Spot.answers_blockComment`, `Spot.answers_operator`: comments and
  operators
-/

namespace JsonnetSyntax

namespace Spot

open Scan

/-- Scanning ends as the cut of a piece does: behind the piece, or with the fault. -/
def Answers (p : Spot) (result : Except Halt (Unit × Scanner)) :
    Except Interruption (Piece × List Char) → Prop
  | .ok cut => ∃ slot, result = .ok ((), (p.add cut.1).scanner [] cut.2 slot)
  | .error interruption => result = .error (p.fault interruption)

variable {p : Spot} {taken front rest text : List Char} {slot : Option Mark} {c : Char}

/-! ## Words and strings -/

/-- A word is scanned through its last letter or digit. -/
theorem answers_word :
    p.Answers (word.run (p.scanner [c] text slot))
      (.ok (.ofWord (c :: text.takeWhile Piece.isWordChar), text.dropWhile Piece.isWordChar)) := by
  refine ⟨none, ?_⟩
  have hkind : ∀ word form, TokenKind.ofWord word ≠ .string form := by
    intro word form
    unfold TokenKind.ofWord
    split <;> simp
  rw [word, run_bind_of_ok run_readWhile, run_bind_of_ok run_taken]
  exact run_emit (hkind _)

/-- A backslash at the end of the text escapes nothing. -/
theorem run_escaped_nil :
    escaped.run (p.scanner taken [] slot) = .ok ((), p.scanner taken [] none) := by
  rw [escaped, run_bind_of_ok run_peek]
  rfl

/-- A backslash escapes the character behind it, whatever it is. -/
theorem run_escaped_cons :
    escaped.run (p.scanner taken (c :: rest) slot) =
      .ok ((), p.scanner (taken ++ [c]) rest (some (p.mark taken))) := by
  rw [escaped, run_bind_of_ok run_peek]
  exact run_bind_of_ok run_advance_cons

/-- A string is read through its closing quote, or to the end of the text. -/
theorem run_quoted {quote : Char} (hquote : quote ≠ '\x5c') (p : Spot) (front seen rest : List Char)
    (slot : Option Mark) :
    match Quoted.scanFrom quote seen rest with
    | none =>
      (iterate (quotedRound quote) ()).run (p.scanner (front ++ seen.reverse) rest slot) =
        .error (p.fault ⟨.openString, []⟩)
    | some (content, after) => ∃ slot',
      (iterate (quotedRound quote) ()).run (p.scanner (front ++ seen.reverse) rest slot) =
        .ok ((), p.scanner (front ++ content ++ [quote]) after slot') := by
  -- By induction on the scanning of the text; each of its steps is a round of the loop.
  fun_induction Quoted.scanFrom quote seen rest generalizing slot with
  | case1 seen =>
    refine run_iterate_stop ?_
    rw [quotedRound, run_bind_of_ok run_advance_nil]
    rfl
  | case2 seen c text ih =>
    have hround :
        (quotedRound quote ()).run (p.scanner (front ++ seen.reverse) ('\x5c' :: c :: text) slot) =
        .ok (.inl (), p.scanner (front ++ (c :: '\x5c' :: seen).reverse) text
          (some (p.mark (front ++ seen.reverse ++ ['\x5c'])))) := by
      have htaken : front ++ (c :: '\x5c' :: seen).reverse =
        front ++ seen.reverse ++ ['\x5c'] ++ [c] := by simp
      rw [quotedRound, run_bind_of_ok run_advance_cons, htaken]
      simp only [if_neg hquote.symm, if_true]
      exact run_bind_of_ok run_escaped_cons
    have hless : text.length < (('\x5c' :: c :: text : List Char)).length := by
      rw [List.length_cons, List.length_cons]
      omega
    rw [run_iterate_next hround (by rw [remaining_scanner, remaining_scanner]; exact hless)]
    exact ih _
  | case3 seen text _ =>
    refine ⟨some (p.mark (front ++ seen.reverse)), run_iterate_done ?_⟩
    rw [quotedRound, run_bind_of_ok run_advance_cons]
    simp only [if_true]
    rfl
  | case4 seen c text hescaped hc ih =>
    have hround :
        ∃ slot', (quotedRound quote ()).run (p.scanner (front ++ seen.reverse) (c :: text) slot) =
        .ok (.inl (), p.scanner (front ++ (c :: seen).reverse) text slot') := by
      rw [quotedRound, run_bind_of_ok run_advance_cons, List.reverse_cons, ← List.append_assoc]
      simp only [if_neg hc]
      by_cases hslash : c = '\x5c'
      · -- A backslash in front of another character is the case above.
        cases text with
        | nil =>
          rw [if_pos hslash]
          exact ⟨none, run_bind_of_ok run_escaped_nil⟩
        | cons d text => exact absurd rfl (hescaped d text hslash)
      · rw [if_neg hslash]
        exact ⟨_, rfl⟩
    obtain ⟨slot', hround⟩ := hround
    rw [run_iterate_next hround (by simp [remaining_scanner])]
    exact ih _

/-- A quoted string is scanned behind its opening quote. -/
theorem answers_quoted {form : StringForm} {quote : Char} (hquote : quote ≠ '\x5c')
    (hform : ∀ content, (Lexeme.sourceText ⟨.string form, String.ofList content⟩ none).toList =
      quote :: (content ++ [quote])) :
    p.Answers ((quoted form quote).run (p.scanner [quote] text slot))
      (Piece.firstQuoted form quote text) := by
  have hloop := run_quoted hquote p [quote] [] text slot
  rw [List.reverse_nil, List.append_nil] at hloop
  rw [quoted, run_bind_of_ok run_offset, Piece.firstQuoted, Quoted.scan]
  cases hscan : Quoted.scanFrom quote [] text with
  | none =>
    rw [hscan] at hloop
    exact run_bind_of_error hloop
  | some found =>
    obtain ⟨content, after⟩ := found
    rw [hscan] at hloop
    obtain ⟨slot', hloop⟩ := hloop
    refine ⟨slot', ?_⟩
    -- The closing quote was read last, so the content stops one character in front of the cursor.
    have hstop : (p.before ++ ([quote] ++ content ++ [quote])).length - 1 =
        (p.before ++ [quote] ++ content).length := by
      simp
    have htext :
        [quote] ++ content ++ [quote] ++ after = [quote] ++ (content ++ ([quote] ++ after)) := by
      simp
    have hpos : 1 ≤ (p.before ++ ([quote] ++ content ++ [quote])).length := by
      simp
      omega
    rw [run_bind_of_ok hloop, run_bind_of_ok run_offset, run_bind_of_ok (run_sub hpos), hstop,
      run_bind_of_ok (run_slice htext)]
    exact run_emitWith (hform content)

/-! ## Numbers -/

/-- A step forward can be taken back, also at the end of the text. -/
theorem exists_run_advance (p : Spot) (taken rest : List Char) (slot : Option Mark) :
    ∃ front back, taken ++ rest = front ++ back ∧
      advance.run (p.scanner taken rest slot) =
        .ok (rest.head?, p.scanner front back (some (p.mark taken))) := by
  cases rest with
  | nil => exact ⟨taken, [], rfl, run_advance_nil⟩
  | cons c rest => exact ⟨taken ++ [c], rest, List.append_cons taken c rest, run_advance_cons⟩

/-- A round of a number that takes no character. -/
theorem run_numberRound_stop {state : NumeralState}
    (h : ∀ c, rest.head? = some c → state.next? c = none) :
    (numberRound state).run (p.scanner taken rest slot) =
      match state.missing? with
      | none => .ok (.inr (), p.scanner taken rest none)
      | some part => .error (p.fault ⟨.brokenNumber part rest.head?, taken⟩) := by
  obtain ⟨front, back, htext, hadvance⟩ := exists_run_advance p taken rest slot
  have hnone : rest.head?.bind state.next? = none := Option.bind_eq_none_iff.mpr h
  rw [numberRound, run_bind_of_ok hadvance, hnone]
  cases state.missing? with
  | none => exact run_bind_of_ok (run_stepBack htext)
  | some part =>
    -- The step forward still is the last one, so the place in front of it is known.
    exact run_bind_of_ok run_previousPosition

/-- Where the next character may not stand, the rounds of a number end. -/
theorem run_number_stop {state : NumeralState}
    (h : ∀ c, rest.head? = some c → state.next? c = none) :
    (iterate numberRound state).run (p.scanner taken rest slot) =
      match state.readFrom taken rest with
      | .ok (all, after) => .ok ((), p.scanner all after none)
      | .error interruption => .error (p.fault interruption) := by
  have hround : (numberRound state).run (p.scanner taken rest slot) = _ := run_numberRound_stop h
  rw [NumeralState.readFrom_stop h]
  cases hmissing : state.missing? with
  | none =>
    rw [hmissing] at hround
    exact run_iterate_done hround
  | some part =>
    rw [hmissing] at hround
    exact run_iterate_stop hround

/-- The rounds of a number read what its grammar says. -/
theorem run_number (p : Spot) (state : NumeralState) (taken rest : List Char) (slot : Option Mark) :
    (iterate numberRound state).run (p.scanner taken rest slot) =
      match state.readFrom taken rest with
      | .ok (all, after) => .ok ((), p.scanner all after none)
      | .error interruption => .error (p.fault interruption) := by
  -- By induction on the text: each round takes one character, and leads to the next place.
  induction rest generalizing state taken slot with
  | nil => exact run_number_stop (by simp)
  | cons c rest ih =>
    cases hnext : state.next? c with
    | none => exact run_number_stop (by simpa using hnext)
    | some next =>
      have hround : (numberRound state).run (p.scanner taken (c :: rest) slot) =
          .ok (.inl next, p.scanner (taken ++ [c]) rest (some (p.mark taken))) := by
        rw [numberRound, run_bind_of_ok run_advance_cons, Option.bind_some, hnext]
        rfl
      rw [run_iterate_next hround (by simp [remaining_scanner]), NumeralState.readFrom_next hnext]
      exact ih next (taken ++ [c]) _

/-- A number is scanned from its first digit on. -/
theorem answers_number (hc : c.isDigit = true) :
    p.Answers (number.run (p.scanner [] (c :: text) slot)) (Piece.firstNumber c text) := by
  -- Every digit leads to a place inside the number, so no other character has to be dealt with.
  obtain ⟨state, hstate⟩ : ∃ state, NumeralState.first? c = some state := by
    unfold NumeralState.first?
    split_ifs with hzero
    · exact ⟨_, rfl⟩
    · exact ⟨_, rfl⟩
  have hloop := run_number p state [c] text (some (p.mark []))
  rw [number, run_bind_of_ok run_advance_cons, Option.bind_some, hstate, Piece.firstNumber,
    NumeralState.scan_eq_readFrom hstate]
  cases hread : state.readFrom [c] text with
  | error interruption =>
    rw [hread] at hloop
    exact run_bind_of_error hloop
  | ok found =>
    obtain ⟨all, after⟩ := found
    rw [hread] at hloop
    exact ⟨none, (run_bind_of_ok hloop).trans (run_emit (by simp))⟩

/-! ## Comments -/

/-- A comment up to the end of its line is scanned through its last character. -/
theorem answers_lineComment {kind : FodderKind} :
    p.Answers ((lineComment kind).run (p.scanner taken text slot))
      (.ok (.ofFodder kind (taken ++ (Comment.scanLine text).1), (Comment.scanLine text).2)) := by
  refine ⟨none, ?_⟩
  rw [lineComment, run_bind_of_ok run_readWhile]
  exact run_addComment

/-- A comment is read through its end, or to the end of the text. -/
theorem run_comment (p : Spot) (front seen rest : List Char) (slot : Option Mark) :
    match Comment.scanBlockFrom seen rest with
    | none =>
      (iterate commentRound ()).run (p.scanner (front ++ seen.reverse) rest slot) =
        .error (p.fault ⟨.openComment, []⟩)
    | some (body, after) => ∃ slot',
      (iterate commentRound ()).run (p.scanner (front ++ seen.reverse) rest slot) =
        .ok ((), p.scanner (front ++ body) after slot') := by
  -- By induction on the scanning of the text; a star is followed by a look at the next character.
  fun_induction Comment.scanBlockFrom seen rest generalizing slot with
  | case1 seen =>
    refine run_iterate_stop ?_
    rw [commentRound, run_bind_of_ok run_advance_nil]
    rfl
  | case2 seen text =>
    refine ⟨some (p.mark (front ++ seen.reverse ++ ['*'])), run_iterate_done ?_⟩
    have htaken :
        front ++ (seen.reverse ++ ['*', '/']) = front ++ seen.reverse ++ ['*'] ++ ['/'] := by simp
    rw [commentRound, run_bind_of_ok run_advance_cons, htaken]
    simp only [if_true]
    rw [run_bind_of_ok run_peek, List.head?_cons, if_pos rfl]
    exact run_bind_of_ok run_advance_cons
  | case3 seen c text hend ih =>
    have hround :
        ∃ slot', (commentRound ()).run (p.scanner (front ++ seen.reverse) (c :: text) slot) =
        .ok (.inl (), p.scanner (front ++ (c :: seen).reverse) text slot') := by
      rw [commentRound, run_bind_of_ok run_advance_cons, List.reverse_cons, ← List.append_assoc]
      by_cases hstar : c = '*'
      · -- A star in front of a slash is the case above.
        have hslash : text.head? ≠ some '/' := by
          intro hhead
          obtain ⟨after, rfl⟩ := List.head?_eq_some_iff.mp hhead
          exact hend after hstar rfl
        simp only [if_pos hstar]
        rw [run_bind_of_ok run_peek, if_neg hslash]
        exact ⟨none, rfl⟩
      · simp only [if_neg hstar]
        exact ⟨_, rfl⟩
    obtain ⟨slot', hround⟩ := hround
    rw [run_iterate_next hround (by simp [remaining_scanner])]
    exact ih slot'

/-- A comment is scanned behind its slash. -/
theorem answers_blockComment :
    p.Answers (blockComment.run (p.scanner ['/'] ('*' :: text) slot))
      (Piece.firstBlockComment text) := by
  have hloop := run_comment p ['/', '*'] [] text (some (p.mark ['/']))
  rw [List.reverse_nil, List.append_nil] at hloop
  rw [blockComment, run_bind_of_ok run_advance_cons, Piece.firstBlockComment, Comment.scanBlock]
  cases hscan : Comment.scanBlockFrom [] text with
  | none =>
    rw [hscan] at hloop
    exact run_bind_of_error hloop
  | some found =>
    obtain ⟨body, after⟩ := found
    rw [hscan] at hloop
    obtain ⟨slot', hloop⟩ := hloop
    exact ⟨slot', (run_bind_of_ok hloop).trans run_addComment⟩

/-! ## Operators -/

/-- The first symbol of a run is never given back. -/
theorem giveBack_append (run : List Char) (first : Char) :
    giveBack (run ++ [first]) = run.dropWhile SymbolRun.isGivenBack ++ [first] := by
  induction run with
  | nil => rfl
  | cons c run ih =>
    have hstep : giveBack (c :: (run ++ [first])) =
        if SymbolRun.isGivenBack c then giveBack (run ++ [first]) else c :: (run ++ [first]) := by
      cases run with
      | nil => rfl
      | cons d run => rfl
    rw [List.cons_append, hstep, ih, List.dropWhile_cons]
    split <;> rfl

/-- What stands in front of a run stays in front of it. -/
theorem reverseRun_append (seen first text : List Char) :
    SymbolRun.reverseRun (seen ++ first) text = SymbolRun.reverseRun seen text ++ first := by
  fun_induction SymbolRun.reverseRun seen text with
  | case1 seen => rfl
  | case2 seen c text hc ih => rw [SymbolRun.reverseRun, if_pos hc, ← List.cons_append, ih]
  | case3 seen c text hc => rw [SymbolRun.reverseRun, if_neg hc]

/-- An operator is scanned behind its first character. -/
theorem answers_operator :
    p.Answers ((operator c).run (p.scanner [c] text slot))
      (.ok (.ofLexeme .operator (SymbolRun.scan c text).1, (SymbolRun.scan c text).2)) := by
  -- The run behind the first symbol, without what is given back, and the first symbol itself.
  have hrun : giveBack (SymbolRun.reverseRun [c] text) = (SymbolRun.tail text).reverse ++ [c] := by
    have hreverse := reverseRun_append [] [c] text
    rw [List.nil_append] at hreverse
    rw [hreverse, giveBack_append, SymbolRun.tail, List.reverse_reverse]
  have htext : text = SymbolRun.tail text ++ text.drop (SymbolRun.tail text).length :=
    (List.prefix_iff_eq_append.mp (SymbolRun.tail_isPrefix text)).symm
  obtain ⟨slot', hskip⟩ :=
    run_skip p [c] (SymbolRun.tail text) (text.drop (SymbolRun.tail text).length) slot
  rw [← htext] at hskip
  refine ⟨slot', ?_⟩
  have hlength :
      (giveBack (SymbolRun.reverseRun [c] text)).length - 1 = (SymbolRun.tail text).length := by
    rw [hrun]
    simp
  rw [operator, run_bind_of_ok run_rest, run_bind_of_ok (run_sub (by simp [hrun])), hlength,
    run_bind_of_ok hskip]
  exact run_emit (by simp)

end Spot

end JsonnetSyntax
