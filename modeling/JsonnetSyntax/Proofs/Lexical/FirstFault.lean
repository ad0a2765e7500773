import Mathlib.Data.List.Infix
import JsonnetSyntax.Proofs.Lexical.Numbers
import JsonnetSyntax.Proofs.Lexical.Operators
import JsonnetSyntax.Proofs.Lexical.QuotedStrings
import JsonnetSyntax.Proofs.Lexical.TextBlocks

/-!
# The first fault of a source

Lexing stops where no piece can be cut off the text that is left.  `Stuck` lists the texts that
start with no piece, each with the message and with what is read of the text in front of the place
of the fault.  The text in front of the fault has tokens of its own.  They need not be those that
the source has there: a run of symbols that stops in front of a text block goes on where the source
is cut off in front of the block.  But such a run is made of symbols only, and symbols in which no
comment opens always have tokens.

## Key results

- `stuck_of_first`, `failsBehind_of_stuck`: the texts that start with no piece
- `SymbolRun.reverseRun_sync`: a run stops in the same place in a part of a text, or the part is a
  run
- `Cuts.exists_of_written`: the text of a row of pieces has pieces of its own
- `lex_firstFault`: the fault of a source, and the text in front of it
-/

namespace JsonnetSyntax

/-! ## Texts that start with no piece -/

/-- A comment is never closed if its end does not occur. -/
theorem Comment.scanBlockFrom_eq_none_iff {seen text : List Char} :
    scanBlockFrom seen text = none ↔ ¬ ['*', '/'] <:+: text := by
  fun_induction scanBlockFrom seen text with
  | case1 seen => simp
  | case2 seen text => simp [List.infix_cons_iff]
  | case3 seen c text hend ih =>
    rw [ih, List.infix_cons_iff, not_or]
    refine ⟨fun hopen => ⟨?_, hopen⟩, fun hopen => hopen.2⟩
    rintro ⟨rest, hrest⟩
    cases hrest
    exact hend _ rfl rfl

/-- How the message about a number speaks of the place behind which a digit is missing. -/
def Numeral.placeBehind : Char → String
  | '.' => "decimal point"
  | '+' => "exponent sign"
  | '-' => "exponent sign"
  | _ => "'E'"

open Numeral in
/-- Why no piece can be cut off a text, with what is read of it in front of the place of the fault
    and with the message. -/
inductive Stuck : List Char → List Char → String → Prop
  | stray {c : Char} {text : List Char} (h : Piece.IsStray c) :
    Stuck (c :: text) [] ("Could not lex the character " ++ c.toString)
  | openString {form : StringForm} {quote : Char} {text : List Char}
    (hform : form.quote? = some quote)
    (h : ∀ content rest, Quoted.Closed quote content → text ≠ content ++ quote :: rest) :
    Stuck (quote :: text) [] "Unterminated String"
  | openComment {text : List Char} (h : ¬ ['*', '/'] <:+: text) :
    Stuck ('/' :: '*' :: text) [] "Multi-line comment has no terminating */"
  | lacksIndent {text : List Char} (h : Block.LacksIndent text) :
    Stuck (BlockLayout.opening ++ text) [] "Text block's first line must start with whitespace"
  | endsInLine {text : List Char} (h : Block.EndsInLine text) :
    Stuck (BlockLayout.opening ++ text) [] "Unexpected EOF"
  | staysOpen {text : List Char} (h : Block.StaysOpen text) :
    Stuck (BlockLayout.opening ++ text) [] "Text block not terminated with |||"
  /-- Of a number, the longest text is read that can still become one. -/
  | number {c last : Char} {text front rest : List Char} (hdigit : c.isDigit = true)
    (htext : c :: text = front ++ [last] ++ rest)
    (hlongest : IsLongestFront Extendable (c :: text) (front ++ [last]))
    (hnumber : ¬ IsNumber (front ++ [last])) :
    Stuck (c :: text) (front ++ [last]) (junk (placeBehind last) rest)

section

variable {c : Char} {text read : List Char} {message : String}

open Numeral in
/-- At a digit, the scanner takes the longest text that can become a number, and fails unless it is
    one. -/
theorem Numeral.scan_longest (hdigit : c.isDigit = true) (text : List Char) :
    ∃ read rest, c :: text = read ++ rest ∧ IsLongestFront Extendable (c :: text) read ∧
      (IsNumber read ∧ scan c text = .ok (read, rest) ∨
        ¬ IsNumber read ∧ ∃ front last fault, read = front ++ [last] ∧
          fault.message = junk (placeBehind last) rest ∧ scan c text = .error ⟨fault, read⟩) := by
  obtain ⟨read, rest, state, htext, hreach, hstops, hscan⟩ := exists_scan hdigit text
  have hlongest := isLongestFront_of_stops hreach hstops
  rw [← htext] at hlongest
  refine ⟨read, rest, htext, hlongest, ?_⟩
  -- The state in which the number stops says what is missing behind it.
  have hform := NumeralState.form_of_reach? hreach
  cases state with
  | point =>
    obtain ⟨whole, rfl, -⟩ := hform
    exact .inr ⟨not_isNumber hreach rfl, whole, '.', _, rfl, rfl, hscan⟩
  | exponentMark =>
    obtain ⟨plain, mark, rfl, -, hmark⟩ := hform
    refine .inr ⟨not_isNumber hreach rfl, plain, mark, _, rfl, ?_, hscan⟩
    rw [List.mem_pair] at hmark
    obtain rfl | rfl := hmark <;> rfl
  | exponentSign =>
    obtain ⟨plain, mark, sign, rfl, -, -, hsign⟩ := hform
    refine .inr ⟨not_isNumber hreach rfl, plain ++ [mark], sign, _, by simp, ?_, hscan⟩
    rw [List.mem_pair] at hsign
    obtain rfl | rfl := hsign <;> rfl
  | _ => exact .inl ⟨isNumber_iff.mpr ⟨_, hreach, rfl⟩, hscan⟩

/-- A text that starts with no piece stops lexing. -/
theorem stuck_of_first {interruption : Interruption}
    (h : Piece.first c text = .error interruption) :
    Stuck (c :: text) interruption.read interruption.fault.message := by
  have hway := Piece.way_first c text
  rw [h] at hway
  cases hway with
  | openComment hscan => exact .openComment (Comment.scanBlockFrom_eq_none_iff.mp hscan)
  | openString hform hscan =>
    exact .openString hform ((Quoted.scan_eq_none_iff (StringForm.quote_ne hform)).mp hscan)
  | stray hstray => exact .stray hstray
  | badBlock hscan =>
    -- A text block has a layout or one of three faults, and the scanner finds which.
    obtain ⟨layout, rest, hvalid, heq⟩ | hform | hform | hform := Block.layout_or_fault _
    · cases (Block.scan_eq_ok_iff_valid.mpr ⟨hvalid, heq⟩).symm.trans hscan
    · cases (Block.scan_of_lacksIndent hform).symm.trans hscan
      exact .lacksIndent hform
    · cases (Block.scan_of_endsInLine hform).symm.trans hscan
      exact .endsInLine hform
    · cases (Block.scan_of_staysOpen hform).symm.trans hscan
      exact .staysOpen hform
  | brokenNumber hdigit hscan =>
    obtain ⟨read, rest, htext, hlongest,
        ⟨-, hscan'⟩ | ⟨hnumber, front, last, fault, rfl, hmessage, hscan'⟩⟩ :=
      Numeral.scan_longest hdigit text
    · cases hscan.symm.trans hscan'
    · cases hscan.symm.trans hscan'
      rw [hmessage]
      exact .number hdigit htext hlongest hnumber

/-- There is one longest front at most. -/
theorem IsLongestFront.eq {P : List Char → Prop} {text front other : List Char}
    (h : IsLongestFront P text front) (hother : IsLongestFront P text other) : front = other := by
  have hle := hother.longest front h.isPrefix h.holds
  have hge := h.longest other hother.isPrefix hother.holds
  have hinitial : front <+: other := List.prefix_of_prefix_length_le h.isPrefix hother.isPrefix hle
  exact hinitial.eq_of_length (by omega)

/-- No scanner takes a stray character. -/
theorem Piece.first_stray (h : Piece.IsStray c) :
    Piece.first c text = .error ⟨.strayCharacter c, []⟩ := by
  obtain ⟨hblank, hmark, hdigit, hquote, hword, hsymbol⟩ := h
  have hdouble : c ≠ doubleQuote := fun hc => hquote .double (congrArg some hc.symm)
  have hsingle : c ≠ singleQuote := fun hc => hquote .single (congrArg some hc.symm)
  -- The characters that are read alone are symbols.
  have hall : ∀ d ∈ ['!', '~', '-', '+'], SymbolRun.isSymbol d = true :=
    List.forall_iff_forall_mem.mp (by decide)
  have hother : c ∉ ['!', '~', '-', '+'] := by
    intro hc
    simp [hall c hc] at hsymbol
  simp only [List.mem_cons, List.not_mem_nil, or_false, not_or] at hother
  simp [first, standsAlone, hblank, hmark, hdigit, hdouble, hsingle, hword, hsymbol, hother]

/-- A comment without an end is a fault at its start. -/
theorem Piece.first_openComment (h : ¬ ['*', '/'] <:+: text) :
    Piece.first '/' ('*' :: text) = .error ⟨.openComment, []⟩ := by
  show firstBlockComment text = _
  rw [firstBlockComment, Comment.scanBlock, Comment.scanBlockFrom_eq_none_iff.mpr h]

/-- Where the text that is left starts with no piece, lexing fails. -/
theorem failsBehind_of_stuck {file source : String} {before : List Piece} {back : List Char}
    (hcuts : Cuts source.toList before back) (h : Stuck back read message) :
    FailsBehind file source (Cut.written before ++ read) message := by
  cases h with
  | stray h => exact failsBehind_of_first hcuts (Piece.first_stray h)
  | openString hform h => exact failsBehind_of_first hcuts (Piece.first_quote_of_open hform h)
  | openComment h => exact failsBehind_of_first hcuts (Piece.first_openComment h)
  | lacksIndent h =>
    rw [List.append_nil]
    exact failsBehind_of_scan hcuts (Block.scan_of_lacksIndent h)
  | endsInLine h =>
    rw [List.append_nil]
    exact failsBehind_of_scan hcuts (Block.scan_of_endsInLine h)
  | staysOpen h =>
    rw [List.append_nil]
    exact failsBehind_of_scan hcuts (Block.scan_of_staysOpen h)
  | @number c last text front rest hdigit htext hlongest hnumber =>
    obtain ⟨read, left, htext', hlongest',
        ⟨hnumber', -⟩ | ⟨-, front', last', fault, hread, hmessage, hscan⟩⟩ :=
      Numeral.scan_longest hdigit text
    · rw [hlongest.eq hlongest'] at hnumber
      exact absurd hnumber' hnumber
    · -- There is one longest text, so the messages speak of the same place.
      obtain rfl := hlongest.eq hlongest'
      obtain ⟨rfl, hlast⟩ := List.append_inj' hread rfl
      cases hlast
      obtain rfl := List.append_cancel_left (htext.symm.trans htext')
      have hfirst : Piece.first c text = .error ⟨fault, front ++ [last]⟩ := by
        rw [Piece.first_digit hdigit, Piece.firstNumber, hscan]
      rw [← hmessage]
      exact failsBehind_of_first hcuts hfirst

end

/-! ## The text in front of a fault -/

namespace SymbolRun

variable {c : Char} {text more rest op : List Char}

/-- Part of what opens a comment or a text block is a run of symbols in which nothing opens. -/
theorem clear_of_isPrefix {opener : List Char} (hopener : opener ∈ openers) (h : text <+: opener)
    (hopens : opensOther text = false) : Clear text text := by
  -- A check over the openers and their fronts.
  have hall : ∀ opener ∈ openers, ∀ front ∈ opener.inits, opensOther front = false →
      front.all isSymbol = true ∧ ∀ k < front.length, opensOther (front.drop k) = false := by decide
  obtain ⟨hsymbols, hunopened⟩ := hall opener hopener text ((List.mem_inits _ _).mpr h) hopens
  exact ⟨List.prefix_refl _, List.all_eq_true.mp hsymbols, hunopened⟩

/-- A run of symbols stops in the same place whatever follows the text, or the text is a run of
    symbols itself. -/
theorem reverseRun_sync (text more : List Char) :
    Clear text text ∨ text ≠ [] ∧ ∀ seen,
      reverseRun seen (text ++ more) = reverseRun seen text := by
  induction text with
  | nil => exact .inl (.nil [])
  | cons c text ih =>
    by_cases hsymbol : isSymbol c = true
    · cases hwhole : opensOther (c :: (text ++ more)) with
      | false =>
        have hopens : opensOther (c :: text) = false := by
          rw [opensOther_eq_false_iff] at hwhole ⊢
          intro opener hopener hstarts
          exact hwhole opener hopener (hstarts.trans (List.prefix_append (c :: text) more))
        obtain hclear | ⟨-, hsync⟩ := ih
        · exact .inl (clear_cons_iff.mpr ⟨rfl, hsymbol, hopens, hclear⟩)
        · refine .inr ⟨List.cons_ne_nil _ _, fun seen => ?_⟩
          rw [List.cons_append, reverseRun, reverseRun, hwhole, hopens, hsync]
      | true =>
        cases hopens : opensOther (c :: text) with
        | true =>
          refine .inr ⟨List.cons_ne_nil _ _, fun seen => ?_⟩
          rw [List.cons_append, reverseRun, reverseRun, hwhole, hopens]
          simp
        | false =>
          -- What opens here goes on behind the text, so the text is the front of it.
          obtain ⟨opener, hopener, hstarts⟩ := opensOther_iff.mp hwhole
          obtain hshort | hlong :=
            List.prefix_or_prefix_of_prefix hstarts (List.prefix_append (c :: text) more)
          · exact absurd hshort (opensOther_eq_false_iff.mp hopens opener hopener)
          · exact .inl (clear_of_isPrefix hopener hlong hopens)
    · -- No symbol: the run stops in front of it, in both texts.
      refine .inr ⟨List.cons_ne_nil _ _, fun seen => ?_⟩
      rw [List.cons_append, reverseRun, reverseRun]
      simp [hsymbol]

/-- Where runs stop in the same place, operators are the same. -/
theorem scan_of_sync (hsync : ∀ seen, reverseRun seen (text ++ more) = reverseRun seen text)
    (h : scan c (text ++ more) = (op, rest ++ more)) : scan c text = (op, rest) := by
  have htail : tail (text ++ more) = tail text := by rw [tail, tail, hsync]
  have hwhole := scan_eq_append c (text ++ more)
  have hpart := scan_eq_append c text
  have hop : (scan c text).1 = op := by
    rw [scan, ← htail]
    exact congrArg Prod.fst h
  rw [h, ← List.append_assoc, ← List.cons_append] at hwhole
  rw [hop, ← List.append_cancel_right hwhole] at hpart
  exact Prod.ext hop (List.append_cancel_left hpart)

end SymbolRun

namespace Cuts

variable {text rest : List Char} {pieces : List Piece}

/-- Symbols in which no comment opens have pieces. -/
theorem exists_of_symbols (hsymbols : ∀ c ∈ text, SymbolRun.isSymbol c = true)
    (hcomment : ¬ ['/', '*'] <:+: text) : ∃ pieces, Cuts text pieces [] := by
  obtain ⟨pieces, rest, hcuts, rfl | ⟨c, more, interruption, rfl, hfirst⟩⟩ := exists_stop text
  · exact ⟨pieces, hcuts⟩
  · -- No text of symbols starts with none of the pieces.
    have htext := hcuts.text_eq
    have hback : ∀ d ∈ c :: more, SymbolRun.isSymbol d = true := by
      intro d hd
      exact hsymbols d (htext ▸ List.mem_append_right _ hd)
    have hc := hback c (List.mem_cons_self ..)
    obtain ⟨-, -, hdigit, hquote, -⟩ := Piece.notOther_of_isSymbol hc
    have hway := Piece.way_first c more
    rw [hfirst] at hway
    cases hway with
    | openComment =>
      have hopens : ∀ back, ['/', '*'] <:+: Cut.written pieces ++ '/' :: '*' :: back :=
        fun back => ⟨Cut.written pieces, back, by simp⟩
      exact absurd (htext ▸ hopens _) hcomment
    | brokenNumber h => simp [hdigit] at h
    | openString h => exact absurd h (hquote _)
    | badBlock => exact absurd (hback '\n' (by simp)) (by decide)
    | stray h => simp [h.notSymbol] at hc

/-- The text of a row of pieces has pieces of its own, whatever follows it. -/
theorem exists_of_written (h : Cuts text pieces rest) :
    ∃ own, Cuts (Cut.written pieces) own [] := by
  induction h with
  | nil => exact ⟨[], .nil []⟩
  | @cons c text mid rest piece pieces hfirst hothers ih =>
    obtain ⟨taken, hpiece, rfl⟩ := Piece.first_splits hfirst
    obtain ⟨own, hown⟩ := ih
    have hwritten : Cut.written (piece :: pieces) = c :: (taken ++ Cut.written pieces) := by
      rw [← List.singleton_append, Cut.written_append, Cut.written_singleton, hpiece]
      rfl
    rw [hothers.text_eq, ← List.append_assoc] at hfirst
    rw [hwritten]
    by_cases hoperator : piece.IsOperator
    · obtain ⟨content, block, rfl, hkind⟩ := hoperator
      obtain ⟨hc, hcomment, -⟩ := Piece.operator_of_first hfirst hkind
      obtain hclear | ⟨hne, hsync⟩ := SymbolRun.reverseRun_sync (taken ++ Cut.written pieces) rest
      · -- The text is a run of symbols up to its end.
        apply exists_of_symbols
        · intro d hd
          obtain rfl | hd := List.mem_cons.mp hd
          · exact hc
          · exact hclear.symbols d hd
        · intro hwithin
          obtain hfront | htail := List.infix_cons_iff.mp hwithin
          · exact hcomment _ (by decide) (hfront.trans (List.prefix_append (c :: _) rest))
          · exact hclear.not_within (by decide) htail
      · -- The run stops inside the text, so what follows makes no difference.
        have hrun : Piece.RunStops c (taken ++ Cut.written pieces) (Cut.written pieces) rest :=
          fun op hscan => SymbolRun.scan_of_sync hsync hscan
        refine ⟨.lexeme content block :: own,
          .cons (Piece.first_of_append_of_run hfirst ?_ fun _ => hrun) hown⟩
        obtain ⟨d, left, hleft⟩ := List.exists_cons_of_ne_nil hne
        rw [hleft]
        rfl
    · -- Only operators depend on what stands behind them.
      exact ⟨piece :: own, .cons (Piece.first_of_append hfirst fun h => absurd h hoperator) hown⟩

end Cuts

/-- A source that cannot be lexed stops at the first text that starts with no piece: the text in
    front of it has tokens, and the fault is a point behind what is read of it.  Lexing fails
    wherever it meets such a text. -/
theorem lex_firstFault (file source : String) :
    (∀ e, lex file source = .error e →
      ∃ front back read, source.toList = front ++ back ∧ back ≠ [] ∧
        (∃ tokens, lex file (String.ofList front) = .ok tokens) ∧
        Stuck back read e.fault.message ∧ e.span = .point file (.ofText (front ++ read))) ∧
    (∀ before back read message, Cuts source.toList before back → Stuck back read message →
      FailsBehind file source (Cut.written before ++ read) message) := by
  refine ⟨?_, fun before back read message => failsBehind_of_stuck⟩
  intro e he
  obtain ⟨pieces, rest, hcuts, rfl | ⟨c, text, interruption, rfl, hfirst⟩⟩ :=
    Cuts.exists_stop source.toList
  · -- A source that is cut to its end has tokens.
    have hlex : lex file source = .ok (assemble file pieces) :=
      lex_eq_ok_iff.mpr ⟨pieces, hcuts, rfl⟩
    cases hlex.symm.trans he
  · -- The pieces in front of the fault are the tokens of the text in front of it.
    cases (lex_eq_error hcuts hfirst).symm.trans he
    obtain ⟨own, hown⟩ := hcuts.exists_of_written
    refine ⟨Cut.written pieces, c :: text, interruption.read, hcuts.text_eq, List.cons_ne_nil _ _,
      ?_, stuck_of_first hfirst, rfl⟩
    have hlex : lex file (String.ofList (Cut.written pieces)) = .ok (assemble file own) :=
      lex_eq_ok_iff.mpr ⟨own, by rwa [String.toList_ofList], rfl⟩
    exact ⟨_, hlex⟩

/-- A broken text block behind symbols.  In front of it two bars are read alone, because three of
    them would open a block; where the source ends in front of the block, they belong to one
    operator. -/
theorem lex_firstFault_sample :
    ∃ e, lex "sample" "&|||||\nx" = .error e ∧
      ∃ front back read, "&|||||\nx".toList = front ++ back ∧ back ≠ [] ∧
        (∃ tokens, lex "sample" (String.ofList front) = .ok tokens) ∧
        Stuck back read e.fault.message ∧ e.span = .point "sample" (.ofText (front ++ read)) := by
  obtain ⟨hfault, hfails⟩ := lex_firstFault "sample" "&|||||\nx"
  have hcuts : Cuts "&|||||\nx".toList
      [.ofLexeme .operator ['&'], .ofLexeme .operator ['|'], .ofLexeme .operator ['|']]
      (BlockLayout.opening ++ ['x']) := .cons rfl (.cons rfl (.cons rfl (.nil _)))
  obtain ⟨e, he, -⟩ := hfails _ _ _ _ hcuts (.lacksIndent ⟨0, ['x'], rfl, by simp⟩)
  exact ⟨e, he, hfault e he⟩

end JsonnetSyntax
