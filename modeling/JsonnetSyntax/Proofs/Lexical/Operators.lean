import Mathlib.Data.List.DropRight
import JsonnetSyntax.Proofs.Lexical.NextLexeme

/-!
# Which texts are operators

`SymbolRun.Candidate` describes the operators at the front of a text without the scanner: symbols,
behind the first of which neither a comment nor a text block opens, and which do not end in a
character that operators give back.  The scanner takes the longest of them.  It first takes all
symbols up to an opening, and whatever it then gives back was not part of any of these fronts.

## Key results

- `SymbolRun.exists_run`: the run of symbols that is taken first, and the fronts of it
- `SymbolRun.isLongestFront_scan`: the scanner takes the longest front that can be an operator
- `SymbolRun.Clear.not_within`: nothing opens inside a run
- `Piece.first_symbol`: the symbols that start a run
- `Piece.operator_of_first`: the operators that are cut off a text
- `Piece.isUnopened_of_first`: nothing opens in the operators that are cut off a text
- `lex_operator`: how lexing goes on at a symbol
-/

namespace JsonnetSyntax

namespace SymbolRun

variable {c d : Char} {seen text run front op : List Char}

/-! ## Runs of symbols -/

/-- The front of a text is made of symbols, and nothing opens at any of them. -/
structure Clear (text front : List Char) : Prop where
  isPrefix : front <+: text
  symbols : ∀ c ∈ front, isSymbol c = true
  unopened : ∀ k < front.length, opensOther (text.drop k) = false

/-- Nothing taken is clear. -/
theorem Clear.nil (text : List Char) : Clear text [] := ⟨List.nil_prefix, by simp, by simp⟩

/-- A run goes on behind its first symbol. -/
theorem clear_cons_iff :
    Clear (c :: text) (d :: front) ↔
      d = c ∧ isSymbol c = true ∧ opensOther (c :: text) = false ∧ Clear text front := by
  constructor
  · intro h
    obtain ⟨rfl, hinitial⟩ := List.cons_prefix_cons.mp h.isPrefix
    refine ⟨rfl, h.symbols d (List.mem_cons_self ..), h.unopened 0 (by simp), hinitial, ?_, ?_⟩
    · exact fun e he => h.symbols e (List.mem_cons_of_mem _ he)
    · exact fun k hk => h.unopened (k + 1) (by simpa using hk)
  · rintro ⟨rfl, hsymbol, hopens, h⟩
    refine ⟨List.cons_prefix_cons.mpr ⟨rfl, h.isPrefix⟩, ?_, ?_⟩
    · intro e he
      obtain rfl | he := List.mem_cons.mp he
      · exact hsymbol
      · exact h.symbols e he
    · intro k hk
      cases k with
      | zero => exact hopens
      | succ k => exact h.unopened k (by simpa using hk)

/-- The run that the scanner takes: the clear fronts of a text are the fronts of this run. -/
theorem exists_run (seen text : List Char) :
    ∃ run, reverseRun seen text = run.reverse ++ seen ∧
      ∀ front, Clear text front ↔ front <+: run := by
  fun_induction reverseRun seen text with
  | case1 seen =>
    refine ⟨[], rfl, fun front => ⟨fun h => h.isPrefix, ?_⟩⟩
    intro h
    rw [List.prefix_nil.mp h]
    exact .nil []
  | case2 seen c text hc ih =>
    -- One more symbol: the clear fronts are this symbol in front of those of the text behind it.
    obtain ⟨run, hrun, hclear⟩ := ih
    refine ⟨c :: run, by simp [hrun], fun front => ?_⟩
    cases front with
    | nil => exact ⟨fun _ => List.nil_prefix, fun _ => .nil _⟩
    | cons d front =>
      rw [clear_cons_iff, List.cons_prefix_cons, hclear]
      simp only [Bool.and_eq_true, Bool.not_eq_true'] at hc
      simp [hc]
  | case3 seen c text hc =>
    refine ⟨[], rfl, fun front => ?_⟩
    cases front with
    | nil => exact ⟨fun _ => List.nil_prefix, fun _ => .nil _⟩
    | cons d front =>
      rw [clear_cons_iff, List.prefix_nil]
      -- The first character is no symbol, or something opens at it.
      simp only [Bool.and_eq_true, Bool.not_eq_true', not_and] at hc
      constructor
      · rintro ⟨-, hsymbol, hopens, -⟩
        exact absurd hopens (hc hsymbol)
      · intro h
        cases h

/-- What follows the first symbol of an operator is the run without the characters at its end that
    are given back. -/
theorem tail_eq_rdropWhile (h : reverseRun [] text = run.reverse ++ []) :
    tail text = run.rdropWhile isGivenBack := by
  rw [tail, h, List.append_nil]
  rfl

/-- What follows the first symbol of an operator is clear. -/
theorem clear_tail (text : List Char) : Clear text (tail text) := by
  obtain ⟨run, hrun, hclear⟩ := exists_run [] text
  rw [hclear, tail_eq_rdropWhile hrun]
  exact List.rdropWhile_prefix isGivenBack run

/-- A front of a run that does not end in a character that is given back stays. -/
theorem prefix_rdropWhile (h : front <+: run)
    (hlast : ∀ c ∈ front.getLast?, isGivenBack c = false) :
    front <+: run.rdropWhile isGivenBack := by
  obtain ⟨more, rfl⟩ := h
  -- Seen from its end, the front starts with a character that is kept.
  have hfront : front.reverse.dropWhile isGivenBack = front.reverse := by
    cases hreverse : front.reverse with
    | nil => rfl
    | cons c back =>
      have hc : c ∈ front.getLast? := by
        rw [← List.head?_reverse, hreverse]
        rfl
      rw [List.dropWhile_cons_of_neg]
      simp [hlast c hc]
  rw [List.rdropWhile, List.reverse_append, List.dropWhile_append, hfront]
  split
  · simp
  · rw [List.reverse_append, List.reverse_reverse]
    exact List.prefix_append ..

/-! ## Operators -/

/-- The front of a text can be an operator: it is made of symbols, nothing opens behind its first
    one, and it does not end in a character that operators give back, unless it has no other. -/
structure Candidate (text op : List Char) : Prop where
  ne_nil : op ≠ []
  symbols : ∀ c ∈ op, isSymbol c = true
  unopened : ∀ k, 1 ≤ k → k < op.length → ∀ opener ∈ openers, ¬ opener <+: text.drop k
  ending : op.length = 1 ∨ ∀ c ∈ op.getLast?, c ∉ ['+', '-', '~', '!', '$']

/-- Nothing opens at a text that starts with none of the openers. -/
theorem opensOther_eq_false_iff :
    opensOther text = false ↔ ∀ opener ∈ openers, ¬ opener <+: text := by
  rw [← Bool.not_eq_true, opensOther_iff]
  simp

/-- The characters that are not given back, listed. -/
theorem isGivenBack_eq_false_iff : isGivenBack c = false ↔ c ∉ ['+', '-', '~', '!', '$'] := by
  rw [← Bool.not_eq_true, isGivenBack, List.contains_iff_mem]

/-- A front that can be an operator is a symbol and a clear front behind it. -/
theorem candidate_iff (hc : isSymbol c = true) (hop : op <+: c :: text) :
    Candidate (c :: text) op ↔
      ∃ front, op = c :: front ∧ Clear text front ∧
        ∀ d ∈ front.getLast?, isGivenBack d = false := by
  constructor
  · intro h
    obtain ⟨d, front, rfl⟩ := List.exists_cons_of_ne_nil h.ne_nil
    obtain ⟨rfl, hfront⟩ := List.cons_prefix_cons.mp hop
    refine ⟨front, rfl, ⟨hfront, ?_, ?_⟩, ?_⟩
    · exact fun e he => h.symbols e (List.mem_cons_of_mem _ he)
    · exact fun k hk =>
        opensOther_eq_false_iff.mpr (h.unopened (k + 1) (by omega) (by simpa using hk))
    · intro e he
      obtain hone | hending := h.ending
      · obtain rfl : front = [] := by simpa using hone
        cases he
      · -- The last character of the front is the last one of the whole.
        refine isGivenBack_eq_false_iff.mpr (hending e ?_)
        rw [List.getLast?_cons, Option.mem_def.mp he]
        rfl
  · rintro ⟨front, rfl, hclear, hlast⟩
    refine ⟨List.cons_ne_nil _ _, ?_, ?_, ?_⟩
    · intro e he
      obtain rfl | he := List.mem_cons.mp he
      · exact hc
      · exact hclear.symbols e he
    · intro k hk hlength
      obtain ⟨k, rfl⟩ := Nat.exists_eq_add_of_le' hk
      exact opensOther_eq_false_iff.mp (hclear.unopened k (by simpa using hlength))
    · cases front with
      | nil => exact .inl rfl
      | cons d front =>
        refine .inr fun e he => isGivenBack_eq_false_iff.mp (hlast e ?_)
        rwa [List.getLast?_cons_cons] at he

/-- The scanner takes the longest front that can be an operator. -/
theorem isLongestFront_scan (hc : isSymbol c = true) :
    IsLongestFront (Candidate (c :: text)) (c :: text) (scan c text).1 := by
  obtain ⟨run, hrun, hclear⟩ := exists_run [] text
  have htail := tail_eq_rdropWhile hrun
  have hinitial : (scan c text).1 <+: c :: text := ⟨_, scan_eq_append c text⟩
  refine ⟨hinitial, (candidate_iff hc hinitial).mpr ⟨tail text, rfl, clear_tail text, ?_⟩, ?_⟩
  · -- The operator does not end in a character that is given back: these were dropped.
    intro d hd
    have hne : run.rdropWhile isGivenBack ≠ [] := by
      rintro hnil
      rw [htail, hnil] at hd
      cases hd
    have hkept := List.rdropWhile_last_not isGivenBack run hne
    rw [htail, List.getLast?_eq_getLast_of_ne_nil hne, Option.mem_some_iff] at hd
    rw [← hd]
    simpa using hkept
  · -- Any other candidate is a front of the run, and dropping cannot reach into it.
    intro other hother hcan
    obtain ⟨front, rfl, hfront, hlast⟩ := (candidate_iff hc hother).mp hcan
    have hkept := prefix_rdropWhile ((hclear front).mp hfront) hlast
    rw [← htail] at hkept
    show front.length + 1 ≤ (tail text).length + 1
    have hlength := hkept.length_le
    omega

/-! ## Openings inside an operator -/

/-- Nothing that opens a comment or a text block is part of a run. -/
theorem Clear.not_within (h : Clear text front) {opener : List Char} (hopener : opener ∈ openers) :
    ¬ opener <:+: front := by
  rintro ⟨before, after, rfl⟩
  have hne : opener ≠ [] := by
    rintro rfl
    simp [openers] at hopener
  have hpositive := List.length_pos_iff.mpr hne
  have hopens : opensOther (text.drop before.length) = false := by
    apply h.unopened
    simp only [List.length_append]
    omega
  -- Behind `before`, the text goes on with the opener.
  refine opensOther_eq_false_iff.mp hopens opener hopener ?_
  obtain ⟨rest, rfl⟩ := h.isPrefix
  rw [List.append_assoc, List.append_assoc, List.drop_left]
  exact List.prefix_append ..

end SymbolRun

/-! ## Lexing at a symbol -/

namespace Piece

variable {c : Char} {text rest : List Char} {content : Lexeme} {block : Option TextBlock}

open SymbolRun

/-- Among the characters that can start other pieces, only the dollar sign is a symbol. -/
theorem notOther_of_isSymbol (h : isSymbol c = true) :
    isBlank c = false ∧ (c = '$' ∨ Punct.ofChar? c = none) ∧ c.isDigit = false ∧
      (∀ form, StringForm.quote? form ≠ some c) ∧ isWordStart c = false := by
  -- A check over the whole table of symbols.
  have hall :
      ∀ d ∈ ['!', '$', ':', '~', '+', '-', '&', '|', '^', '=', '<', '>', '*', '/', '%', '#'],
      isBlank d = false ∧ (d = '$' ∨ Punct.ofChar? d = none) ∧ d.isDigit = false ∧
        (∀ form ∈ StringForm.all, form.quote? ≠ some d) ∧ isWordStart d = false :=
    List.forall_iff_forall_mem.mp (by decide)
  obtain ⟨hblank, hmark, hdigit, hquote, hword⟩ := hall c (List.contains_iff_mem.mp h)
  refine ⟨hblank, hmark, hdigit, fun form => hquote form ?_, hword⟩
  cases form <;> decide

/-- A symbol at which neither a comment nor a text block opens starts a run of symbols, unless it is
    read alone or with an equals sign. -/
theorem first_symbol (hc : isSymbol c = true)
    (hcomment : ∀ opener ∈ Comment.openers, ¬ opener <+: c :: text)
    (hblock : ¬ BlockLayout.opening <+: c :: text) (hother : c ∉ ['!', '$', '~', '-'])
    (hplus : c = '+' → text.head? = some ':') :
    first c text = .ok (ofLexeme .operator (scan c text).1, (scan c text).2) := by
  obtain ⟨hblank, hmark, hdigit, hquote, hword⟩ := notOther_of_isSymbol hc
  have hopening : ∀ text, BlockLayout.opening <+: '|' :: '|' :: '|' :: '\n' :: text :=
    fun text => ⟨text, rfl⟩
  -- Every other way of cutting a piece off this text is excluded by a hypothesis or by the table.
  have hway := way_first c text
  generalize first c text = cut at hway ⊢
  cases hway with
  | operator => rfl
  | blank h => simp [hblank] at h
  | mark h =>
    obtain rfl | hmark := hmark
    · simp at hother
    · simp [hmark] at h
  | negation => simp at hother
  | alone h =>
    simp only [standsAlone, Bool.or_eq_true, Bool.and_eq_true, beq_iff_eq, bne_iff_ne] at h
    obtain (rfl | rfl) | ⟨rfl, hcolon⟩ := h
    · simp at hother
    · simp at hother
    · exact absurd (hplus rfl) hcolon
  | number h => simp [hdigit] at h
  | brokenNumber h => simp [hdigit] at h
  | quoted h => exact absurd h (hquote _)
  | openString h => exact absurd h (hquote _)
  | word h => simp [hword] at h
  | slashComment => exact absurd ⟨_, rfl⟩ (hcomment ['/', '/'] (by decide))
  | hashComment => exact absurd ⟨_, rfl⟩ (hcomment ['#'] (by decide))
  | blockComment => exact absurd ⟨_, rfl⟩ (hcomment ['/', '*'] (by decide))
  | openComment => exact absurd ⟨_, rfl⟩ (hcomment ['/', '*'] (by decide))
  | block => exact absurd (hopening _) hblock
  | badBlock => exact absurd (hopening _) hblock
  | stray h => simp [h.notSymbol] at hc

/-- The symbols that can stand alone. -/
theorem mem_of_standsAlone (h : standsAlone c text = true) : c ∈ ['~', '-', '+'] := by
  simp only [standsAlone, Bool.or_eq_true, Bool.and_eq_true, beq_iff_eq] at h
  obtain (rfl | rfl) | ⟨rfl, -⟩ := h <;> decide

/-- What stands alone is cut off alone. -/
theorem first_of_standsAlone (h : standsAlone c text = true) :
    first c text = .ok (ofLexeme .operator [c], text) := by
  have hother : ∀ d ∈ ['~', '-', '+'], isBlank d = false ∧ Punct.ofChar? d = none ∧ d ≠ '!' :=
    List.forall_iff_forall_mem.mp (by decide)
  obtain ⟨hblank, hmark, hnegation⟩ := hother c (mem_of_standsAlone h)
  simp [first, hblank, hmark, hnegation, h]

/-- No comment opens in the operator, and no text block opens behind its first character. -/
structure IsUnopened (op : List Char) : Prop where
  comments : ∀ opener ∈ Comment.openers, ¬ opener <:+: op
  blocks : ¬ ['|', '|', '|'] <:+: op.tail

/-- Nothing opens in a run of symbols at which no comment opens. -/
theorem isUnopened_scan (hcomment : ∀ opener ∈ Comment.openers, ¬ opener <+: c :: text) :
    IsUnopened (scan c text).1 := by
  constructor
  · intro opener hopener hwithin
    obtain hfront | htail := List.infix_cons_iff.mp hwithin
    · -- The opener stands at the front, where no comment opens.
      exact hcomment opener hopener (hfront.trans ⟨_, scan_eq_append c text⟩)
    · -- The opener stands behind the first symbol, and there the run is clear.
      have hopeners : ∀ opener ∈ Comment.openers, opener ∈ openers := by decide
      exact (clear_tail text).not_within (hopeners opener hopener) htail
  · exact (clear_tail text).not_within (by decide)

/-- Nothing opens in the operators that are not read as a run. -/
theorem isUnopened_single {op : List Char} (h : op ∈ [['~'], ['-'], ['+'], ['!'], ['!', '=']]) :
    IsUnopened op := by
  have hall : ∀ op ∈ [['~'], ['-'], ['+'], ['!'], ['!', '=']],
      (∀ opener ∈ Comment.openers, ¬ opener <:+: op) ∧ ¬ ['|', '|', '|'] <:+: op.tail := by decide
  exact ⟨(hall op h).1, (hall op h).2⟩

/-- The operators that are cut off a text: they start with a symbol at which no comment opens, and
    they are runs of symbols or among those that are not read as a run. -/
theorem operator_of_first (h : first c text = .ok (.lexeme content block, rest))
    (hkind : content.kind = .operator) :
    isSymbol c = true ∧ (∀ opener ∈ Comment.openers, ¬ opener <+: c :: text) ∧
      (content.data.toList ∈ [['~'], ['-'], ['+'], ['!'], ['!', '=']] ∨
        content.data.toList = (scan c text).1) := by
  have hway := way_first c text
  generalize first c text = cut at h hway
  cases hway with
  | operator hsymbol hcomment =>
    cases h
    exact ⟨hsymbol, hcomment, .inr (String.toList_ofList ..)⟩
  | alone halone =>
    cases h
    have hc := mem_of_standsAlone halone
    simp only [List.mem_cons, List.not_mem_nil, or_false] at hc
    obtain rfl | rfl | rfl := hc <;> exact ⟨by decide, by simp [Comment.openers], .inl (by simp)⟩
  | negation =>
    unfold firstNegation at h
    split at h <;> cases h <;> exact ⟨by decide, by simp [Comment.openers], .inl (by simp)⟩
  | word =>
    cases h
    unfold TokenKind.ofWord at hkind
    split at hkind <;> cases hkind
  | _ => cases h <;> cases hkind

/-- Nothing opens in an operator that is cut off a text. -/
theorem isUnopened_of_first (h : first c text = .ok (.lexeme content block, rest))
    (hkind : content.kind = .operator) : IsUnopened content.data.toList := by
  obtain ⟨-, hcomment, hsingle | hscan⟩ := operator_of_first h hkind
  · exact isUnopened_single hsingle
  · rw [hscan]
    exact isUnopened_scan hcomment

end Piece

/-- Where the text that is left starts with a symbol that opens neither a comment nor a text block,
    lexing emits the longest operator at its front.  An exclamation mark is emitted alone or with an
    equals sign, and some symbols are always emitted alone.  So no comment opens in the operators of
    a source, and text blocks open only at their front. -/
theorem lex_operator (file source : String) :
    (∀ before c text, Cuts source.toList before (c :: text) → SymbolRun.isSymbol c = true →
      (∀ opener ∈ Comment.openers, ¬ opener <+: c :: text) → ¬ BlockLayout.opening <+: c :: text →
      c ∉ ['!', '$', '~', '-'] → (c = '+' → text.head? = some ':') →
      ∃ op rest, c :: text = op ++ rest ∧
        IsLongestFront (SymbolRun.Candidate (c :: text)) (c :: text) op ∧
        Emits file source before ⟨.operator, String.ofList op⟩ rest) ∧
    (∀ before text, Cuts source.toList before ('!' :: '=' :: text) →
      Emits file source before ⟨.operator, "!="⟩ text) ∧
    (∀ before text, Cuts source.toList before ('!' :: text) → text.head? ≠ some '=' →
      Emits file source before ⟨.operator, "!"⟩ text) ∧
    (∀ before c text, Cuts source.toList before (c :: text) →
      c = '~' ∨ c = '-' ∨ c = '+' ∧ text.head? ≠ some ':' →
      Emits file source before ⟨.operator, String.singleton c⟩ text) ∧
    (∀ tokens, lex file source = .ok tokens → ∀ t ∈ tokens, t.kind = .operator →
      Piece.IsUnopened t.data.toList) := by
  refine ⟨?_, ?_, ?_, ?_, ?_⟩
  · -- A run of symbols.
    intro before c text hcuts hsymbol hcomment hblock hother hplus
    have hfirst := Piece.first_symbol hsymbol hcomment hblock hother hplus
    exact ⟨_, _, (SymbolRun.scan_eq_append c text).symm, SymbolRun.isLongestFront_scan hsymbol,
      emits_of_first hcuts hfirst⟩
  · intro before text hcuts
    exact emits_of_first hcuts rfl
  · -- An exclamation mark without an equals sign.
    intro before text hcuts hequals
    have hnegation : Piece.firstNegation text = (.ofLexeme .operator ['!'], text) := by
      unfold Piece.firstNegation
      split
      · exact absurd rfl hequals
      · rfl
    have hfirst : Piece.first '!' text = .ok (.ofLexeme .operator ['!'], text) :=
      congrArg Except.ok hnegation
    exact emits_of_first hcuts hfirst
  · -- A symbol that stands alone.
    intro before c text hcuts hc
    have halone : Piece.standsAlone c text = true := by
      obtain rfl | rfl | ⟨rfl, hcolon⟩ := hc
      · rfl
      · rfl
      · simpa [Piece.standsAlone] using hcolon
    have hfirst := Piece.first_of_standsAlone halone
    exact emits_of_first hcuts hfirst
  · -- Every operator among the tokens was cut off in one of these ways.
    intro tokens hlex t ht hkind
    obtain ⟨before, c, text, rest, -, hfirst⟩ := exists_first_of_mem hlex ht (by simp [hkind])
    exact Piece.isUnopened_of_first hfirst hkind

/-- Bars in front of bars, a colon behind a plus sign, and a minus sign that an operator gives
    back. -/
theorem lex_operator_sample :
    (∃ op rest, "+:||||-1".toList = op ++ rest ∧
      IsLongestFront (SymbolRun.Candidate "+:||||-1".toList) "+:||||-1".toList op ∧
      Emits "sample" "+:||||-1" [] ⟨.operator, String.ofList op⟩ rest) ∧
    Emits "sample" "!=1" [] ⟨.operator, "!="⟩ ['1'] := by
  constructor
  · obtain ⟨hrun, -⟩ := lex_operator "sample" "+:||||-1"
    exact hrun [] '+' ":||||-1".toList (.nil _) (by decide) (by decide) (by decide) (by decide)
      fun _ => rfl
  · obtain ⟨-, hnegation, -⟩ := lex_operator "sample" "!=1"
    exact hnegation [] ['1'] (.nil _)

end JsonnetSyntax
