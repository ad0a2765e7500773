import Mathlib.Data.List.DropRight
import JsonnetSyntax.Proofs.Lexical.TextBlocks

/-!
# Tokens and the blanks between them

Lexed alone, the text of a token is the same token again; and texts that are tokens alone stay these
tokens when they are written one after the other with blanks between them, whatever the blanks are.
The first part asks every scanner to stop at the end of the text where it stopped in front of what
followed; the second part asks it to stop in front of a blank where it stopped at the end of the
text.  Only bars in front of a line feed are different: they open a text block.

## Key results

- `Piece.first_alone`: a lexeme is the first piece of its own text
- `Piece.first_append_blank`: a lexeme that is a whole text is the first piece in front of blanks
- `cuts_spaced`: a row of spelled tokens is cut into these tokens and the blanks between them
- `lex_respaced`: what the tokens of a text say does not depend on the blanks between them
-/

namespace JsonnetSyntax

namespace Piece

/-- The text is empty or starts with a blank. -/
def Apart (more : List Char) : Prop := ∀ c ∈ more.head?, isBlank c = true

/-- A class of characters without blanks ends in front of a blank. -/
theorem Apart.stops {more : List Char} (h : Apart more) (p : Char → Bool)
    (hp : [' ', '\t', '\r', '\n'].all (fun c => !p c) = true) : ∀ c ∈ more.head?, p c = false := by
  intro c hc
  have hblank : c ∈ [' ', '\t', '\r', '\n'] := by simpa [isBlank, or_assoc] using h c hc
  simpa using List.all_eq_true.mp hp c hblank

/-- In front of blanks, a text starts with a character that is no blank only if it does so alone. -/
theorem Apart.append_ne {text more : List Char} (h : Apart more) {c : Char} (hc : isBlank c = false)
    (htext : ∀ tail, text = c :: tail → False) (tail : List Char) : text ++ more ≠ c :: tail := by
  -- An empty text would have to start with the blank.
  intro heq
  cases text with
  | nil =>
    rw [List.nil_append] at heq
    simp [h c (by simp [heq])] at hc
  | cons d text =>
    obtain ⟨rfl, -⟩ := List.cons.inj heq
    exact htext text rfl

end Piece

open Piece (Apart)

/-! ## Numbers in front of blanks -/

namespace Numeral

variable {part : NumeralPart} {first : Char} {taken text more all rest : List Char}

/-- Digits end in front of a blank as they do at the end of a text. -/
theorem digits_append (hmore : Apart more) (h : digits part taken text = .ok (all, rest)) :
    digits part taken (text ++ more) = .ok (all, rest ++ more) := by
  -- No blank is a digit, so the digits end at the same place.
  have hstops := hmore.stops Char.isDigit (by decide)
  unfold digits at h ⊢
  rw [takeWhile_append_boundary hstops, dropWhile_append_boundary hstops]
  split at h
  · cases h
  · next hdigits =>
    cases h
    rw [if_neg hdigits]

/-- An integer part ends in front of a blank as it does at the end of a text. -/
theorem integer_append (hmore : Apart more) (first : Char) (text : List Char) :
    integer first (text ++ more) = ((integer first text).1, (integer first text).2 ++ more) := by
  have hstops := hmore.stops Char.isDigit (by decide)
  unfold integer
  rw [takeWhile_append_boundary hstops, dropWhile_append_boundary hstops]
  split <;> rfl

/-- A fraction ends in front of a blank as it does at the end of a text. -/
theorem fraction_append (hmore : Apart more) (h : fraction taken text = .ok (all, rest)) :
    fraction taken (text ++ more) = .ok (all, rest ++ more) := by
  unfold fraction at h
  split at h
  · exact digits_append hmore h
  -- Without a point, nothing is taken; a blank is no point either.
  · next hpoint =>
    cases h
    exact fraction.eq_2 _ _ (hmore.append_ne (by decide) hpoint)

/-- The digits of an exponent end in front of a blank as they do at the end of a text. -/
theorem signedDigits_append (hmore : Apart more) (h : signedDigits taken text = .ok (all, rest)) :
    signedDigits taken (text ++ more) = .ok (all, rest ++ more) := by
  unfold signedDigits at h
  split at h
  · exact digits_append hmore h
  · exact digits_append hmore h
  · next hplus hminus =>
    rw [signedDigits.eq_3 _ _ (hmore.append_ne (by decide) hplus)
      (hmore.append_ne (by decide) hminus)]
    exact digits_append hmore h

/-- An exponent ends in front of a blank as it does at the end of a text. -/
theorem exponent_append (hmore : Apart more) (h : exponent taken text = .ok (all, rest)) :
    exponent taken (text ++ more) = .ok (all, rest ++ more) := by
  -- The exponent mark stands in the text itself, or there is none in front of a blank either.
  unfold exponent at h
  split at h
  · exact signedDigits_append hmore h
  · exact signedDigits_append hmore h
  · next hlower hupper =>
    cases h
    exact exponent.eq_3 _ _ (hmore.append_ne (by decide) hlower)
      (hmore.append_ne (by decide) hupper)

/-- A number ends in front of a blank as it does at the end of a text. -/
theorem scan_append (hmore : Apart more) (h : scan first text = .ok (all, rest)) :
    scan first (text ++ more) = .ok (all, rest ++ more) := by
  obtain ⟨taken, after, hfraction, hexponent⟩ := scan_eq_ok h
  unfold scan
  rw [integer_append hmore]
  simp only [fraction_append hmore hfraction, bind, Except.bind]
  exact exponent_append hmore hexponent

end Numeral

/-! ## Strings in front of anything -/

namespace Quoted

variable {quote : Char} {seen text content rest : List Char}

/-- A string ends at its closing quote, whatever follows. -/
theorem scanFrom_append (hquote : quote ≠ '\x5c')
    (h : scanFrom quote seen text = some (content, rest)) (more : List Char) :
    scanFrom quote seen (text ++ more) = some (content, rest ++ more) := by
  fun_induction scanFrom quote seen text with
  | case1 => cases h
  | case2 seen c text ih => exact ih h
  | case3 seen text hplain =>
    cases h
    rw [List.cons_append, scanFrom.eq_3 _ _ _ _ fun _ _ hc => absurd hc hquote, if_pos rfl]
  | case4 seen c text hplain hc ih =>
    rw [List.cons_append, scanFrom.eq_3, if_neg hc]
    · exact ih h
    · rintro d tail rfl heq
      -- A backslash protects what follows it, and nothing would close the string.
      cases text with
      | nil => cases h
      | cons e text => exact hplain e text rfl rfl

/-- A string is scanned in the same way, whatever follows it. -/
theorem scan_append (hquote : quote ≠ '\x5c') (h : scan quote text = some (content, rest))
    (more : List Char) : scan quote (text ++ more) = some (content, rest ++ more) :=
  scanFrom_append hquote h more

end Quoted

/-- A text block is scanned in the same way, whatever follows it. -/
theorem Block.scan_append {text rest : List Char} {layout : BlockLayout}
    (h : Block.scan text = .ok (layout, rest)) (more : List Char) :
    Block.scan (text ++ more) = .ok (layout, rest ++ more) := by
  obtain ⟨hvalid, heq⟩ := scan_eq_ok_iff_valid.mp h
  refine scan_eq_ok_iff_valid.mpr ⟨hvalid, ?_⟩
  rw [← List.append_assoc, heq, List.append_assoc]

/-! ## Operators -/

namespace SymbolRun

variable {seen text more : List Char}

/-- What opens a comment or a text block is made of symbols, and blanks are none. -/
theorem opensOther_append_blank (hmore : Apart more) :
    opensOther (text ++ more) = opensOther text := by
  rw [Bool.eq_iff_iff, opensOther_iff, opensOther_iff]
  constructor
  · rintro ⟨opener, hopener, hstarts⟩
    refine ⟨opener, hopener, ?_⟩
    -- The opener lies within the text, or it reaches into the blanks.
    obtain hshort | ⟨extra, rfl⟩ :=
      List.prefix_or_prefix_of_prefix hstarts (List.prefix_append text more)
    · exact hshort
    · rw [List.prefix_append_right_inj] at hstarts
      cases extra with
      | nil => exact (List.append_nil text).symm ▸ List.prefix_refl text
      | cons c extra =>
        -- The opener would go on with a blank.
        obtain ⟨tail, rfl⟩ := hstarts
        have hall :
            openers.all (fun opener => opener.all fun c => !Piece.isBlank c) = true := by decide
        simp only [List.all_eq_true, Bool.not_eq_true'] at hall
        have hblank := hall _ hopener c (by simp)
        exact absurd (hmore c rfl) (by simp [hblank])
  · rintro ⟨opener, hopener, hstarts⟩
    exact ⟨opener, hopener, hstarts.trans (List.prefix_append ..)⟩

/-- Symbols that open nothing else in front of `more` do not do so alone. -/
theorem opensOther_of_append (h : opensOther (text ++ more) = false) : opensOther text = false := by
  rw [Bool.eq_false_iff] at h ⊢
  intro hopens
  obtain ⟨opener, hopener, hstarts⟩ := opensOther_iff.mp hopens
  exact h (opensOther_iff.mpr ⟨opener, hopener, hstarts.trans (List.prefix_append ..)⟩)

/-- A run of symbols ends in front of a blank as it does at the end of a text. -/
theorem reverseRun_append_blank (hmore : Apart more) (seen text : List Char) :
    reverseRun seen (text ++ more) = reverseRun seen text := by
  -- A run ends where a character is no symbol, or where something else opens; blanks change
  -- neither.
  induction text generalizing seen with
  | nil =>
    cases more with
    | nil => rfl
    | cons c more =>
      have hc := hmore.stops isSymbol (by decide) c rfl
      simp [reverseRun, hc]
  | cons c text ih =>
    have hopens : opensOther (c :: text ++ more) = opensOther (c :: text) :=
      opensOther_append_blank hmore
    rw [List.cons_append] at hopens ⊢
    rw [reverseRun, reverseRun, hopens, ih]

/-- An operator ends in front of a blank as it does at the end of a text. -/
theorem scan_append_blank (hmore : Apart more) (c : Char) (text : List Char) :
    scan c (text ++ more) = ((scan c text).1, (scan c text).2 ++ more) := by
  have htail : tail (text ++ more) = tail text := by
    rw [tail, tail, reverseRun_append_blank hmore]
  rw [scan, scan, htail, List.drop_append_of_le_length (tail_isPrefix text).length_le]

/-- A text that a run of symbols passes, whatever follows it, is a run of symbols alone. -/
theorem reverseRun_alone (h : text.reverse ++ seen <:+ reverseRun seen (text ++ more)) :
    reverseRun seen text = text.reverse ++ seen := by
  -- Each character of the text is passed, since the run would be too short otherwise.
  induction text generalizing seen with
  | nil => rfl
  | cons c text ih =>
    rw [List.cons_append, reverseRun] at h
    rw [reverseRun]
    split at h
    · next hc =>
      rw [Bool.and_eq_true, Bool.not_eq_true'] at hc
      have hopens : opensOther (c :: text) = false := opensOther_of_append hc.2
      rw [if_pos (by simp [hc.1, hopens]), ih (by simpa using h)]
      simp
    · have hlength := h.length_le
      rw [List.length_append, List.length_reverse, List.length_cons] at hlength
      omega

/-- An operator is an operator alone. -/
theorem scan_alone {c : Char} {op rest : List Char} (h : scan c text = (c :: op, rest)) :
    scan c op = (c :: op, []) := by
  obtain rfl : tail text = op := (List.cons.inj (Prod.mk.inj h).1).2
  obtain ⟨rest, hrest⟩ := tail_isPrefix text
  have hkept : tail text = ((reverseRun [] text).dropWhile isGivenBack).reverse := rfl
  have hreverse : (tail text).reverse = (reverseRun [] text).dropWhile isGivenBack := by
    rw [hkept, List.reverse_reverse]
  have hrun : reverseRun [] (tail text) = (tail text).reverse := by
    have hpassed : (tail text).reverse ++ [] <:+ reverseRun [] (tail text ++ rest) := by
      rw [hrest, List.append_nil, hreverse]
      exact List.dropWhile_suffix _
    simpa using reverseRun_alone hpassed
  -- What is not given back in front of `rest` is not given back at the end of the text.
  have htail : tail (tail text) = tail text := by
    rw [tail, hrun, hreverse, List.dropWhile_idempotent, ← hkept]
  rw [scan, htail, List.drop_length]

/-- A run of symbols takes a colon and does not give it back. -/
theorem tail_colon_ne_nil (text : List Char) : tail (':' :: text) ≠ [] := by
  -- A colon is passed by the run, and is none of the signs that are given back.
  have hcolon : ':' ∈ reverseRun [] (':' :: text) := by
    have hrun : reverseRun [] (':' :: text) = reverseRun [':'] text := rfl
    rw [hrun]
    exact (suffix_reverseRun [':'] text).subset (by simp)
  have hkept : ':' ∈ tail (':' :: text) := by
    rw [tail, List.mem_reverse]
    exact mem_dropWhile hcolon (by decide)
  exact List.ne_nil_of_mem hkept

end SymbolRun

/-! ## Pieces -/

namespace Piece

variable {c : Char} {text more rest : List Char} {content : Lexeme} {block : Option TextBlock}

/-- A number is the first piece in front of blanks, too. -/
theorem firstNumber_append (hmore : Apart more) {cut : Piece × List Char}
    (h : firstNumber c text = .ok cut) :
    firstNumber c (text ++ more) = .ok (cut.1, cut.2 ++ more) := by
  unfold firstNumber at h ⊢
  split at h
  · cases h
  · next hscan =>
    cases h
    rw [Numeral.scan_append hmore hscan]

/-- A string is the first piece in front of anything. -/
theorem firstQuoted_append {form : StringForm} {quote : Char} (hquote : quote ≠ '\x5c')
    {cut : Piece × List Char} (h : firstQuoted form quote text = .ok cut) (more : List Char) :
    firstQuoted form quote (text ++ more) = .ok (cut.1, cut.2 ++ more) := by
  unfold firstQuoted at h ⊢
  split at h
  · cases h
  · next hscan =>
    cases h
    rw [Quoted.scan_append hquote hscan]

/-- A text block is the first piece in front of anything. -/
theorem firstBlock_append {cut : Piece × List Char} (h : firstBlock text = .ok cut)
    (more : List Char) :
    firstBlock (text ++ more) = .ok (cut.1, cut.2 ++ more) := by
  unfold firstBlock at h ⊢
  split at h
  · cases h
  · next hscan =>
    cases h
    rw [Block.scan_append hscan]

/-- Bars in front of a line feed are not an operator any more. -/
theorem firstSymbolic_append (hmore : Apart more)
    (hbars : c :: text = ['|', '|', '|'] → more.head? ≠ some '\n')
    (h : firstSymbolic c text = .ok (.lexeme content block, rest)) :
    firstSymbolic c (text ++ more) = .ok (.lexeme content block, rest ++ more) := by
  unfold firstSymbolic at h
  split at h
  · cases h
  · cases h
  · unfold firstBlockComment at h
    split at h <;> cases h
  · exact firstBlock_append h more
  · next hhash hline hblock hopening =>
    rw [firstSymbolic.eq_5]
    · rw [SymbolRun.scan_append_blank hmore]
      obtain ⟨hpiece, rfl⟩ := Prod.mk.inj (Except.ok.inj h)
      rw [hpiece]
    · exact hhash
    · rintro tail rfl
      -- A comment that opens in front of the blanks would open in the text alone.
      exact hmore.append_ne (by decide) (fun tail heq => hline tail rfl heq) tail
    · rintro tail rfl
      exact hmore.append_ne (by decide) (fun tail heq => hblock tail rfl heq) tail
    · rintro tail rfl heq
      -- The opening would be part of the text already, or the line feed would be the first blank.
      have hbar : ∀ tail, [] ++ more ≠ '|' :: tail := hmore.append_ne (by decide) (by simp)
      rcases text with - | ⟨x, - | ⟨y, - | ⟨d, text⟩⟩⟩
      · exact hbar _ heq
      · obtain ⟨-, heq⟩ := List.cons.inj heq
        exact hbar _ heq
      · obtain ⟨rfl, rfl, hfeed⟩ : x = '|' ∧ y = '|' ∧ more = '\n' :: tail := by simpa using heq
        exact hbars rfl (by rw [hfeed]; rfl)
      · obtain ⟨rfl, rfl, rfl, -⟩ : x = '|' ∧ y = '|' ∧ d = '\n' ∧
          text ++ more = tail := by simpa using heq
        exact hopening text rfl rfl

/-- An operator with an exclamation mark is the first piece in front of blanks, too. -/
theorem firstNegation_append (hmore : Apart more) (text : List Char) :
    firstNegation (text ++ more) = ((firstNegation text).1, (firstNegation text).2 ++ more) := by
  unfold firstNegation
  split
  -- Whether an equals sign follows is decided by the text alone.
  · next tail heq =>
    split
    · next tail' =>
      cases heq
      rfl
    · next hplain => exact absurd heq (hmore.append_ne (by decide) hplain tail)
  · next hplain =>
    split
    · next tail' => exact absurd rfl (hplain (tail' ++ more))
    · rfl

/-- A blank does not decide whether a character stands alone. -/
theorem standsAlone_append (hmore : Apart more) (c : Char) (text : List Char) :
    standsAlone c (text ++ more) = standsAlone c text := by
  unfold standsAlone
  cases text with
  | cons d text => rfl
  | nil =>
    cases more with
    | nil => rfl
    | cons d more =>
      -- The only character that matters behind a plus sign is a colon.
      have hcolon : d ≠ ':' := by
        rintro rfl
        exact absurd (hmore ':' rfl) (by decide)
      have hhead : ((d :: more).head? != some ':') = true := bne_iff_ne.mpr (by simpa using hcolon)
      rw [List.nil_append, hhead]
      rfl

/-- A lexeme in front of nothing is also the first piece in front of blanks, unless it is an opening
    of a text block there. -/
theorem first_append_blank (hmore : Apart more)
    (hbars : c :: text = ['|', '|', '|'] → more.head? ≠ some '\n')
    (h : first c text = .ok (.lexeme content block, rest)) :
    first c (text ++ more) = .ok (.lexeme content block, rest ++ more) := by
  unfold first at h ⊢
  rw [standsAlone_append hmore]
  -- One case for each scanner, in the order of `first`.
  by_cases hblank : isBlank c
  · rw [if_pos hblank] at h
    cases h
  rw [if_neg hblank] at h ⊢
  cases hmark : Punct.ofChar? c with
  | some mark =>
    simp only [hmark] at h ⊢
    obtain ⟨hpiece, rfl⟩ := Prod.mk.inj (Except.ok.inj h)
    rw [hpiece]
  | none =>
    simp only [hmark] at h ⊢
    by_cases hnegation : c == '!'
    · rw [if_pos hnegation] at h ⊢
      rw [firstNegation_append hmore, Except.ok.inj h]
    rw [if_neg hnegation] at h ⊢
    by_cases halone : standsAlone c text
    · rw [if_pos halone] at h ⊢
      obtain ⟨hpiece, rfl⟩ := Prod.mk.inj (Except.ok.inj h)
      rw [hpiece]
    rw [if_neg halone] at h ⊢
    by_cases hdigit : c.isDigit
    · rw [if_pos hdigit] at h ⊢
      exact firstNumber_append hmore h
    rw [if_neg hdigit] at h ⊢
    by_cases hdouble : c == doubleQuote
    · rw [if_pos hdouble] at h ⊢
      exact firstQuoted_append (by rw [eq_of_beq hdouble]; decide) h more
    rw [if_neg hdouble] at h ⊢
    by_cases hsingle : c == singleQuote
    · rw [if_pos hsingle] at h ⊢
      exact firstQuoted_append (by rw [eq_of_beq hsingle]; decide) h more
    rw [if_neg hsingle] at h ⊢
    by_cases hword : isWordStart c
    · rw [if_pos hword] at h ⊢
      have hstops := hmore.stops isWordChar (by decide)
      rw [takeWhile_append_boundary hstops, dropWhile_append_boundary hstops]
      obtain ⟨hpiece, rfl⟩ := Prod.mk.inj (Except.ok.inj h)
      rw [hpiece]
    rw [if_neg hword] at h ⊢
    by_cases hsymbol : SymbolRun.isSymbol c
    · rw [if_pos hsymbol] at h ⊢
      exact firstSymbolic_append hmore hbars h
    · rw [if_neg hsymbol] at h
      cases h

/-- A plus sign that was cut off alone is not followed by a colon. -/
theorem standsAlone_alone {piece : Piece} (h : first c (text ++ rest) = .ok (piece, rest)) :
    standsAlone c (text ++ rest) = standsAlone c text := by
  cases text with
  | cons d text => rfl
  | nil =>
    rw [List.nil_append] at h ⊢
    by_cases hplus : c = '+'
    · subst hplus
      cases halone : standsAlone '+' rest with
      | true => rfl
      | false =>
        -- The run of symbols goes on with the colon, so it takes more than the sign.
        have hcolon : rest.head? = some ':' := by simpa [standsAlone] using halone
        obtain ⟨tail, rfl⟩ := List.head?_eq_some_iff.mp hcolon
        have hfirst : first '+' (':' :: tail) = firstSymbolic '+' (':' :: tail) := rfl
        rw [hfirst, firstSymbolic.eq_5 _ _ (by decide) (by simp) (by simp) (by simp)] at h
        have hrest := (Prod.mk.inj (Except.ok.inj h)).2
        have hlength := congrArg List.length hrest
        have hpos := List.length_pos_of_ne_nil (SymbolRun.tail_colon_ne_nil tail)
        simp only [SymbolRun.scan, List.length_drop, List.length_cons] at hlength
        omega
    · simp [standsAlone, beq_eq_false_iff_ne.mpr hplus]

/-- Every piece is the first piece of its own text. -/
theorem first_alone {piece : Piece} (h : first c (text ++ rest) = .ok (piece, rest)) :
    first c text = .ok (piece, []) := by
  refine first_of_append_of_run h (standsAlone_alone h) fun _ op hscan => ?_
  -- What the operator takes here is all of the text.
  have hwhole := SymbolRun.scan_eq_append c (text ++ rest)
  rw [hscan, ← List.cons_append] at hwhole
  obtain rfl := List.append_cancel_right hwhole
  exact SymbolRun.scan_alone hscan

/-- A lexeme does not start with a blank. -/
theorem isBlank_of_first (h : first c text = .ok (.lexeme content block, rest)) :
    isBlank c = false := by
  rw [Bool.eq_false_iff]
  intro hblank
  rw [first, if_pos hblank] at h
  cases h

end Piece

/-! ## Spellings -/

/-- Lexed alone, the text is one token that says `content`, and no fodder stands around it. -/
def IsSpelling (file text : String) (content : Lexeme × Option TextBlock) : Prop :=
  ∃ t eof, lex file text = .ok [t, eof] ∧ t.content = content ∧ t.fodder = [] ∧
    eof.kind = .endOfFile ∧ eof.fodder = []

/-- A text spells a token if the token is the first piece of it and takes all of it. -/
theorem isSpelling_iff {file text : String} {content : Lexeme × Option TextBlock} :
    IsSpelling file text content ↔
      ∃ c taken,
        text.toList = c :: taken ∧ Piece.first c taken = .ok (.lexeme content.1 content.2, []) := by
  constructor
  -- All of the source is one lexeme, since no fodder stands around the token.
  · rintro ⟨t, eof, hlex, rfl, hfodder, -, hfodder'⟩
    have hcuts : Cuts text.toList ([t].flatMap Token.pieces ++ eof.fodder.map .fodder) [] :=
      cuts_of_lex hlex
    rw [hfodder', List.flatMap_singleton, Token.pieces, hfodder] at hcuts
    generalize text.toList = chars at hcuts
    cases hcuts with
    | cons hfirst hothers =>
      cases hothers
      exact ⟨_, _, rfl, hfirst⟩
  · rintro ⟨c, taken, htext, hfirst⟩
    have hcuts : Cuts text.toList [.lexeme content.1 content.2] [] := by
      rw [htext]
      exact Cuts.singleton_iff.mpr hfirst
    exact ⟨_, _, lex_eq_ok_iff.mpr ⟨_, hcuts, rfl⟩, rfl, rfl, rfl, rfl⟩

/-- The text of a token is a spelling of it. -/
theorem isSpelling_sourceText {file source : String} {front : List Token} {eof t : Token}
    (h : lex file source = .ok (front ++ [eof])) (ht : t ∈ front) (other : String) :
    IsSpelling other t.sourceText t.content := by
  -- The token is the last piece of some front of the source.
  obtain ⟨before, after, rfl⟩ := List.append_of_mem ht
  have hcuts := cuts_of_lex h
  rw [List.flatMap_append, List.flatMap_cons, Token.pieces] at hcuts
  simp only [List.append_assoc, List.singleton_append] at hcuts
  obtain ⟨_, -, hcuts⟩ := hcuts.split
  obtain ⟨_, -, hcuts⟩ := hcuts.split
  cases hcuts with
  | cons hfirst _ =>
    obtain ⟨taken, htext, rfl⟩ := Piece.first_splits hfirst
    exact isSpelling_iff.mpr ⟨_, taken, htext, Piece.first_alone hfirst⟩

/-! ## Rows of spelled tokens -/

/-- The fodder that blanks are: one element, or none if there are no blanks. -/
def Fodder.ofBlanks (blanks : String) : List Fodder :=
  if blanks = "" then [] else [⟨.whitespace, blanks⟩]

/-- A text, what it says as a token, and the blanks behind it. -/
structure Spaced where
  text : String
  content : Lexeme × Option TextBlock
  after : String

namespace Spaced

/-- The text with the blanks behind it. -/
def written (s : Spaced) : String := s.text ++ s.after

/-- The pieces that it is cut into. -/
def pieces (s : Spaced) : List Piece :=
  .lexeme s.content.1 s.content.2 :: (Fodder.ofBlanks s.after).map .fodder

/-- The text spells the content, and only blanks follow it.  Bars are not followed by a line
    feed. -/
structure Valid (s : Spaced) : Prop where
  spelling : ∃ file, IsSpelling file s.text s.content
  blank : ∀ c ∈ s.after.toList, Piece.isBlank c = true
  bars : s.text = "|||" → s.after.toList.head? ≠ some '\n'

variable {s : Spaced}

/-- A valid text is one lexeme, from its first character to its last. -/
theorem Valid.first (h : s.Valid) :
    ∃ c taken, s.text.toList = c :: taken ∧
      Piece.first c taken = .ok (.lexeme s.content.1 s.content.2, []) := by
  obtain ⟨file, hspelling⟩ := h.spelling
  exact isSpelling_iff.mp hspelling

end Spaced

/-- Blanks in front of a text that starts with none are one piece. -/
theorem cuts_blanks {blanks : String} {text : List Char} {pieces : List Piece}
    (hblanks : ∀ c ∈ blanks.toList, Piece.isBlank c = true)
    (htext : ∀ c ∈ text.head?, Piece.isBlank c = false) (h : Cuts text pieces []) :
    Cuts (blanks.toList ++ text) ((Fodder.ofBlanks blanks).map .fodder ++ pieces) [] := by
  by_cases hempty : blanks = ""
  -- No blanks at all are no piece; otherwise the loop over blanks takes all of them.
  · subst hempty
    exact h
  cases hchars : blanks.toList with
  | nil => exact absurd (String.toList_eq_nil_iff.mp hchars) hempty
  | cons c tail =>
    rw [hchars, List.forall_mem_cons] at hblanks
    have hfirst : Piece.first c (tail ++ text) = .ok (.fodder ⟨.whitespace, blanks⟩, text) := by
      rw [Piece.first, if_pos hblanks.1, takeWhile_append_boundary htext,
        dropWhile_append_boundary htext, List.takeWhile_eq_self_iff.mpr hblanks.2,
        List.dropWhile_eq_nil_iff.mpr hblanks.2, ← hchars, Piece.ofFodder, String.ofList_toList]
      rfl
    rw [Fodder.ofBlanks, if_neg hempty]
    exact .cons hfirst h

/-- The characters of a row of spelled tokens with blanks behind them. -/
def spacedText (row : List Spaced) : List Char :=
  row.flatMap fun s => s.text.toList ++ s.after.toList

/-- A row starts with the text of its first token and the blanks behind that. -/
@[simp] theorem spacedText_cons (s : Spaced) (row : List Spaced) :
    spacedText (s :: row) = s.text.toList ++ (s.after.toList ++ spacedText row) := by
  simp [spacedText]

/-- A row does not start with a blank. -/
theorem head?_spacedText {row : List Spaced} (hrow : ∀ s ∈ row, s.Valid) :
    ∀ c ∈ (spacedText row).head?, Piece.isBlank c = false := by
  intro c hc
  cases row with
  | nil => cases hc
  | cons s row =>
    obtain ⟨d, taken, htext, hfirst⟩ := (hrow s (List.mem_cons_self ..)).first
    rw [spacedText_cons, htext] at hc
    obtain rfl : d = c := by simpa using hc
    exact Piece.isBlank_of_first hfirst

/-- Behind a spelled token stands a blank or the end of the text. -/
theorem apart_behind {s : Spaced} {row : List Spaced} (hs : s.Valid)
    (hafter : s.after = "" → row = []) :
    Piece.Apart (s.after.toList ++ spacedText row) ∧
      (s.text = "|||" → (s.after.toList ++ spacedText row).head? ≠ some '\n') := by
  cases hchars : s.after.toList with
  | nil =>
    -- Only the last token of a row is not followed by a blank.
    rw [hafter (String.toList_eq_nil_iff.mp hchars)]
    exact ⟨by simp [Piece.Apart, spacedText], by simp [spacedText]⟩
  | cons c tail =>
    constructor
    · intro d hd
      obtain rfl : c = d := by simpa using hd
      exact hs.blank c (by simp [hchars])
    · intro htext
      have hhead := hs.bars htext
      rw [hchars] at hhead
      exact hhead

/-- A row of spelled tokens with blanks between them is cut into these tokens and the blanks. -/
theorem cuts_spaced {row : List Spaced} (hrow : ∀ s ∈ row, s.Valid)
    (hbetween : ∀ s ∈ row.dropLast, s.after ≠ "") :
    Cuts (spacedText row) (row.flatMap Spaced.pieces) [] := by
  -- The induction is on the row; the first token is followed by its blanks and the others.
  induction row with
  | nil => exact .nil []
  | cons s row ih =>
    rw [List.forall_mem_cons] at hrow
    have hafter : s.after = "" → row = [] := by
      intro hempty
      cases row with
      | nil => rfl
      | cons next row => exact absurd hempty (hbetween s (by simp))
    have hothers : Cuts (spacedText row) (row.flatMap Spaced.pieces) [] := by
      refine ih hrow.2 fun other hother => hbetween other ?_
      cases row with
      | nil => cases hother
      | cons next row => exact List.mem_cons_of_mem _ hother
    obtain ⟨c, taken, htext, hfirst⟩ := hrow.1.first
    obtain ⟨hapart, hbars⟩ := apart_behind hrow.1 hafter
    rw [spacedText_cons, htext, List.flatMap_cons]
    refine .cons (Piece.first_append_blank hapart (fun hchars => hbars ?_) hfirst) ?_
    · apply String.toList_injective
      rw [htext, hchars]
      rfl
    · exact cuts_blanks hrow.1.blank (head?_spacedText hrow.2) hothers

/-! ## The tokens of a row -/

/-- The lexemes among the pieces of a row are what the row spells. -/
theorem filterMap_content?_spaced (row : List Spaced) :
    (row.flatMap Spaced.pieces).filterMap Piece.content? = row.map Spaced.content := by
  induction row with
  | nil => rfl
  | cons s row ih =>
    rw [List.flatMap_cons, List.filterMap_append, ih, Spaced.pieces, List.filterMap_cons,
      filterMap_content?_fodder]
    rfl

namespace Assembly

/-- Blanks are gathered as fodder, and make no token. -/
theorem foldl_ofBlanks (file : String) (a : Assembly) (blanks : String) (hfodder : a.fodder = #[]) :
    (((Fodder.ofBlanks blanks).map Piece.fodder).foldl (add file) a).fodder.toList =
        Fodder.ofBlanks blanks ∧
      (((Fodder.ofBlanks blanks).map Piece.fodder).foldl (add file) a).tokens = a.tokens := by
  unfold Fodder.ofBlanks
  split
  · exact ⟨by simp [hfodder], rfl⟩
  · exact ⟨by simp [add, hfodder], rfl⟩

/-- Every token of a row has the blanks behind the token in front of it as its fodder. -/
theorem map_fodder_finish (file : String) (row : List Spaced) (a : Assembly) :
    (((row.flatMap Spaced.pieces).foldl (add file) a).finish file).map Token.fodder =
      a.tokens.toList.map Token.fodder ++
        a.fodder.toList :: row.map fun s => Fodder.ofBlanks s.after := by
  -- The fodder of a token is what stands in front of it, so the blanks move on by one token.
  induction row generalizing a with
  | nil => simp [finish, push]
  | cons s row ih =>
    have hpieces : (Spaced.pieces s).foldl (add file) a =
        ((Fodder.ofBlanks s.after).map Piece.fodder).foldl (add file)
          (a.add file (.lexeme s.content.1 s.content.2)) := rfl
    obtain ⟨hfodder, htokens⟩ :=
      foldl_ofBlanks file (a.add file (.lexeme s.content.1 s.content.2)) s.after rfl
    rw [List.flatMap_cons, List.foldl_append, ih, hpieces, hfodder, htokens]
    simp [add, push]

end Assembly

/-- What the tokens of a text say does not depend on the blanks between them.  The text of every
    token spells the token; and texts that spell tokens, written with any blanks between them, are
    lexed into tokens that say the same, each with the blanks in front of it as its only fodder. -/
theorem lex_respaced :
    (∀ (file source : String) (front : List Token) (eof : Token),
      lex file source = .ok (front ++ [eof]) →
      ∀ t ∈ front, ∀ other, IsSpelling other t.sourceText t.content) ∧
    ∀ (file before : String) (row : List Spaced), (∀ c ∈ before.toList, Piece.isBlank c = true) →
      (∀ s ∈ row, s.Valid) → (∀ s ∈ row.dropLast, s.after ≠ "") →
      ∃ tokens, lex file (before ++ String.join (row.map Spaced.written)) = .ok tokens ∧
        tokens.map Token.content = row.map Spaced.content ++ [(⟨.endOfFile, ""⟩, none)] ∧
        tokens.map Token.fodder = (before :: row.map Spaced.after).map Fodder.ofBlanks := by
  constructor
  · intro file source front eof h t ht other
    exact isSpelling_sourceText h ht other
  · intro file before row hbefore hrow hbetween
    have hcuts := cuts_blanks hbefore (head?_spacedText hrow) (cuts_spaced hrow hbetween)
    have htext : (before ++ String.join (row.map Spaced.written)).toList =
        before.toList ++ spacedText row := by
      simp [spacedText, Spaced.written, List.flatMap_map]
    rw [← htext] at hcuts
    refine ⟨_, lex_eq_ok_iff.mpr ⟨_, hcuts, rfl⟩, ?_, ?_⟩
    · rw [map_content_assemble, List.filterMap_append, filterMap_content?_fodder, List.nil_append,
        filterMap_content?_spaced]
    · obtain ⟨hfodder, htokens⟩ := Assembly.foldl_ofBlanks file {} before rfl
      rw [assemble, List.foldl_append, Assembly.map_fodder_finish, hfodder, htokens]
      simp

/-- An operator that gave a sign back in its text is a spelling; bars and an operator with an equals
    sign stay apart. -/
theorem lex_respaced_sample :
    (∃ front eof, lex "sample" "a<-1" = .ok (front ++ [eof]) ∧
      ∀ t ∈ front, IsSpelling "other" t.sourceText t.content) ∧
    ∃ tokens, lex "sample" "\t||| \n!=" = .ok tokens ∧
      tokens.map Token.content = [(⟨.operator, "|||"⟩, none), (⟨.operator, "!="⟩, none),
        (⟨.endOfFile, ""⟩, none)] ∧
      tokens.map Token.fodder = [[⟨.whitespace, "\t"⟩], [⟨.whitespace, " \n"⟩], []] := by
  constructor
  · have hok : (lex "sample" "a<-1").isOk = true := by decide +kernel
    cases h : lex "sample" "a<-1" with
    | error e => simp [h, Except.isOk, Except.toBool] at hok
    | ok tokens =>
      obtain ⟨front, eof, rfl, -⟩ := exists_concat_of_lex h
      exact ⟨front, eof, rfl, fun t ht => lex_respaced.1 _ _ _ _ h t ht "other"⟩
  · have hbars : IsSpelling "sample" "|||" (⟨.operator, "|||"⟩, none) :=
      isSpelling_iff.mpr ⟨'|', ['|', '|'], rfl, by decide +kernel⟩
    have hunequal : IsSpelling "sample" "!=" (⟨.operator, "!="⟩, none) :=
      isSpelling_iff.mpr ⟨'!', ['='], rfl, by decide +kernel⟩
    exact lex_respaced.2 "sample" "\t"
      [⟨"|||", (⟨.operator, "|||"⟩, none), " \n"⟩, ⟨"!=", (⟨.operator, "!="⟩, none), ""⟩]
      (by simp [Piece.isBlank])
      (by simpa using ⟨⟨⟨_, hbars⟩, by simp [Piece.isBlank], by decide⟩,
        ⟨⟨_, hunequal⟩, by simp, by decide⟩⟩)
      (by decide)

end JsonnetSyntax
