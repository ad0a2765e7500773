import Mathlib.Data.List.Basic
import Mathlib.Data.List.TakeWhile
import JsonnetSyntax.Proofs.Lexical.Locations

/-!
# Lexing a part of a text

A scanner that leaves a text `rest ++ more` behind has not looked into `more`, or what it saw there
made it stop: without `more` it takes the same.  Operators are the exception, since a run of symbols
stops in front of a comment or a text block and gives characters back.  But a text that an operator
cannot run through keeps them apart from what follows, and every text that ends with a lexeme of
another kind is such a text.

## Key results

- `Numeral.scan_of_append`, `Quoted.scan_of_append`, `Comment.scanBlock_of_append`,
  `Block.scan_of_append`: the scanners
- `SymbolRun.scan_of_append`: operators in front of a text that closes them
- `Piece.first_of_append`: the first piece of a text
-/

namespace JsonnetSyntax

/-! ## What a scanner leaves -/

section Lists

variable {α : Type} {p : α → Bool} {text more mid rest : List α} {x : α}

/-- A rest that ends with `more` was left of a text that ends with `more`. -/
theorem exists_append_of_suffix (h : rest ++ more <:+ mid) : ∃ left, mid = left ++ more := by
  obtain ⟨taken, rfl⟩ := h
  exact ⟨taken ++ rest, (List.append_assoc ..).symm⟩

/-- A text does not end with more than itself. -/
theorem not_cons_suffix (hmid : mid <:+ more) : ¬ x :: (rest ++ more) <:+ mid := by
  intro h
  have hlength := (h.trans hmid).length_le
  rw [List.length_cons, List.length_append] at hlength
  omega

/-- What is left of `more` alone, and ends with `more`, has nothing in front of it. -/
theorem eq_nil_of_append_suffix (h : rest ++ more <:+ more) : rest = [] := by
  have hlength := h.length_le
  rw [List.length_append] at hlength
  exact List.eq_nil_of_length_eq_zero (by omega)

/-- A loop that stops in front of `rest ++ more` stops in front of `rest` alone. -/
theorem dropWhile_of_append (h : (text ++ more).dropWhile p = rest ++ more) :
    text.dropWhile p = rest := by
  -- The induction is on the text; where it ends, only `more` is left to be passed.
  induction text with
  | nil =>
    have hsuffix : rest ++ more <:+ more := h ▸ List.dropWhile_suffix p
    exact (eq_nil_of_append_suffix hsuffix).symm
  | cons c text ih =>
    by_cases hc : p c
    · rw [List.cons_append, List.dropWhile_cons_of_pos hc] at h
      rw [List.dropWhile_cons_of_pos hc]
      exact ih h
    · rw [List.cons_append, List.dropWhile_cons_of_neg hc] at h
      rw [List.dropWhile_cons_of_neg hc]
      exact List.append_cancel_right h

/-- A loop that stops in front of `rest ++ more` passes the same without `more`. -/
theorem takeWhile_of_append (h : (text ++ more).dropWhile p = rest ++ more) :
    (text ++ more).takeWhile p = text.takeWhile p := by
  -- Both what is passed and what is left make up the text, so the first follows from the second.
  have hwhole := List.takeWhile_append_dropWhile (p := p) (l := text ++ more)
  have htext := List.takeWhile_append_dropWhile (p := p) (l := text)
  rw [dropWhile_of_append h] at htext
  rw [h, ← List.append_assoc] at hwhole
  exact List.append_cancel_right ((List.append_cancel_right hwhole).trans htext.symm)

/-- A member that a loop does not pass is left behind. -/
theorem mem_dropWhile (hx : x ∈ text) (hp : ¬ p x) : x ∈ text.dropWhile p := by
  rw [← List.takeWhile_append_dropWhile (p := p) (l := text), List.mem_append] at hx
  exact hx.resolve_left fun hmem => hp (List.mem_takeWhile_imp hmem)

/-- A member that a loop does not pass keeps it off what follows. -/
theorem dropWhile_append_of_mem (hx : x ∈ text) (hp : ¬ p x) :
    (text ++ more).dropWhile p = text.dropWhile p ++ more := by
  rw [List.dropWhile_append, if_neg]
  rw [List.isEmpty_iff]
  exact List.ne_nil_of_mem (mem_dropWhile hx hp)

/-- A loop does not pass the front of what follows, so it stops where it stops without it. -/
theorem takeWhile_append_boundary (hmore : ∀ y ∈ more.head?, p y = false) :
    (text ++ more).takeWhile p = text.takeWhile p := by
  induction text with
  | nil =>
    cases more with
    | nil => rfl
    | cons y more => exact List.takeWhile_cons_of_neg (by simp [hmore y rfl])
  | cons x text ih => rw [List.cons_append, List.takeWhile_cons, List.takeWhile_cons, ih]

/-- A loop that does not pass the front of what follows leaves all of it. -/
theorem dropWhile_append_boundary (hmore : ∀ y ∈ more.head?, p y = false) :
    (text ++ more).dropWhile p = text.dropWhile p ++ more := by
  have hwhole := List.takeWhile_append_dropWhile (p := p) (l := text ++ more)
  have htext := List.takeWhile_append_dropWhile (p := p) (l := text)
  rw [takeWhile_append_boundary hmore] at hwhole
  rw [← List.append_cancel_left_eq (text.takeWhile p), hwhole, ← List.append_assoc, htext]

end Lists

/-! ## Numbers -/

namespace Numeral

variable {part : NumeralPart} {first : Char} {taken text more all rest : List Char}

/-- One digit at least is taken. -/
theorem digits_suffix (h : digits part taken text = .ok (all, rest)) : ∃ d, d :: rest <:+ text := by
  unfold digits at h
  split at h
  · cases h
  · next hdigits =>
    cases h
    -- The digits have a last one, which stands in front of the rest.
    have hwhole := List.takeWhile_append_dropWhile (p := Char.isDigit) (l := text)
    rw [← List.dropLast_concat_getLast hdigits, List.append_assoc] at hwhole
    exact ⟨_, _, hwhole⟩

/-- Digits that leave `more` alone are the same without it. -/
theorem digits_of_append (h : digits part taken (text ++ more) = .ok (all, rest ++ more)) :
    digits part taken text = .ok (all, rest) := by
  unfold digits at h ⊢
  split at h
  · cases h
  · next hdigits =>
    obtain ⟨rfl, hrest⟩ := Prod.mk.inj (Except.ok.inj h)
    rw [takeWhile_of_append hrest] at hdigits ⊢
    rw [if_neg hdigits, dropWhile_of_append hrest]

/-- An integer part that leaves `more` alone is the same without it. -/
theorem integer_of_append (h : (integer first (text ++ more)).2 = rest ++ more) :
    integer first text = ((integer first (text ++ more)).1, rest) := by
  unfold integer at h ⊢
  -- A leading zero stands alone, so it takes nothing that could reach into `more`.
  split at h
  · next hfirst =>
    rw [if_pos hfirst, if_pos hfirst, List.append_cancel_right h]
  · next hfirst =>
    rw [if_neg hfirst, if_neg hfirst, takeWhile_of_append h, dropWhile_of_append h]

/-- A fraction leaves an end of its text. -/
theorem fraction_suffix (h : fraction taken text = .ok (all, rest)) : rest <:+ text := by
  unfold fraction at h
  split at h
  · obtain ⟨d, hsuffix⟩ := digits_suffix h
    exact ((List.suffix_cons ..).trans hsuffix).trans (List.suffix_cons ..)
  · cases h
    exact List.suffix_refl _

/-- A fraction that leaves `more` alone is the same without it. -/
theorem fraction_of_append (h : fraction taken (text ++ more) = .ok (all, rest ++ more)) :
    fraction taken text = .ok (all, rest) := by
  cases text with
  | nil =>
    rw [List.nil_append] at h
    have hnil := eq_nil_of_append_suffix (fraction_suffix h)
    subst hnil
    unfold fraction at h
    split at h
    · -- A point would have been taken.
      obtain ⟨d, hsuffix⟩ := digits_suffix h
      exact absurd hsuffix (not_cons_suffix (List.suffix_cons ..))
    · cases h
      rfl
  | cons c text =>
    by_cases hc : c = '.'
    · subst hc
      exact digits_of_append h
    · rw [List.cons_append, fraction.eq_2 _ _ (by simpa using hc)] at h
      rw [fraction.eq_2 _ _ (by simpa using hc)]
      obtain ⟨rfl, hrest⟩ := Prod.mk.inj (Except.ok.inj h)
      rw [← List.cons_append] at hrest
      rw [List.append_cancel_right hrest]

/-- The digits of an exponent leave an end of its text, and take one digit at least. -/
theorem signedDigits_suffix (h : signedDigits taken text = .ok (all, rest)) :
    ∃ d, d :: rest <:+ text := by
  unfold signedDigits at h
  split at h
  · obtain ⟨d, hsuffix⟩ := digits_suffix h
    exact ⟨d, hsuffix.trans (List.suffix_cons ..)⟩
  · obtain ⟨d, hsuffix⟩ := digits_suffix h
    exact ⟨d, hsuffix.trans (List.suffix_cons ..)⟩
  · exact digits_suffix h

/-- The digits of an exponent that leave `more` alone are the same without it. -/
theorem signedDigits_of_append (h : signedDigits taken (text ++ more) = .ok (all, rest ++ more)) :
    signedDigits taken text = .ok (all, rest) := by
  cases text with
  | nil =>
    -- Something is taken in any case.
    obtain ⟨d, hsuffix⟩ := signedDigits_suffix h
    exact absurd hsuffix (not_cons_suffix (List.suffix_refl _))
  | cons c text =>
    unfold signedDigits at h ⊢
    rw [List.cons_append] at h
    -- The sign, if there is one, stands in the text itself.
    split at h
    · next heq =>
      obtain ⟨rfl, rfl⟩ := List.cons.inj heq
      exact digits_of_append h
    · next heq =>
      obtain ⟨rfl, rfl⟩ := List.cons.inj heq
      exact digits_of_append h
    · next hplus hminus =>
      split
      · next heq => exact absurd (congrArg (· ++ more) heq) (hplus _)
      · next heq => exact absurd (congrArg (· ++ more) heq) (hminus _)
      · exact digits_of_append h

/-- An exponent leaves an end of its text. -/
theorem exponent_suffix (h : exponent taken text = .ok (all, rest)) : rest <:+ text := by
  unfold exponent at h
  split at h
  · obtain ⟨d, hsuffix⟩ := signedDigits_suffix h
    exact ((List.suffix_cons ..).trans hsuffix).trans (List.suffix_cons ..)
  · obtain ⟨d, hsuffix⟩ := signedDigits_suffix h
    exact ((List.suffix_cons ..).trans hsuffix).trans (List.suffix_cons ..)
  · cases h
    exact List.suffix_refl _

/-- An exponent that leaves `more` alone is the same without it. -/
theorem exponent_of_append (h : exponent taken (text ++ more) = .ok (all, rest ++ more)) :
    exponent taken text = .ok (all, rest) := by
  cases text with
  | nil =>
    rw [List.nil_append] at h
    have hnil := eq_nil_of_append_suffix (exponent_suffix h)
    subst hnil
    unfold exponent at h
    split at h
    · -- An exponent mark would have been taken, and the digits behind it.
      obtain ⟨d, hsuffix⟩ := signedDigits_suffix h
      exact absurd hsuffix (not_cons_suffix (List.suffix_cons ..))
    · obtain ⟨d, hsuffix⟩ := signedDigits_suffix h
      exact absurd hsuffix (not_cons_suffix (List.suffix_cons ..))
    · cases h
      rfl
  | cons c text =>
    unfold exponent at h ⊢
    rw [List.cons_append] at h
    split at h
    · next heq =>
      obtain ⟨rfl, rfl⟩ := List.cons.inj heq
      exact signedDigits_of_append h
    · next heq =>
      obtain ⟨rfl, rfl⟩ := List.cons.inj heq
      exact signedDigits_of_append h
    · next hlower hupper =>
      split
      · next heq => exact absurd (congrArg (· ++ more) heq) (hlower _)
      · next heq => exact absurd (congrArg (· ++ more) heq) (hupper _)
      · obtain ⟨rfl, hrest⟩ := Prod.mk.inj (Except.ok.inj h)
        rw [← List.cons_append] at hrest
        rw [List.append_cancel_right hrest]

/-- A number that leaves `more` alone is scanned in the same way without it. -/
theorem scan_of_append (h : scan first (text ++ more) = .ok (all, rest ++ more)) :
    scan first text = .ok (all, rest) := by
  obtain ⟨taken, after, hfraction, hexponent⟩ := scan_eq_ok h
  -- Every step leaves a text that ends with `more`.
  obtain ⟨after, rfl⟩ := exists_append_of_suffix (exponent_suffix hexponent)
  obtain ⟨mid, hmid⟩ := exists_append_of_suffix (fraction_suffix hfraction)
  rw [hmid] at hfraction
  unfold scan
  rw [integer_of_append hmid]
  simp only [fraction_of_append hfraction, bind, Except.bind]
  exact exponent_of_append hexponent

end Numeral

/-! ## Strings and comments -/

namespace Quoted

variable {quote : Char} {seen text more content rest : List Char}

/-- A string leaves an end of its text, in front of which its closing quote stands. -/
theorem scanFrom_suffix (h : scanFrom quote seen text = some (content, rest)) :
    quote :: rest <:+ text := by
  fun_induction scanFrom quote seen text with
  | case1 => cases h
  | case2 seen c text ih => exact (ih h).trans ((List.suffix_cons ..).trans (List.suffix_cons ..))
  | case3 seen text _ =>
    cases h
    exact List.suffix_refl _
  | case4 seen c text _ _ ih => exact (ih h).trans (List.suffix_cons ..)

/-- A backslash at the end of a text that is all of a string would have protected what follows. -/
theorem scanFrom_cons_append {c : Char} (hplain : ∀ d tail, c = '\x5c' → text = d :: tail → False)
    (h : scanFrom quote seen (c :: (text ++ more)) = some (content, rest ++ more)) :
    scanFrom quote seen (c :: (text ++ more)) =
      if c = quote then some (seen.reverse, text ++ more) else scanFrom quote
      (c :: seen) (text ++ more) := by
  refine scanFrom.eq_3 _ _ _ _ fun d tail hc heq => ?_
  -- Only a text of one character could be followed by the protected one in `more`.
  cases text with
  | nil =>
    subst hc heq
    rw [List.nil_append, scanFrom.eq_2] at h
    have hsuffix := scanFrom_suffix h
    exact not_cons_suffix (List.suffix_cons ..) hsuffix
  | cons e text => exact hplain e text hc rfl

/-- A string is the same wherever it has got to when `more` is left alone. -/
theorem scanFrom_of_append (h : scanFrom quote seen (text ++ more) = some (content, rest ++ more)) :
    scanFrom quote seen text = some (content, rest) := by
  fun_induction scanFrom quote seen text with
  | case1 => exact absurd (scanFrom_suffix h) (not_cons_suffix (List.suffix_refl _))
  | case2 seen c text ih => exact ih h
  | case3 seen text hplain =>
    rw [List.cons_append, scanFrom_cons_append hplain h, if_pos rfl] at h
    obtain ⟨rfl, hrest⟩ := Prod.mk.inj (Option.some.inj h)
    rw [List.append_cancel_right hrest]
  | case4 seen c text hplain hc ih =>
    rw [List.cons_append, scanFrom_cons_append hplain h, if_neg hc] at h
    exact ih h

/-- A string that leaves `more` alone is scanned in the same way without it. -/
theorem scan_of_append (h : scan quote (text ++ more) = some (content, rest ++ more)) :
    scan quote text = some (content, rest) := scanFrom_of_append h

end Quoted

namespace Comment

variable {seen text more body rest : List Char}

/-- A line comment that leaves `more` alone is the same without it. -/
theorem scanLine_of_append (h : (scanLine (text ++ more)).2 = rest ++ more) :
    scanLine text = ((scanLine (text ++ more)).1, rest) := by
  unfold scanLine at h ⊢
  rw [takeWhile_of_append h, dropWhile_of_append h]

/-- A block comment leaves an end of its text, in front of which its last slash stands. -/
theorem scanBlockFrom_suffix (h : scanBlockFrom seen text = some (body, rest)) :
    '/' :: rest <:+ text := by
  fun_induction scanBlockFrom seen text with
  | case1 => cases h
  | case2 seen text =>
    cases h
    exact List.suffix_cons ..
  | case3 seen c text _ ih => exact (ih h).trans (List.suffix_cons ..)

/-- A block comment is the same wherever it has got to when `more` is left alone. -/
theorem scanBlockFrom_of_append
    (h : scanBlockFrom seen (text ++ more) = some (body, rest ++ more)) :
    scanBlockFrom seen text = some (body, rest) := by
  fun_induction scanBlockFrom seen text with
  | case1 => exact absurd (scanBlockFrom_suffix h) (not_cons_suffix (List.suffix_refl _))
  | case2 seen text =>
    obtain ⟨rfl, hrest⟩ := Prod.mk.inj (Option.some.inj h)
    rw [List.append_cancel_right hrest]
  | case3 seen c text hopen ih =>
    refine ih ?_
    rw [← h, List.cons_append]
    refine (scanBlockFrom.eq_3 _ _ _ fun tail hc heq => ?_).symm
    cases text with
    | nil =>
      -- The comment would have ended inside `more`.
      rw [List.nil_append] at heq
      subst hc heq
      obtain ⟨-, hrest⟩ := Prod.mk.inj (Option.some.inj h)
      have hsuffix : '/' :: ([] ++ tail) <:+ tail := ⟨rest, hrest.symm⟩
      exact not_cons_suffix (List.suffix_refl _) hsuffix
    | cons d text =>
      obtain ⟨rfl, rfl⟩ := List.cons.inj heq
      exact hopen text hc rfl

/-- A block comment that leaves `more` alone is the same without it. -/
theorem scanBlock_of_append (h : scanBlock (text ++ more) = some (body, rest ++ more)) :
    scanBlock text = some (body, rest) := scanBlockFrom_of_append h

end Comment

/-! ## Text blocks -/

namespace Block

variable {indent text more rest : List Char} {seen lines : List BlockLine} {layout : BlockLayout}

/-- An indent cannot be taken off a line that does not start with it. -/
theorem isPrefixOf?_eq_none : indent.isPrefixOf? text = none ↔ ¬ indent <+: text := by
  rw [← Option.not_isSome_iff_eq_none, List.isSome_isPrefixOf?_eq_isPrefixOf,
    List.isPrefixOf_iff_prefix]

/-- A line ends at its line feed, which is not part of its content. -/
theorem takeWhile_line {content : List Char} (h : '\n' ∉ content) (after : List Char) :
    (content ++ '\n' :: after).takeWhile (· != '\n') = content ∧
      (content ++ '\n' :: after).dropWhile (· != '\n') = '\n' :: after := by
  -- No character of the content is a line feed, so the loop runs through all of it.
  have hall : ∀ c ∈ content, (c != '\n') = true := by
    intro c hc
    rw [bne_iff_ne]
    rintro rfl
    exact h hc
  rw [List.takeWhile_append_of_pos hall, List.dropWhile_append_of_pos hall]
  simp

/-- How a line that is not empty is read: it has the indent, or the lines end in front of it. -/
theorem linesFrom_eq_ok_iff (hfirst : ∀ tail, text ≠ '\n' :: tail) :
    linesFrom indent seen text = .ok (lines, rest) ↔
      ¬ indent <+: text ∧ lines = seen.reverse ∧ rest = text ∨
      ∃ content after, text = indent ++ (content ++ '\n' :: after) ∧ '\n' ∉ content ∧
        linesFrom indent (.text content :: seen) after = .ok (lines, rest) := by
  rw [linesFrom.eq_2 _ _ _ hfirst]
  constructor
  · intro h
    split at h
    -- The lines end here, or one more line is cut at its line feed.
    · next hnone =>
      cases h
      exact .inl ⟨isPrefixOf?_eq_none.mp hnone, rfl, rfl⟩
    · next line hline =>
      split at h
      · cases h
      · next c after hafter =>
        cases h' : c == '\n' with
        | false =>
          -- Where a line is cut there is a line feed, so the other case is empty.
          have hhead := List.head?_dropWhile_not (· != '\n') line
          simp [hafter, beq_eq_false_iff_ne.mp h'] at hhead
        | true =>
          have hwhole := List.takeWhile_append_dropWhile (p := (· != '\n')) (l := line)
          rw [hafter, eq_of_beq h'] at hwhole
          refine .inr ⟨_, after, ?_, ?_, h⟩
          · rw [hwhole]
            exact (List.isPrefixOf?_eq_some_iff_append_eq.mp hline).symm
          · intro hmem
            simpa using List.mem_takeWhile_imp hmem
  · rintro (⟨hnone, rfl, rfl⟩ | ⟨content, after, htext, hcontent, h⟩)
    · split
      · rfl
      · next line hline =>
        exact absurd ⟨line, List.isPrefixOf?_eq_some_iff_append_eq.mp hline⟩ hnone
    · obtain ⟨htake, hdrop⟩ := takeWhile_line hcontent after
      split
      · next hnone => exact absurd ⟨_, htext.symm⟩ (isPrefixOf?_eq_none.mp hnone)
      · next line hline =>
        have heq := (List.isPrefixOf?_eq_some_iff_append_eq.mp hline).trans htext
        obtain rfl := List.append_cancel_left heq
        split
        · next hnil =>
          rw [hdrop] at hnil
          cases hnil
        · next hcons =>
          rw [hdrop] at hcons
          cases hcons
          rw [htake]
          exact h

/-- The lines of a block leave an end of their text. -/
theorem linesFrom_suffix (h : linesFrom indent seen text = .ok (lines, rest)) : rest <:+ text := by
  fun_induction linesFrom indent seen text with
  | case1 seen text ih => exact (ih h).trans (List.suffix_cons ..)
  | case2 seen text _ _ =>
    cases h
    exact List.suffix_refl _
  | case3 seen text _ line _ _ => cases h
  | case4 seen text _ line hindent c after hafter ih =>
    have hline : c :: after <:+ line := hafter ▸ List.dropWhile_suffix _
    have htext : line <:+ text := ⟨indent, List.isPrefixOf?_eq_some_iff_append_eq.mp hindent⟩
    exact (ih h).trans (((List.suffix_cons ..).trans hline).trans htext)

/-- The lines of a block in front of a rest that is not empty. -/
theorem linesFrom_of_append (hrest : rest ≠ [])
    (h : linesFrom indent seen (text ++ more) = .ok (lines, rest ++ more)) :
    linesFrom indent seen text = .ok (lines, rest) := by
  -- Each line takes a line feed at least, so the induction is on the length of the text.
  induction hn : text.length using Nat.strongRecOn generalizing seen text with
  | ind n ih =>
    cases text with
    | nil => exact absurd (eq_nil_of_append_suffix (linesFrom_suffix h)) hrest
    | cons c text =>
      by_cases hc : c = '\n'
      · subst hc
        rw [List.cons_append, linesFrom.eq_1] at h
        rw [linesFrom.eq_1]
        exact ih text.length (by simp [← hn]) h rfl
      · have hfirst : ∀ tail, c :: text ≠ '\n' :: tail := by simp [hc]
        have hfirst' : ∀ tail, c :: text ++ more ≠ '\n' :: tail := by simp [hc]
        rw [linesFrom_eq_ok_iff hfirst]
        obtain ⟨hindent, hlines, heq⟩ | ⟨content, after, heq, hcontent, hafter⟩ :=
          (linesFrom_eq_ok_iff hfirst').mp h
        · refine .inl ⟨?_, hlines, List.append_cancel_right heq⟩
          exact fun hshort => hindent (hshort.trans (List.prefix_append ..))
        · -- The line ends in front of the rest.
          obtain ⟨after, rfl⟩ := exists_append_of_suffix (linesFrom_suffix hafter)
          simp only [← List.append_assoc, ← List.cons_append] at heq
          have htext := List.append_cancel_right heq
          have hshorter : after.length < n := by
            have hlength := congrArg List.length htext
            simp only [List.length_append, List.length_cons] at hlength hn
            omega
          exact .inr
            ⟨content, after, by simpa using htext, hcontent, ih after.length hshorter hafter rfl⟩

/-- How a block is scanned: its indent, its lines, and the bars that close it. -/
theorem scan_eq_ok_iff : scan text = .ok (layout, rest) ↔
    indentOf text = layout.indent ∧ layout.indent ≠ [] ∧
      ∃ after, linesFrom layout.indent [] text = .ok (layout.lines, after) ∧
        after.takeWhile isClosingIndent = layout.closingIndent ∧
        after.dropWhile isClosingIndent = BlockLayout.closing ++ rest := by
  obtain ⟨indent, lines, closingIndent⟩ := layout
  unfold scan
  simp only [bind, Except.bind, pure, Except.pure, throw, throwThe, MonadExceptOf.throw]
  constructor
  · intro h
    split at h
    · cases h
    -- The steps are those of the scanner: an indent, the lines behind it, and the closing bars.
    · next hindent =>
      split at h
      · cases h
      · next pair hlines =>
        obtain ⟨found, after⟩ := pair
        simp only at h
        split at h
        · cases h
        · next tail hclosing =>
          cases h
          exact ⟨rfl, hindent, after, hlines, rfl,
            (List.isPrefixOf?_eq_some_iff_append_eq.mp hclosing).symm⟩
  · rintro ⟨rfl, hindent, after, hlines, rfl, hclosing⟩
    rw [if_neg hindent, hlines]
    simp only [List.isPrefixOf?_eq_some_iff_append_eq.mpr hclosing.symm]

/-- A bar separates an indent from what follows. -/
theorem indentOf_append (h : '|' ∈ text) : indentOf (text ++ more) = indentOf text := by
  unfold indentOf
  rw [dropWhile_append_of_mem h (by decide)]
  exact takeWhile_of_append (dropWhile_append_of_mem (mem_dropWhile h (by decide)) (by decide))

/-- A text block that leaves `more` alone is scanned in the same way without it. -/
theorem scan_of_append (h : scan (text ++ more) = .ok (layout, rest ++ more)) :
    scan text = .ok (layout, rest) := by
  obtain ⟨hindent, hne, after, hlines, hclosing, hbars⟩ := scan_eq_ok_iff.mp h
  rw [← List.append_assoc] at hbars
  obtain ⟨after, rfl⟩ : ∃ left, after = left ++ more :=
    exists_append_of_suffix (hbars ▸ List.dropWhile_suffix isClosingIndent)
  have hafter := dropWhile_of_append hbars
  -- The bar that closes the block stands in the text, so the lines stop in front of it.
  have hbar : '|' ∈ after := by
    have hsuffix : BlockLayout.closing ++ rest <:+ after := hafter ▸ List.dropWhile_suffix _
    exact hsuffix.subset (by simp [BlockLayout.closing])
  have hlines' := linesFrom_of_append (List.ne_nil_of_mem hbar) hlines
  rw [indentOf_append ((linesFrom_suffix hlines').subset hbar)] at hindent
  rw [takeWhile_of_append hbars] at hclosing
  exact scan_eq_ok_iff.mpr ⟨hindent, hne, after, hlines', hclosing, hafter⟩

end Block

/-! ## Operators -/

namespace SymbolRun

variable {c : Char} {seen text more op rest : List Char}

/-- No operator runs through the text into what follows, or is stopped by what follows: the text
    holds a character that is no symbol, or it ends with a dollar sign. -/
def Closes (text : List Char) : Prop := (∃ c ∈ text, isSymbol c = false) ∨ text.getLast? = some '$'

/-- Nothing at all closes no operator. -/
theorem Closes.ne_nil (h : Closes text) : text ≠ [] := by
  rintro rfl
  simp [Closes] at h

/-- What stands in front of a text that closes operators does not change that. -/
theorem Closes.append_left (h : Closes text) (front : List Char) : Closes (front ++ text) := by
  obtain ⟨c, hc, hsymbol⟩ | hlast := h
  · exact .inl ⟨c, List.mem_append_right _ hc, hsymbol⟩
  · refine .inr ?_
    rw [List.getLast?_append, hlast]
    rfl

/-- Behind a symbol, the text still closes operators, unless the symbol is its end. -/
theorem Closes.tail (h : Closes (c :: text)) (hc : isSymbol c = true) :
    text = [] ∨ Closes text := by
  obtain ⟨d, hd, hsymbol⟩ | hlast := h
  · obtain rfl | hd := List.mem_cons.mp hd
    · simp [hc] at hsymbol
    · exact .inr (.inl ⟨d, hd, hsymbol⟩)
  · cases text with
    | nil => exact .inl rfl
    | cons d text => exact .inr (.inr (by simpa using hlast))

/-- What opens a comment or a text block. -/
def openers : List (List Char) := [['/', '/'], ['/', '*'], ['#'], ['|', '|', '|']]

/-- Symbols open something else than an operator if they start with an opener. -/
theorem opensOther_iff : opensOther text = true ↔ ∃ opener ∈ openers, opener <+: text := by
  unfold opensOther
  split <;> simp_all [openers, List.cons_prefix_iff]

/-- Such a text is no part of an opener. -/
theorem Closes.not_isPrefix (h : Closes text) {opener : List Char} (hopener : opener ∈ openers) :
    ¬ text <+: opener := by
  intro hstarts
  -- Openers consist of symbols other than the dollar sign, which such a text has in the end.
  have hsymbols : ∀ c ∈ text, isSymbol c = true ∧ c ≠ '$' := by
    have hall :
        openers.all (fun opener => opener.all fun c => isSymbol c && c != '$') = true := by decide
    simp only [List.all_eq_true, Bool.and_eq_true, bne_iff_ne] at hall
    exact fun c hc => hall opener hopener c (hstarts.subset hc)
  obtain ⟨c, hc, hsymbol⟩ | hlast := h
  · simp [(hsymbols c hc).1] at hsymbol
  · exact (hsymbols '$' (List.mem_of_getLast? hlast)).2 rfl

/-- What follows does not make a comment or a text block of the end of such a text. -/
theorem opensOther_append (h : Closes text) (more : List Char) :
    opensOther (text ++ more) = opensOther text := by
  rw [Bool.eq_iff_iff, opensOther_iff, opensOther_iff]
  constructor
  · rintro ⟨opener, hopener, hstarts⟩
    refine ⟨opener, hopener, ?_⟩
    -- Of the text and an opener, the one is a front of the other; it must be the opener.
    exact (List.prefix_or_prefix_of_prefix hstarts (List.prefix_append text more)).resolve_right
      (h.not_isPrefix hopener)
  · rintro ⟨opener, hopener, hstarts⟩
    exact ⟨opener, hopener, hstarts.trans (List.prefix_append ..)⟩

/-- A run keeps the symbols that were seen before. -/
theorem suffix_reverseRun (seen text : List Char) : seen <:+ reverseRun seen text := by
  fun_induction reverseRun seen text with
  | case1 seen => exact List.suffix_refl _
  | case2 seen c text _ ih => exact (List.suffix_cons ..).trans ih
  | case3 seen c text _ => exact List.suffix_refl _

/-- A run of symbols ends inside such a text, or goes on only behind the dollar sign at its end. -/
theorem reverseRun_append (h : Closes text) (seen more : List Char) :
    reverseRun seen (text ++ more) = reverseRun seen text ∨
      reverseRun seen text = text.reverse ++ seen ∧
        ∃ extra, reverseRun seen (text ++ more) = extra ++ (text.reverse ++ seen) := by
  -- The induction is on the text; a symbol that is taken leaves a text that still closes operators.
  induction text generalizing seen with
  | nil => exact absurd rfl h.ne_nil
  | cons c text ih =>
    have hopens := opensOther_append h more
    rw [List.cons_append] at hopens ⊢
    rw [reverseRun, reverseRun, hopens]
    split
    · next hc =>
      rw [Bool.and_eq_true] at hc
      obtain rfl | hclosed := h.tail hc.1
      · obtain ⟨extra, hextra⟩ := suffix_reverseRun (c :: seen) more
        exact .inr ⟨rfl, extra, hextra.symm⟩
      · simpa using ih hclosed (c :: seen)
    · exact .inl rfl

/-- Behind its first character, an operator takes the same whatever follows such a text. -/
theorem tail_append (h : Closes text) (hle : (tail (text ++ more)).length ≤ text.length) :
    tail (text ++ more) = tail text := by
  unfold tail at hle ⊢
  obtain heq | ⟨hwhole, extra, hextra⟩ := reverseRun_append h [] more
  · rw [heq]
  · rw [List.append_nil] at hwhole hextra
    rw [hextra, List.dropWhile_append] at hle ⊢
    rw [hwhole]
    split at hle
    · next hempty => rw [if_pos hempty]
    · -- A symbol of the extra run is kept, so all of the text would be taken.
      next hkept =>
      rw [List.isEmpty_iff, ← List.length_eq_zero_iff] at hkept
      rw [List.length_reverse, List.length_append, List.length_reverse] at hle
      omega

/-- An operator that leaves a text which closes operators is scanned in the same way without
`more`. -/
theorem scan_of_append (hrest : Closes rest) (h : scan c (text ++ more) = (op, rest ++ more)) :
    scan c text = (op, rest) := by
  obtain ⟨rfl, -⟩ := Prod.mk.inj h
  have hwhole := scan_eq_append c (text ++ more)
  rw [h, List.cons_append, ← List.append_assoc] at hwhole
  -- What the operator takes and `rest` make up the text, so the text closes operators as well.
  have htext : tail (text ++ more) ++ rest = text :=
    List.append_cancel_right (List.cons.inj hwhole).2
  have hclosed : Closes text := htext ▸ hrest.append_left _
  have hle : (tail (text ++ more)).length ≤ text.length := by
    have hlength := congrArg List.length htext
    rw [List.length_append] at hlength
    omega
  have hdrop := congrArg (List.drop (tail (text ++ more)).length) htext
  rw [List.drop_left] at hdrop
  rw [scan, ← tail_append hclosed hle, ← hdrop]

end SymbolRun

/-! ## Pieces -/

namespace Piece

variable {c : Char} {text more rest : List Char} {piece : Piece}

/-- The piece is an operator. -/
def IsOperator (piece : Piece) : Prop :=
  ∃ content block, piece = .lexeme content block ∧ content.kind = .operator

/-- What is cut off as an operator is one. -/
theorem isOperator_ofLexeme (taken : List Char) : (ofLexeme .operator taken).IsOperator :=
  ⟨_, _, rfl, rfl⟩

/-- A piece that leaves `rest ++ more` is the front of the text in front of `more`. -/
theorem Splits.text_eq (h : Splits c (text ++ more) (piece, rest ++ more)) :
    ∃ taken, piece.text.toList = c :: taken ∧ text = taken ++ rest := by
  obtain ⟨taken, hpiece, htaken⟩ := h
  rw [← List.append_assoc] at htaken
  exact ⟨taken, hpiece, (List.append_cancel_right htaken).symm⟩

/-- An operator with an exclamation mark that leaves `more` alone is the same without it. -/
theorem firstNegation_of_append (h : firstNegation (text ++ more) = (piece, rest ++ more)) :
    firstNegation text = (piece, rest) := by
  -- The mark stands alone, or with an equals sign that is part of the piece.
  have hsplits := firstNegation_splits (text ++ more)
  rw [h] at hsplits
  obtain ⟨taken, hpiece, rfl⟩ := hsplits.text_eq
  unfold firstNegation at h
  split at h
  · obtain ⟨rfl, hrest⟩ := Prod.mk.inj h
    rw [toList_text_ofLexeme (by simp)] at hpiece
    cases hpiece
    rfl
  · next hequals =>
    obtain ⟨rfl, hrest⟩ := Prod.mk.inj h
    rw [toList_text_ofLexeme (by simp)] at hpiece
    cases hpiece
    exact firstNegation.eq_2 _ fun tail heq => hequals (tail ++ more) (by simp_all)

/-- A number that leaves `more` alone is the same piece without it. -/
theorem firstNumber_of_append (h : firstNumber c (text ++ more) = .ok (piece, rest ++ more)) :
    firstNumber c text = .ok (piece, rest) := by
  unfold firstNumber at h ⊢
  split at h
  · cases h
  · next taken after hscan =>
    obtain ⟨rfl, rfl⟩ := Prod.mk.inj (Except.ok.inj h)
    rw [Numeral.scan_of_append hscan]

/-- A string that leaves `more` alone is the same piece without it. -/
theorem firstQuoted_of_append {form : StringForm}
    (h : firstQuoted form c (text ++ more) = .ok (piece, rest ++ more)) :
    firstQuoted form c text = .ok (piece, rest) := by
  unfold firstQuoted at h ⊢
  split at h
  · cases h
  · next content after hscan =>
    obtain ⟨rfl, rfl⟩ := Prod.mk.inj (Except.ok.inj h)
    rw [Quoted.scan_of_append hscan]

/-- A block comment that leaves `more` alone is the same piece without it. -/
theorem firstBlockComment_of_append
    (h : firstBlockComment (text ++ more) = .ok (piece, rest ++ more)) :
    firstBlockComment text = .ok (piece, rest) := by
  unfold firstBlockComment at h ⊢
  split at h
  · cases h
  · next body after hscan =>
    obtain ⟨rfl, rfl⟩ := Prod.mk.inj (Except.ok.inj h)
    rw [Comment.scanBlock_of_append hscan]

/-- A text block that leaves `more` alone is the same piece without it. -/
theorem firstBlock_of_append (h : firstBlock (text ++ more) = .ok (piece, rest ++ more)) :
    firstBlock text = .ok (piece, rest) := by
  unfold firstBlock at h ⊢
  split at h
  · cases h
  · next layout after hscan =>
    obtain ⟨rfl, rfl⟩ := Prod.mk.inj (Except.ok.inj h)
    rw [Block.scan_of_append hscan]

/-- A block comment starts with its opening. -/
theorem text_of_firstBlockComment {cut : Piece × List Char} (h : firstBlockComment text = .ok cut) :
    ['/', '*'] <+: cut.1.text.toList := by
  unfold firstBlockComment at h
  split at h
  · cases h
  · cases h
    rw [toList_text_ofFodder]
    exact ⟨_, rfl⟩

/-- A text block starts with its opening. -/
theorem text_of_firstBlock {cut : Piece × List Char} (h : firstBlock text = .ok cut) :
    BlockLayout.opening <+: cut.1.text.toList := by
  unfold firstBlock at h
  split at h
  · cases h
  · cases h
    rw [toList_text_ofBlock, BlockLayout.verbatim, List.append_assoc, List.append_assoc]
    exact List.prefix_append ..

/-- Runs of symbols that stop in front of `rest ++ more` stop in front of `rest` alone. -/
def RunStops (c : Char) (text rest more : List Char) : Prop :=
  ∀ op, SymbolRun.scan c (text ++ more) = (op, rest ++ more) → SymbolRun.scan c text = (op, rest)

/-- What starts with a symbol and leaves `more` alone is the same piece without it, as far as runs
of symbols are. -/
theorem firstSymbolic_of_append (h : firstSymbolic c (text ++ more) = .ok (piece, rest ++ more))
    (hrun : piece.IsOperator → RunStops c text rest more) :
    firstSymbolic c text = .ok (piece, rest) := by
  obtain ⟨taken, hpiece, htext⟩ := (firstSymbolic_splits h).text_eq
  unfold firstSymbolic at h
  -- What opens a comment or a block is part of the piece, so it stands in front of `more`.
  split at h
  · next tail heq =>
    obtain ⟨rfl, hafter⟩ := Prod.mk.inj (Except.ok.inj h)
    rw [toList_text_ofFodder] at hpiece
    cases hpiece
    obtain ⟨body, rfl⟩ : ∃ body, text = '/' :: body := ⟨_, htext⟩
    obtain rfl : body ++ more = tail := (List.cons.inj heq).2
    rw [firstSymbolic.eq_1, Comment.scanLine_of_append hafter]
  · obtain ⟨rfl, hafter⟩ := Prod.mk.inj (Except.ok.inj h)
    rw [firstSymbolic.eq_2, Comment.scanLine_of_append hafter]
  · next tail heq =>
    obtain ⟨body, hbody⟩ := text_of_firstBlockComment h
    cases hbody.trans hpiece
    obtain ⟨inner, rfl⟩ : ∃ inner, text = '*' :: inner := ⟨_, htext⟩
    obtain rfl : inner ++ more = tail := (List.cons.inj heq).2
    rw [firstSymbolic.eq_3, firstBlockComment_of_append h]
  · next tail heq =>
    obtain ⟨body, hbody⟩ := text_of_firstBlock h
    cases hbody.trans hpiece
    obtain ⟨inner, rfl⟩ : ∃ inner, text = '|' :: '|' :: '\n' :: inner := ⟨_, htext⟩
    obtain rfl : inner ++ more = tail := by simpa using heq
    rw [firstSymbolic.eq_4, firstBlock_of_append h]
  · next hhash hline hblock hbars =>
    obtain ⟨rfl, hafter⟩ := Prod.mk.inj (Except.ok.inj h)
    have hscan := hrun (isOperator_ofLexeme _) _ (Prod.ext rfl hafter)
    rw [firstSymbolic.eq_5, hscan]
    · exact hhash
    · exact fun tail hc heq => hline (tail ++ more) hc (by rw [heq]; rfl)
    · exact fun tail hc heq => hblock (tail ++ more) hc (by rw [heq]; rfl)
    · exact fun tail hc heq => hbars (tail ++ more) hc (by rw [heq]; rfl)

/-- A plus sign is an operator or the first character of one. -/
theorem isOperator_of_first_plus {cut : Piece × List Char} (h : first '+' text = .ok cut) :
    cut.1.IsOperator := by
  have hfirst : first '+' text =
      if standsAlone '+' text then .ok (ofLexeme .operator ['+'], text) else
        firstSymbolic '+' text := rfl
  rw [hfirst] at h
  split at h
  · cases h
    exact isOperator_ofLexeme _
  · rw [firstSymbolic.eq_5 _ _ (by decide) (by simp) (by simp) (by simp)] at h
    cases h
    exact isOperator_ofLexeme _

/-- What follows a text does not decide whether a character stands alone in front of it, unless the
    text ends there. -/
theorem standsAlone_of_append (h : first c (text ++ more) = .ok (piece, rest ++ more))
    (hrest : piece.IsOperator → SymbolRun.Closes rest) :
    standsAlone c (text ++ more) = standsAlone c text := by
  unfold standsAlone
  cases text with
  | cons d text => rfl
  | nil =>
    -- Only a plus sign is decided by what follows, and only if the text ends behind it.
    by_cases hc : c = '+'
    · subst hc
      obtain ⟨taken, -, hnil⟩ := (first_splits h).text_eq
      obtain ⟨-, rfl⟩ := List.append_eq_nil_iff.mp hnil.symm
      exact absurd rfl (hrest (isOperator_of_first_plus h)).ne_nil
    · simp [beq_eq_false_iff_ne.mpr hc]

/-- The first piece of a text is also that of a shorter text that it is part of, as far as the
    scanners of operators agree. -/
theorem first_of_append_of_run (h : first c (text ++ more) = .ok (piece, rest ++ more))
    (halone : standsAlone c (text ++ more) = standsAlone c text)
    (hrun : piece.IsOperator → RunStops c text rest more) : first c text = .ok (piece, rest) := by
  unfold first at h ⊢
  rw [halone] at h
  -- One case for each scanner, in the order of `first`.
  by_cases hblank : isBlank c
  · rw [if_pos hblank] at h ⊢
    obtain ⟨rfl, hafter⟩ := Prod.mk.inj (Except.ok.inj h)
    rw [takeWhile_of_append hafter, dropWhile_of_append hafter]
  rw [if_neg hblank] at h ⊢
  cases hmark : Punct.ofChar? c with
  | some mark =>
    simp only [hmark] at h ⊢
    obtain ⟨rfl, hafter⟩ := Prod.mk.inj (Except.ok.inj h)
    rw [List.append_cancel_right hafter]
  | none =>
    simp only [hmark] at h ⊢
    by_cases hnegation : c == '!'
    · rw [if_pos hnegation] at h ⊢
      rw [firstNegation_of_append (Except.ok.inj h)]
    rw [if_neg hnegation] at h ⊢
    by_cases hsingle : standsAlone c text
    · rw [if_pos hsingle] at h ⊢
      obtain ⟨rfl, hafter⟩ := Prod.mk.inj (Except.ok.inj h)
      rw [List.append_cancel_right hafter]
    rw [if_neg hsingle] at h ⊢
    by_cases hdigit : c.isDigit
    · rw [if_pos hdigit] at h ⊢
      exact firstNumber_of_append h
    rw [if_neg hdigit] at h ⊢
    by_cases hdouble : c == doubleQuote
    · rw [if_pos hdouble] at h ⊢
      exact firstQuoted_of_append h
    rw [if_neg hdouble] at h ⊢
    by_cases hsingle : c == singleQuote
    · rw [if_pos hsingle] at h ⊢
      exact firstQuoted_of_append h
    rw [if_neg hsingle] at h ⊢
    by_cases hword : isWordStart c
    · rw [if_pos hword] at h ⊢
      obtain ⟨rfl, hafter⟩ := Prod.mk.inj (Except.ok.inj h)
      rw [takeWhile_of_append hafter, dropWhile_of_append hafter]
    rw [if_neg hword] at h ⊢
    by_cases hsymbol : SymbolRun.isSymbol c
    · rw [if_pos hsymbol] at h ⊢
      exact firstSymbolic_of_append h hrun
    · rw [if_neg hsymbol] at h
      cases h

/-- The first piece of a text is also that of a shorter text that it is part of, as long as an
    operator is closed by what follows it there. -/
theorem first_of_append (h : first c (text ++ more) = .ok (piece, rest ++ more))
    (hrest : piece.IsOperator → SymbolRun.Closes rest) : first c text = .ok (piece, rest) :=
  first_of_append_of_run h (standsAlone_of_append h hrest) fun hoperator _ hscan =>
    SymbolRun.scan_of_append (hrest hoperator) hscan

/-! ## What closes an operator -/

/-- No symbol starts a number, a string or a word. -/
theorem isSymbol_eq_false (h : c.isDigit ∨ c == doubleQuote ∨ c == singleQuote ∨ isWordStart c) :
    SymbolRun.isSymbol c = false := by
  rw [Bool.eq_false_iff]
  intro hsymbol
  have hall : ['!', '$', ':', '~', '+', '-', '&', '|', '^', '=', '<', '>', '*', '/', '%', '#'].all
      (fun d => !(d.isDigit || d == doubleQuote || d == singleQuote || isWordStart d)) =
        true := by decide
  have hother := List.all_eq_true.mp hall c (List.contains_iff_mem.mp hsymbol)
  obtain hdigit | hdouble | hsingle | hword := h
  · simp [hdigit] at hother
  · simp [hdouble] at hother
  · simp [hsingle] at hother
  · simp [hword] at hother

/-- A mark closes operators: it is no symbol, or it is the dollar sign. -/
theorem closes_of_mark {mark : Punct} (h : Punct.ofChar? c = some mark) : SymbolRun.Closes [c] := by
  have hc := List.find?_some h
  rw [beq_iff_eq] at hc
  -- Each mark is a character that is no symbol, except for the dollar sign, which ends the text.
  subst hc
  cases mark <;> simp [SymbolRun.Closes, SymbolRun.isSymbol, Punct.char]

/-- Of what starts with a symbol, only a text block is a lexeme that is no operator, and it closes
operators. -/
theorem closes_of_firstSymbolic (h : firstSymbolic c text = .ok (piece, rest)) {content : Lexeme}
    {block : Option TextBlock} (hpiece : piece = .lexeme content block)
    (hkind : content.kind ≠ .operator) :
    SymbolRun.Closes piece.text.toList := by
  unfold firstSymbolic at h
  split at h
  · cases h
    cases hpiece
  · cases h
    cases hpiece
  · unfold firstBlockComment at h
    split at h
    · cases h
    · cases h
      cases hpiece
  · -- The opening of a text block ends its line.
    have hfeed : '\n' ∈ piece.text.toList :=
      (text_of_firstBlock h).subset (by simp [BlockLayout.opening])
    exact .inl ⟨'\n', hfeed, by decide⟩
  · cases h
    cases hpiece
    exact absurd rfl hkind

/-- A lexeme that is no operator closes the operators in front of it. -/
theorem closes_of_first (h : first c text = .ok (piece, rest)) {content : Lexeme}
    {block : Option TextBlock} (hpiece : piece = .lexeme content block)
    (hkind : content.kind ≠ .operator) :
    SymbolRun.Closes piece.text.toList := by
  -- A first character that is no symbol is enough.
  have hstart : SymbolRun.isSymbol c = false → SymbolRun.Closes piece.text.toList := by
    intro hsymbol
    obtain ⟨taken, htext, -⟩ := first_splits h
    rw [htext]
    exact .inl ⟨c, List.mem_cons_self .., hsymbol⟩
  unfold first at h
  split at h
  · cases h
    cases hpiece
  split at h
  · next mark hmark =>
    cases h
    rw [toList_text_ofLexeme (by simp)]
    exact closes_of_mark hmark
  split at h
  · unfold firstNegation at h
    split at h <;> cases h <;> cases hpiece <;> exact absurd rfl hkind
  split at h
  · cases h
    cases hpiece
    exact absurd rfl hkind
  split at h
  · next hdigit => exact hstart (isSymbol_eq_false (.inl hdigit))
  split at h
  · next hquote => exact hstart (isSymbol_eq_false (.inr (.inl hquote)))
  split at h
  · next hquote => exact hstart (isSymbol_eq_false (.inr (.inr (.inl hquote))))
  split at h
  · next hword => exact hstart (isSymbol_eq_false (.inr (.inr (.inr hword))))
  split at h
  · exact closes_of_firstSymbolic h hpiece hkind
  · cases h

end Piece

end JsonnetSyntax
