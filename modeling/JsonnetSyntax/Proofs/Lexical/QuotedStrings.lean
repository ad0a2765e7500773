import JsonnetSyntax.Proofs.Lexical.NextLexeme

/-!
# Which texts are quoted strings

`Quoted.Closed` describes what may stand between two quotes without the scanner: characters other
than the quote, and backslashes that each take the next character with them.  Behind a quote, the
scanner finds a string exactly where such a text stands in front of a second quote, and there is at
most one such text.

## Key results

- `Quoted.scanFrom_of_closed`: a closed text is read up to the quote behind it
- `Quoted.exists_closed_of_scanFrom`: what is read is closed
- `Quoted.scan_eq_some_iff`: the strings that the scanner finds
- `lex_quotedString`: how lexing goes on at a quote
-/

namespace JsonnetSyntax

namespace Quoted

/-- What can stand between two quotes.  A backslash takes the character behind it with it, whatever
    it is; no other character is the quote, and no backslash is the last character. -/
inductive Closed (quote : Char) : List Char → Prop
  | nil : Closed quote []
  | escaped (c : Char) {text : List Char} (h : Closed quote text) :
    Closed quote ('\x5c' :: c :: text)
  | plain {c : Char} {text : List Char} (hquote : c ≠ quote) (hescape : c ≠ '\x5c')
      (h : Closed quote text) : Closed quote (c :: text)

variable {quote : Char} {seen text content rest : List Char}

/-- A character that is no backslash is read alone. -/
theorem scanFrom_cons_plain {c : Char} (hescape : c ≠ '\x5c') :
    scanFrom quote seen (c :: text) =
      if c = quote then some (seen.reverse, text) else scanFrom quote (c :: seen) text :=
  scanFrom.eq_3 _ _ _ _ fun _ _ hc _ => hescape hc

/-- A closed text is read up to the quote behind it. -/
theorem scanFrom_of_closed (hquote : quote ≠ '\x5c') (h : Closed quote content)
    (seen rest : List Char) :
    scanFrom quote seen (content ++ quote :: rest) = some (seen.reverse ++ content, rest) := by
  -- By induction on how the content is closed: an escaped character is skipped with its backslash.
  induction h generalizing seen with
  | nil => rw [List.nil_append, scanFrom_cons_plain hquote, if_pos rfl, List.append_nil]
  | escaped c _ ih =>
    rw [List.cons_append, List.cons_append, scanFrom.eq_2, ih]
    simp
  | plain hne hescape _ ih =>
    rw [List.cons_append, scanFrom_cons_plain hescape, if_neg hne, ih]
    simp

/-- What is read in front of a quote is closed. -/
theorem exists_closed_of_scanFrom (h : scanFrom quote seen text = some (content, rest)) :
    ∃ own, content = seen.reverse ++ own ∧ Closed quote own ∧ text = own ++ quote :: rest := by
  -- By the cases of the scanner.
  fun_induction scanFrom quote seen text with
  | case1 => cases h
  | case2 seen c text ih =>
    obtain ⟨own, rfl, hown, rfl⟩ := ih h
    exact ⟨'\x5c' :: c :: own, by simp, .escaped c hown, rfl⟩
  | case3 seen text =>
    cases h
    exact ⟨[], by simp, .nil, rfl⟩
  | case4 seen c text hplain hne ih =>
    obtain ⟨own, rfl, hown, rfl⟩ := ih h
    -- A backslash would have taken the next character with it, and here is one.
    have hescape : c ≠ '\x5c' := by
      intro hc
      cases hown with
      | nil => exact hplain _ _ hc rfl
      | escaped => exact hplain _ _ hc rfl
      | plain => exact hplain _ _ hc rfl
    exact ⟨c :: own, by simp, .plain hne hescape hown, rfl⟩

/-- The scanner finds the closed texts that stand in front of a quote. -/
theorem scan_eq_some_iff (hquote : quote ≠ '\x5c') :
    scan quote text = some (content, rest) ↔
      Closed quote content ∧ text = content ++ quote :: rest := by
  constructor
  · intro h
    obtain ⟨own, rfl, hown, rfl⟩ := exists_closed_of_scanFrom h
    exact ⟨hown, rfl⟩
  · rintro ⟨hclosed, rfl⟩
    exact scanFrom_of_closed hquote hclosed [] rest

/-- No string is found where no closed text stands in front of a quote. -/
theorem scan_eq_none_iff (hquote : quote ≠ '\x5c') :
    scan quote text = none ↔
      ∀ content rest, Closed quote content → text ≠ content ++ quote :: rest := by
  constructor
  · intro hnone content rest hclosed htext
    rw [(scan_eq_some_iff hquote).mpr ⟨hclosed, htext⟩] at hnone
    cases hnone
  · intro hopen
    cases hscan : scan quote text with
    | none => rfl
    | some found =>
      obtain ⟨hclosed, htext⟩ := (scan_eq_some_iff hquote).mp hscan
      exact absurd htext (hopen _ _ hclosed)

end Quoted

/-! ## Lexing at a quote -/

/-- No backslash is a quote. -/
theorem StringForm.quote_ne {form : StringForm} {quote : Char} (h : form.quote? = some quote) :
    quote ≠ '\x5c' := by
  cases form with
  | block => cases h
  | _ =>
    cases h
    decide

/-- A quote is read by the scanner for its form. -/
theorem Piece.first_quote {form : StringForm} {quote : Char} (h : form.quote? = some quote)
    (text : List Char) : Piece.first quote text = Piece.firstQuoted form quote text := by
  cases form with
  | double =>
    cases h
    rfl
  | single =>
    cases h
    rfl
  | block => cases h

/-- A closed text between two quotes is cut off as a string. -/
theorem Piece.first_quote_of_closed {form : StringForm} {quote : Char}
    (hform : form.quote? = some quote) {content rest : List Char}
    (h : Quoted.Closed quote content) :
    Piece.first quote (content ++ quote :: rest) =
      .ok (.lexeme ⟨.string form, String.ofList content⟩ none, rest) := by
  rw [first_quote hform, firstQuoted,
    (Quoted.scan_eq_some_iff (StringForm.quote_ne hform)).mpr ⟨h, rfl⟩]
  rfl

/-- A quote without its other is a fault at the quote. -/
theorem Piece.first_quote_of_open {form : StringForm} {quote : Char}
    (hform : form.quote? = some quote) {text : List Char}
    (h : ∀ content rest, Quoted.Closed quote content → text ≠ content ++ quote :: rest) :
    Piece.first quote text = .error ⟨.openString, []⟩ := by
  rw [first_quote hform, firstQuoted, (Quoted.scan_eq_none_iff (StringForm.quote_ne hform)).mpr h]

/-- Where the text that is left starts with a quote, lexing emits the closed text in front of the
    next quote as a string, as it is written, and goes on behind that quote; there is at most one
    such text.  If there is none, lexing fails at the quote.  So a closed text between two quotes is
    lexed as one string. -/
theorem lex_quotedString (file source : String) {form : StringForm} {quote : Char}
    (hform : form.quote? = some quote) :
    (∀ before text, Cuts source.toList before (quote :: text) →
      (∀ content rest, Quoted.Closed quote content → text = content ++ quote :: rest →
        Emits file source before ⟨.string form, String.ofList content⟩ rest) ∧
      (∀ content other rest left, Quoted.Closed quote content → Quoted.Closed quote other →
        text = content ++ quote :: rest → text = other ++ quote :: left →
        content = other ∧ rest = left) ∧
      ((∀ content rest, Quoted.Closed quote content → text ≠ content ++ quote :: rest) →
        FailsBehind file source (Cut.written before) "Unterminated String")) ∧
    (∀ content, Quoted.Closed quote content → ∃ tokens,
      lex file (String.ofList (quote :: content ++ [quote])) = .ok tokens ∧
        tokens.map Token.content =
          [(⟨.string form, String.ofList content⟩, none), (⟨.endOfFile, ""⟩, none)]) := by
  constructor
  · intro before text h
    refine ⟨?_, ?_, ?_⟩
    · rintro content rest hclosed rfl
      exact emits_of_first h (Piece.first_quote_of_closed hform hclosed)
    · intro content other rest left hcontent hother htext htext'
      -- The scanner finds both, and it finds one text only.
      have hscan := (Quoted.scan_eq_some_iff (StringForm.quote_ne hform)).mpr ⟨hcontent, htext⟩
      have hscan' := (Quoted.scan_eq_some_iff (StringForm.quote_ne hform)).mpr ⟨hother, htext'⟩
      cases hscan.symm.trans hscan'
      exact ⟨rfl, rfl⟩
    · intro hopen
      have hfails : FailsBehind file source _ _ :=
        failsBehind_of_first h (Piece.first_quote_of_open hform hopen)
      rwa [List.append_nil] at hfails
  · intro content hclosed
    have hfirst : Piece.first quote (content ++ [quote]) = _ :=
      Piece.first_quote_of_closed hform hclosed
    have hcuts : Cuts (String.ofList (quote :: content ++ [quote])).toList
        [.lexeme ⟨.string form, String.ofList content⟩ none] [] := by
      rw [String.toList_ofList]
      exact .cons hfirst (.nil [])
    refine ⟨_, lex_eq_ok_iff.mpr ⟨_, hcuts, rfl⟩, ?_⟩
    rw [map_content_assemble]
    rfl

/-- A string with an escaped quote, the other quote and an escaped backslash at its end, and one
    that a backslash keeps open. -/
theorem lex_quotedString_sample :
    (∃ before, Cuts "x'\\'\"\\\\'y".toList before ('\x27' :: "\\'\"\\\\'y".toList) ∧
      Emits "sample" "x'\\'\"\\\\'y" before ⟨.string .single, "\\'\"\\\\"⟩ ['y']) ∧
    FailsBehind "sample" "x'\\'" ['x'] "Unterminated String" := by
  have hquote : StringForm.single.quote? = some '\x27' := rfl
  have hword : ∀ text, Piece.first 'x' ('\x27' :: text) = .ok (.ofWord ['x'], '\x27' :: text) :=
    fun _ => rfl
  constructor
  · have hcuts : Cuts "x'\\'\"\\\\'y".toList [.ofWord ['x']] ('\x27' :: "\\'\"\\\\'y".toList) :=
      .cons (hword _) (.nil _)
    obtain ⟨hemits, -⟩ := (lex_quotedString "sample" "x'\\'\"\\\\'y" hquote).1 _ _ hcuts
    refine ⟨_, hcuts, hemits "\\'\"\\\\".toList _ ?_ rfl⟩
    exact .escaped '\x27' (.plain (by decide) (by decide) (.escaped '\x5c' .nil))
  · have hcuts : Cuts "x'\\'".toList [.ofWord ['x']] ('\x27' :: "\\'".toList) :=
      .cons (hword _) (.nil _)
    obtain ⟨-, -, hfails⟩ := (lex_quotedString "sample" "x'\\'" hquote).1 _ _ hcuts
    refine hfails fun content rest hclosed htext => ?_
    have hscan := (Quoted.scan_eq_some_iff (by decide)).mpr ⟨hclosed, htext⟩
    have hnone : Quoted.scan '\x27' "\\'".toList = none := by decide
    cases hnone.symm.trans hscan

end JsonnetSyntax
