import JsonnetSyntax.Proofs.Lexical.Operators

/-!
# The normal form of a token list

What lexing makes of a source has a form that later passes rely on without looking at the source
again.  There is one end mark, behind all other tokens; a layout belongs to text blocks and to
nothing else; words are as long as they can be, and are keywords whenever they are spelled like one;
and the fodder between two tokens is a row of comments and runs of blanks in which no two runs touch
and every comment up to the end of a line stands in front of the line feed that ends it.

All of this is decided where one piece ends and the next one starts, so the lemmas are about the
first piece of a text and the text behind it, and then about neighbours in a row of pieces.

## Key results

- `Piece.cutsFodder_of_first`, `Piece.cutsLexeme_of_first`: what is known of a first piece and of
  the text behind it
- `Piece.isNumber_or_ends`: only numbers are followed by a letter or a digit right behind one
- `exists_cuts_of_token`: the pieces in front of a token, and those behind its fodder
- `isWordIn_of_lex`, `isFodderIn_of_lex`: the words and the fodder of a source
- `lex_normalForm`: the tokens of every source are in normal form
-/

namespace JsonnetSyntax

/-! ## Fodder -/

/-- What a run of blanks or a comment looks like.  The end of a block comment may not overlap its
    start, and it occurs nowhere else behind it. -/
def Fodder.IsNormal (f : Fodder) : Prop :=
  match f.kind with
  | .whitespace => f.data ≠ "" ∧ ∀ c ∈ f.data.toList, c ∈ [' ', '\t', '\r', '\n']
  | .slashComment => ['/', '/'] <+: f.data.toList ∧ '\n' ∉ f.data.toList
  | .hashComment => ['#'] <+: f.data.toList ∧ '\n' ∉ f.data.toList
  | .blockComment => ∃ body, f.data.toList = '/' :: '*' :: body ∧ ['*', '/'] <:+ body ∧
      ∀ front back, body = front ++ ['*', '/'] ++ back → back = []

/-- Whether fodder is a comment that runs up to the end of a line. -/
def Fodder.IsLineComment (f : Fodder) : Prop := f.kind = .slashComment ∨ f.kind = .hashComment

/-- Blanks are spaces, tabs, carriage returns and line feeds. -/
theorem Piece.isBlank_iff {c : Char} : isBlank c = true ↔ c ∈ [' ', '\t', '\r', '\n'] := by
  simp [isBlank, or_assoc]

namespace Comment

/-- A comment up to the end of a line holds no line feed. -/
theorem not_mem_scanLine (text : List Char) : '\n' ∉ (scanLine text).1 := by
  intro hmem
  have hkept := List.mem_takeWhile_imp hmem
  simp at hkept

/-- Behind a comment up to the end of a line, the text ends or goes on with a line feed. -/
theorem head_scanLine {text : List Char} {c : Char} (hc : c ∈ (scanLine text).2.head?) :
    c = '\n' := by
  have hstop := List.head?_dropWhile_not (· != '\n') text
  rw [show text.dropWhile (· != '\n') = (scanLine text).2 from rfl, Option.mem_def.mp hc] at hstop
  simpa using hstop

/-- A block comment ends with the first closing mark, and the text read before it holds none. -/
theorem scanBlockFrom_eq_some {seen text body rest : List Char}
    (h : scanBlockFrom seen text = some (body, rest)) :
    ∃ inner, body = seen.reverse ++ inner ++ ['*', '/'] ∧
      ∀ front back, inner ++ ['*', '/'] = front ++ ['*', '/'] ++ back → back = [] := by
  -- By induction on the scanning; `inner` is what is read in front of the closing mark.
  fun_induction scanBlockFrom seen text with
  | case1 seen => cases h
  | case2 seen text =>
    cases h
    refine ⟨[], by simp, ?_⟩
    intro front back heq
    -- The mark is two characters long, so it occurs in itself only once.
    have hlength := congrArg List.length heq
    simp only [List.nil_append, List.length_append, List.length_cons, List.length_nil] at hlength
    exact List.eq_nil_of_length_eq_zero (by omega)
  | case3 seen c text hend ih =>
    obtain ⟨inner, rfl, hfirst⟩ := ih h
    refine ⟨c :: inner, by simp, ?_⟩
    intro front back heq
    cases front with
    | cons d front =>
      rw [List.cons_append, List.cons_append, List.cons_append] at heq
      exact hfirst front back (List.cons.inj heq).2
    | nil =>
      -- A mark at the front of the text would have ended the comment.
      have htext := scanBlockFrom_eq_append h
      have hopen : c :: text = (c :: inner ++ ['*', '/']) ++ rest := by
        simpa using htext.symm
      rw [heq, List.nil_append] at hopen
      obtain ⟨rfl, rfl⟩ := List.cons.inj hopen
      exact absurd rfl (hend (back ++ rest) rfl)

end Comment

/-! ## Words -/

/-- A word: letters and digits of ASCII and underscores, the first of which is no digit. -/
structure IsWord (text : List Char) : Prop where
  ne_nil : text ≠ []
  chars : ∀ c ∈ text, Piece.isWordChar c = true
  start : ∀ c ∈ text.head?, c.isDigit = false

/-- Whether tokens of the kind are words. -/
def TokenKind.isWord : TokenKind → Bool
  | .identifier | .keyword _ => true
  | _ => false

/-- A word is found among the keywords exactly by its spelling. -/
theorem Keyword.ofSpelling?_eq_some {word : String} {k : Keyword} :
    ofSpelling? word = some k ↔ word = k.spelling := by
  constructor
  · intro h
    have hfound := List.find?_some h
    exact (eq_of_beq hfound).symm
  -- The spellings of the keywords are distinct, so the first one found is the one meant.
  · rintro rfl
    cases k <;> decide

/-- A word is a keyword exactly if it is spelled like it. -/
theorem TokenKind.ofWord_eq_keyword {word : String} {k : Keyword} :
    ofWord word = .keyword k ↔ word = k.spelling := by
  rw [← Keyword.ofSpelling?_eq_some, ofWord]
  split
  · next reserved hreserved => simp [hreserved]
  · next hnone => simp [hnone]

/-- No word is a string. -/
theorem TokenKind.ofWord_ne_string (word : String) (form : StringForm) :
    ofWord word ≠ .string form := by
  unfold ofWord
  split <;> simp

namespace Piece

variable {c : Char} {text rest : List Char}

/-- What can start a word can stand in it. -/
theorem isWordChar_of_isWordStart (h : isWordStart c = true) : isWordChar c = true := by
  simp only [isWordStart, Bool.or_eq_true] at h
  simp only [isWordChar, Char.isAlphanum, Bool.or_eq_true]
  tauto

/-- Letters and digits of ASCII are apart. -/
theorem isDigit_of_isWordStart (h : isWordStart c = true) : c.isDigit = false := by
  rw [← Bool.not_eq_true]
  intro hdigit
  rw [isWordStart] at h
  -- Compared by their codes: the digits come before the letters and before the underscore.
  delta Char.isAlpha Char.isUpper Char.isLower at h
  simp only [Bool.or_eq_true, Bool.and_eq_true, decide_eq_true_eq, beq_iff_eq, ge_iff_le] at h
  simp only [Char.isDigit, Bool.and_eq_true, decide_eq_true_eq] at hdigit
  obtain (⟨hlow, -⟩ | ⟨hlow, -⟩) | rfl := h
  · exact absurd (UInt32.le_trans hlow hdigit.2) (by decide)
  · exact absurd (UInt32.le_trans hlow hdigit.2) (by decide)
  · exact absurd hdigit.2 (by decide)

/-! ## First pieces -/

/-- What is known of fodder that is cut off in front of a text: its own form, and that it stops
    where it has to. -/
structure CutsFodder (f : Fodder) (rest : List Char) : Prop where
  normal : f.IsNormal
  whitespace : f.kind = .whitespace → ∀ d ∈ rest.head?, isBlank d = false
  lineComment : f.IsLineComment → ∀ d ∈ rest.head?, d = '\n'

/-- Fodder at the front of a text has its form and stops where it has to. -/
theorem cutsFodder_of_first {f : Fodder} (h : first c text = .ok (.fodder f, rest)) :
    CutsFodder f rest := by
  have hway := way_first c text
  generalize first c text = cut at h hway
  -- The scanners that make fodder are those for blanks and for the three comments.
  cases hway with
  | blank hc =>
    cases h
    constructor
    · refine ⟨by simp, ?_⟩
      intro d hd
      rw [String.toList_ofList, List.mem_cons] at hd
      obtain rfl | hd := hd
      · exact isBlank_iff.mp hc
      · exact isBlank_iff.mp (List.mem_takeWhile_imp hd)
    · intro _ d hd
      have hstop := List.head?_dropWhile_not isBlank text
      rw [Option.mem_def.mp hd] at hstop
      simpa using hstop
    · simp [Fodder.IsLineComment]
  | slashComment =>
    cases h
    have hline := Comment.not_mem_scanLine
    exact ⟨by simp [Fodder.IsNormal, hline], by simp, fun _ _ hd => Comment.head_scanLine hd⟩
  | hashComment =>
    cases h
    have hline := Comment.not_mem_scanLine
    exact ⟨by simp [Fodder.IsNormal, hline], by simp, fun _ _ hd => Comment.head_scanLine hd⟩
  | blockComment hscan =>
    cases h
    obtain ⟨inner, rfl, honce⟩ := Comment.scanBlockFrom_eq_some hscan
    have hnormal :
        Fodder.IsNormal ⟨.blockComment, String.ofList ('/' :: '*' :: (inner ++ ['*', '/']))⟩ :=
      ⟨inner ++ ['*', '/'], by simp, List.suffix_append .., honce⟩
    exact ⟨hnormal, by simp, by simp [Fodder.IsLineComment]⟩
  | negation =>
    unfold firstNegation at h
    -- The other scanners make lexemes.
    split at h <;> cases h
  | _ => cases h

/-- What is known of a lexeme that is cut off in front of a text: only text blocks have a layout,
    and words are keywords if they are spelled like one and go on as long as they can. -/
structure CutsLexeme (content : Lexeme) (block : Option TextBlock) (rest : List Char) : Prop where
  layout : block.isSome = true ↔ content.kind = .string .block
  word : content.kind.isWord = true →
    IsWord content.data.toList ∧ content.kind = .ofWord content.data ∧
    ∀ d ∈ rest.head?, isWordChar d = false

/-- The word at the front of a text. -/
theorem isWord_cons_takeWhile (h : isWordStart c = true) (text : List Char) :
    IsWord (c :: text.takeWhile isWordChar) where
  ne_nil := List.cons_ne_nil _ _
  chars := by
    intro d hd
    obtain rfl | hd := List.mem_cons.mp hd
    · exact isWordChar_of_isWordStart h
    · exact List.mem_takeWhile_imp hd
  start := by
    intro d hd
    cases hd
    exact isDigit_of_isWordStart h

/-- Behind a word, the text ends or goes on with no letter and no digit. -/
theorem head_dropWhile_isWordChar {d : Char} (hd : d ∈ (text.dropWhile isWordChar).head?) :
    isWordChar d = false := by
  have hstop := List.head?_dropWhile_not isWordChar text
  rw [Option.mem_def.mp hd] at hstop
  simpa using hstop

/-- A lexeme at the front of a text has a layout if it is a block, and is a whole word if it is a
word. -/
theorem cutsLexeme_of_first {content : Lexeme} {block : Option TextBlock}
    (h : first c text = .ok (.lexeme content block, rest)) : CutsLexeme content block rest := by
  have hway := way_first c text
  generalize first c text = cut at h hway
  -- Only words have to stop somewhere, and only blocks have a layout.
  cases hway with
  | word hc =>
    cases h
    constructor
    · simp [TokenKind.ofWord_ne_string]
    · intro _
      rw [String.toList_ofList]
      exact ⟨isWord_cons_takeWhile hc text, rfl, fun d hd => head_dropWhile_isWordChar hd⟩
  | negation =>
    unfold firstNegation at h
    split at h <;> cases h <;> exact ⟨by simp, by simp [TokenKind.isWord]⟩
  | @quoted _ _ _ _ form hform =>
    cases h
    have hblock : form ≠ .block := by
      rintro rfl
      cases hform
    exact ⟨by simp [hblock], by simp [TokenKind.isWord]⟩
  | _ => cases h <;> exact ⟨by simp, by simp [TokenKind.isWord]⟩

/-- Blanks, marks and symbols are no part of words. -/
theorem isWordChar_eq_false
    (h : isBlank c = true ∨ (Punct.ofChar? c).isSome = true ∨ SymbolRun.isSymbol c = true) :
    isWordChar c = false := by
  have hblanks : ∀ d ∈ [' ', '\t', '\r', '\n'], isWordChar d = false :=
    List.forall_iff_forall_mem.mp (by decide)
  have hsymbols :
      ∀ d ∈ ['!', '$', ':', '~', '+', '-', '&', '|', '^', '=', '<', '>', '*', '/', '%', '#'],
      isWordChar d = false := List.forall_iff_forall_mem.mp (by decide)
  obtain hblank | hmark | hsymbol := h
  · exact hblanks c (isBlank_iff.mp hblank)
  · obtain ⟨mark, hmark⟩ := Option.isSome_iff_exists.mp hmark
    rw [Punct.ofChar?] at hmark
    have hchar := List.find?_some hmark
    rw [← eq_of_beq hchar]
    cases mark <;> decide
  · exact hsymbols c (List.contains_iff_mem.mp hsymbol)

/-- Whether the piece is a number. -/
def IsNumber (piece : Piece) : Prop :=
  ∃ content block, piece = .lexeme content block ∧ content.kind = .number

/-- Neither a letter nor a digit stands at the end of the piece. -/
def EndsPlainly (piece : Piece) : Prop := ∀ d ∈ piece.text.toList.getLast?, isWordChar d = false

/-- A piece that holds no letters and digits. -/
theorem EndsPlainly.of_forall {piece : Piece}
    (hall : ∀ d ∈ piece.text.toList, isWordChar d = false) :
    piece.EndsPlainly :=
  fun d hd => hall d (List.mem_of_getLast? hd)

/-- A piece with a closing mark. -/
theorem EndsPlainly.of_concat {piece : Piece} {front : List Char} {last : Char}
    (htext : piece.text.toList = front ++ [last]) (hlast : isWordChar last = false) :
    piece.EndsPlainly := by
  intro d hd
  rw [htext, List.getLast?_concat, Option.mem_some_iff] at hd
  rwa [← hd]

/-- A run of blanks. -/
theorem endsPlainly_blank (hc : isBlank c = true) :
    (ofFodder .whitespace (c :: text.takeWhile isBlank)).EndsPlainly := by
  refine .of_forall fun d hd => ?_
  rw [toList_text_ofFodder, List.mem_cons] at hd
  obtain rfl | hd := hd
  · exact isWordChar_eq_false (.inl hc)
  · exact isWordChar_eq_false (.inl (List.mem_takeWhile_imp hd))

/-- A block comment, which ends with its closing mark. -/
theorem endsPlainly_blockComment (inner : List Char) :
    (ofFodder .blockComment ('/' :: '*' :: ([].reverse ++ inner ++ ['*', '/']))).EndsPlainly := by
  have htext :
      (ofFodder .blockComment ('/' :: '*' :: ([].reverse ++ inner ++ ['*', '/']))).text.toList =
      '/' :: '*' :: inner ++ ['*'] ++ ['/'] := by
    simp [toList_text_ofFodder]
  exact .of_concat htext rfl

/-- An exclamation mark, alone or in front of an equals sign. -/
theorem endsPlainly_negation : (firstNegation text).1.EndsPlainly := by
  unfold firstNegation
  split
  · refine .of_forall ?_
    rw [toList_text_ofLexeme (by simp)]
    exact List.forall_iff_forall_mem.mp (by decide)
  · refine .of_forall ?_
    rw [toList_text_ofLexeme (by simp)]
    exact List.forall_iff_forall_mem.mp (by decide)

/-- An operator of one character that joins no other. -/
theorem endsPlainly_alone (halone : standsAlone c text = true) :
    (ofLexeme .operator [c]).EndsPlainly := by
  refine .of_forall ?_
  rw [toList_text_ofLexeme (by simp)]
  have hsymbols : ∀ d ∈ ['~', '-', '+'], SymbolRun.isSymbol d = true :=
    List.forall_iff_forall_mem.mp (by decide)
  simpa using isWordChar_eq_false (.inr (.inr (hsymbols _ (mem_of_standsAlone halone))))

/-- A run of symbols. -/
theorem endsPlainly_operator (hsymbol : SymbolRun.isSymbol c = true) :
    (ofLexeme .operator (SymbolRun.scan c text).1).EndsPlainly := by
  refine .of_forall ?_
  rw [toList_text_ofLexeme (by simp)]
  intro d hd
  obtain rfl | hd := List.mem_cons.mp hd
  · exact isWordChar_eq_false (.inr (.inr hsymbol))
  · exact isWordChar_eq_false (.inr (.inr ((SymbolRun.clear_tail text).symbols d hd)))

/-- A string in quotes, whose text ends with the closing quote. -/
theorem endsPlainly_quoted {form : StringForm} (hform : form.quote? = some c)
    (content : List Char) :
    (ofLexeme (.string form) content).EndsPlainly := by
  cases form with
  | double =>
    have htext : (ofLexeme (.string .double) content).text.toList =
        doubleQuote :: content ++ [doubleQuote] := by
      simp [ofLexeme, Piece.text, Lexeme.sourceText, doubleQuote]
    exact .of_concat htext rfl
  | single =>
    have htext : (ofLexeme (.string .single) content).text.toList =
        singleQuote :: content ++ [singleQuote] := by
      simp [ofLexeme, Piece.text, Lexeme.sourceText, singleQuote]
    exact .of_concat htext rfl
  | block => cases hform

/-- A text block, whose text ends with the closing bars. -/
theorem endsPlainly_block (layout : BlockLayout) : (ofBlock layout).EndsPlainly := by
  have htext : (ofBlock layout).text.toList = BlockLayout.opening ++
      layout.lines.flatMap (BlockLine.written layout.indent) ++ layout.closingIndent ++
        ['|', '|'] ++ ['|'] := by
    simp [toList_text_ofBlock, BlockLayout.verbatim, BlockLayout.closing]
  exact .of_concat htext rfl

/-- Numbers apart, a piece that ends in a letter or a digit is followed by neither. -/
theorem isNumber_or_ends {piece : Piece} (h : first c text = .ok (piece, rest)) :
    piece.IsNumber ∨ piece.EndsPlainly ∨ ∀ d ∈ rest.head?, isWordChar d = false := by
  -- One case for each scanner; most pieces end with a character that belongs to no word.
  have hway := way_first c text
  generalize first c text = cut at h hway
  cases hway with
  | blank hc =>
    cases h
    exact .inr (.inl (endsPlainly_blank hc))
  -- A comment up to the end of its line, and a word, go on as long as they can.
  | slashComment =>
    cases h
    exact .inr (.inr fun d hd => Comment.head_scanLine hd ▸ rfl)
  | hashComment =>
    cases h
    exact .inr (.inr fun d hd => Comment.head_scanLine hd ▸ rfl)
  | word hc =>
    cases h
    exact .inr (.inr fun d hd => head_dropWhile_isWordChar hd)
  | blockComment hscan =>
    cases h
    obtain ⟨inner, rfl, -⟩ := Comment.scanBlockFrom_eq_some hscan
    exact .inr (.inl (endsPlainly_blockComment inner))
  | mark hmark =>
    cases h
    refine .inr (.inl (.of_forall ?_))
    rw [toList_text_ofLexeme (by simp)]
    simpa using isWordChar_eq_false (.inr (.inl (by simp [hmark])))
  | negation =>
    have hpiece : (firstNegation text).1 = piece := congrArg Prod.fst (Except.ok.inj h)
    exact .inr (.inl (hpiece ▸ endsPlainly_negation))
  | alone halone =>
    cases h
    exact .inr (.inl (endsPlainly_alone halone))
  | operator hsymbol hcomment =>
    cases h
    exact .inr (.inl (endsPlainly_operator hsymbol))
  | number =>
    cases h
    exact .inl ⟨_, _, rfl, rfl⟩
  | @quoted _ _ content _ form hform =>
    cases h
    exact .inr (.inl (endsPlainly_quoted hform content))
  | @block _ _ layout hscan =>
    cases h
    exact .inr (.inl (endsPlainly_block layout))
  | _ => cases h

end Piece

/-! ## Rows of pieces -/

namespace Cuts

variable {text rest : List Char} {pieces front back : List Piece} {piece : Piece}

/-- A piece of a row was cut off in front of the text that the pieces behind it are cut off. -/
theorem exists_first (h : Cuts text (front ++ piece :: back) rest) :
    ∃ c left mid, Cuts text front (c :: left) ∧ Piece.first c left = .ok (piece, mid) ∧
      Cuts mid back rest := by
  obtain ⟨mid, hfront, hback⟩ := h.split
  cases hback with
  | cons hfirst hothers => exact ⟨_, _, _, hfront, hfirst, hothers⟩

/-- Nothing is cut off an empty text. -/
theorem eq_nil_of_nil (h : Cuts [] pieces rest) : pieces = [] := by
  cases h
  rfl

end Cuts

/-- The text of a row of fodder is the texts of its elements, joined. -/
theorem written_map_fodder (fodder : List Fodder) :
    Cut.written (fodder.map .fodder) = (String.join (fodder.map Fodder.data)).toList := by
  simp [Cut.written, Piece.text, List.flatMap_map]

section

variable {file source : String} {before behind : List Token} {t : Token}

/-- The pieces in front of the lexeme of a token, and those behind: the end mark has none. -/
theorem exists_cuts_of_token (h : lex file source = .ok (before ++ t :: behind)) :
    ∃ more, Cuts source.toList (before.flatMap Token.pieces ++ t.fodder.map .fodder ++ more) [] ∧
      (t.kind = .endOfFile ∧ more = [] ∨ ∃ others,
        more = .lexeme t.toLexeme t.block :: others) := by
  obtain ⟨front, eof, htokens, hplain, hend, -⟩ := exists_concat_of_lex h
  have hcuts := cuts_of_lex (htokens ▸ h)
  -- The token is the end mark itself, or it stands in front of it.
  cases behind using List.reverseRecOn with
  | nil =>
    obtain ⟨rfl, heof⟩ := List.append_inj' htokens rfl
    cases heof
    exact ⟨[], by simpa using hcuts, .inl ⟨hend, rfl⟩⟩
  | append_singleton behind last =>
    rw [← List.cons_append, ← List.append_assoc] at htokens
    obtain ⟨rfl, heof⟩ := List.append_inj' htokens rfl
    cases heof
    refine ⟨.lexeme t.toLexeme t.block :: (behind.flatMap Token.pieces ++ eof.fodder.map .fodder),
      ?_, .inr ⟨_, rfl⟩⟩
    simpa [Token.pieces] using hcuts

/-- The word of a token in its source: it goes on as long as it can, and it starts right behind a
    letter or a digit only if a number ends there. -/
structure Token.IsWordIn (t : Token) (before : List Token) (source : String) : Prop where
  word : IsWord t.data.toList
  back : ∃ back,
    source.toList = (reconstruct before ++ t.fodderText).toList ++ t.data.toList ++ back ∧
    ∀ d ∈ back.head?, Piece.isWordChar d = false
  front : ∀ d ∈ (reconstruct before ++ t.fodderText).toList.getLast?, Piece.isWordChar d = true →
    t.fodder = [] ∧ ∃ u ∈ before.getLast?, u.kind = .number
  keyword : ∀ k, t.kind = .keyword k ↔ t.data = k.spelling

/-- The fodder of a token in its source: runs of blanks do not touch, and comments up to the end of
    a line stand in front of a line feed or at the end of the source. -/
structure Token.IsFodderIn (t : Token) (before : List Token) (source : String) : Prop where
  normal : ∀ f ∈ t.fodder, f.IsNormal
  apart : ∀ pre f g post, t.fodder = pre ++ f :: g :: post →
    ¬ (f.kind = .whitespace ∧ g.kind = .whitespace)
  lines : ∀ pre f post, t.fodder = pre ++ f :: post → f.IsLineComment →
    (∃ g others, post = g :: others ∧ g.kind = .whitespace ∧ g.data.toList.head? = some '\n') ∨
    post = [] ∧ source = reconstruct before ++ String.join (t.fodder.map Fodder.data)

/-- Where a run of blanks starts, a blank stands. -/
theorem Piece.isBlank_of_first_whitespace {c : Char} {text rest : List Char} {f : Fodder}
    (h : first c text = .ok (.fodder f, rest)) (hkind : f.kind = .whitespace) :
    isBlank c = true := by
  have hnormal := (cutsFodder_of_first h).normal
  simp only [Fodder.IsNormal, hkind] at hnormal
  obtain ⟨taken, hdata, -⟩ := first_splits h
  rw [isBlank_iff]
  exact hnormal.2 c (by simp [show f.data.toList = c :: taken from hdata])

/-- At a line feed, a run of blanks starts. -/
theorem Piece.first_lineFeed (text : List Char) :
    first '\n' text =
      .ok (ofFodder .whitespace ('\n' :: text.takeWhile isBlank), text.dropWhile isBlank) := rfl

/-- The fodder of every token of a source is in normal form. -/
theorem isFodderIn_of_lex (h : lex file source = .ok (before ++ t :: behind)) :
    t.IsFodderIn before source := by
  obtain ⟨more, hcuts, hmore⟩ := exists_cuts_of_token h
  -- Any element of the fodder was cut off in front of those behind it.
  have hfirst : ∀ pre f post, t.fodder = pre ++ f :: post →
      ∃ c left mid,
        Piece.first c left = .ok (.fodder f, mid) ∧ Cuts mid (post.map .fodder ++ more) [] := by
    intro pre f post hfodder
    have hrow : before.flatMap Token.pieces ++ t.fodder.map .fodder ++ more =
        (before.flatMap Token.pieces ++ pre.map .fodder) ++
          .fodder f :: (post.map .fodder ++ more) := by
      simp [hfodder]
    rw [hrow] at hcuts
    obtain ⟨c, left, mid, -, hcut, hothers⟩ := hcuts.exists_first
    exact ⟨c, left, mid, hcut, hothers⟩
  constructor
  · intro f hf
    obtain ⟨pre, post, hfodder⟩ := List.append_of_mem hf
    obtain ⟨c, left, mid, hcut, -⟩ := hfirst pre f post hfodder
    exact (Piece.cutsFodder_of_first hcut).normal
  -- The second run of blanks would start with a blank, and the first one has taken all of them.
  · rintro pre f g post hfodder ⟨hf, hg⟩
    obtain ⟨c, left, mid, hcut, hothers⟩ := hfirst pre f (g :: post) hfodder
    cases hothers with
    | cons hnext _ =>
      have hstops := (Piece.cutsFodder_of_first hcut).whitespace hf _ rfl
      rw [Piece.isBlank_of_first_whitespace hnext hg] at hstops
      cases hstops
  · intro pre f post hfodder hline
    obtain ⟨c, left, mid, hcut, hothers⟩ := hfirst pre f post hfodder
    cases mid with
    | nil =>
      -- Nothing is left, so the comment ends the source.
      obtain ⟨hpost, hnone⟩ := List.append_eq_nil_iff.mp hothers.eq_nil_of_nil
      rw [List.map_eq_nil_iff] at hpost
      refine .inr ⟨hpost, String.toList_injective ?_⟩
      rw [hcuts.text_eq, hnone]
      simp [written_flatMap_pieces, written_map_fodder]
    | cons d mid =>
      obtain rfl := (Piece.cutsFodder_of_first hcut).lineComment hline d rfl
      generalize hrow : post.map Piece.fodder ++ more = row at hothers
      cases hothers with
      | cons hnext _ =>
        rw [Piece.first_lineFeed] at hnext
        cases hnext
        cases post with
        | cons g others =>
          cases hrow
          exact .inl ⟨_, others, rfl, rfl, by simp⟩
        | nil =>
          -- What stands behind the fodder of the token is no fodder.
          obtain ⟨-, rfl⟩ | ⟨others, rfl⟩ := hmore <;> cases hrow

/-- A word is written as it is. -/
theorem Lexeme.sourceText_of_isWord {content : Lexeme} (h : content.kind.isWord = true)
    (block : Option TextBlock) : content.sourceText block = content.data := by
  unfold sourceText
  split <;> simp_all [TokenKind.isWord]

/-- A row of pieces in front of a text that goes on with letters or digits ends in neither, unless
    its last piece is a number. -/
theorem Cuts.exists_number {text left : List Char} {pieces : List Piece} {c d : Char}
    (h : Cuts text pieces (c :: left)) (hc : Piece.isWordChar c = true)
    (hd : d ∈ (Cut.written pieces).getLast?) (hword : Piece.isWordChar d = true) :
    ∃ init number, pieces = init ++ [number] ∧ number.IsNumber := by
  -- The row ends with its last piece, which was cut off in front of the letter or digit.
  cases pieces using List.reverseRecOn with
  | nil => cases hd
  | append_singleton init last =>
    refine ⟨init, last, rfl, ?_⟩
    obtain ⟨_, _, mid, -, hfirst, hnone⟩ := h.exists_first
    cases hnone
    obtain hnumber | hends | hends := Piece.isNumber_or_ends hfirst
    · exact hnumber
    · -- A piece is not empty, so the row ends in the last character of its last piece.
      obtain ⟨taken, htext, -⟩ := Piece.first_splits hfirst
      rw [Cut.written_append, Cut.written_singleton, htext,
        List.getLast?_append_of_ne_nil _ (List.cons_ne_nil _ _), ← htext] at hd
      simp [hends d hd] at hword
    · simp [hends c rfl] at hc

/-- Every word of a source is as long as it can be. -/
theorem isWordIn_of_lex (h : lex file source = .ok (before ++ t :: behind))
    (hkind : t.kind.isWord = true) :
    t.IsWordIn before source := by
  obtain ⟨more, hcuts, ⟨hend, -⟩ | ⟨others, rfl⟩⟩ := exists_cuts_of_token h
  · simp [hend, TokenKind.isWord] at hkind
  obtain ⟨c, left, mid, hfront, hfirst, -⟩ := hcuts.exists_first
  obtain ⟨hword, hspelled, hstops⟩ := (Piece.cutsLexeme_of_first hfirst).word hkind
  have hwritten : Cut.written (before.flatMap Token.pieces ++ t.fodder.map .fodder) =
      (reconstruct before ++ t.fodderText).toList := by
    simp [written_flatMap_pieces, written_map_fodder, Token.fodderText]
  have hdata : t.data.toList ++ mid = c :: left := by
    have hcut := Cut.written_of_first hfirst
    rwa [Cut.written_singleton, Piece.text, Lexeme.sourceText_of_isWord hkind] at hcut
  constructor
  · exact hword
  · refine ⟨mid, ?_, hstops⟩
    rw [List.append_assoc, hdata, ← hwritten]
    exact hfront.text_eq
  · intro d hd hlast
    obtain ⟨e, data, heq⟩ := List.exists_cons_of_ne_nil hword.ne_nil
    have hc : Piece.isWordChar c = true := by
      rw [heq] at hdata
      cases hdata
      exact hword.chars c (heq ▸ List.mem_cons_self ..)
    rw [← hwritten] at hd
    obtain ⟨init, number, hrow, content, block, rfl, hnumber⟩ := hfront.exists_number hc hd hlast
    -- The last piece in front of the word is a lexeme, so it is the one of the token in front.
    cases hfodder : t.fodder using List.reverseRecOn with
    | append_singleton fodder f =>
      rw [hfodder, List.map_append, ← List.append_assoc] at hrow
      cases (List.append_inj' hrow rfl).2
    | nil =>
      refine ⟨rfl, ?_⟩
      rw [hfodder, List.map_nil, List.append_nil] at hrow
      cases before using List.reverseRecOn with
      | nil => simp at hrow
      | append_singleton before u =>
        rw [List.flatMap_append, List.flatMap_singleton, Token.pieces, ← List.append_assoc] at hrow
        cases (List.append_inj' hrow rfl).2
        exact ⟨u, by simp, hnumber⟩
  · intro k
    rw [hspelled]
    exact TokenKind.ofWord_eq_keyword

/-- Only text blocks have a layout. -/
theorem isSome_block_of_lex (h : lex file source = .ok (before ++ t :: behind))
    (hkind : t.kind ≠ .endOfFile) :
    t.block.isSome = true ↔ t.kind = .string .block := by
  obtain ⟨more, hcuts, ⟨hend, -⟩ | ⟨others, rfl⟩⟩ := exists_cuts_of_token h
  · exact absurd hend hkind
  · obtain ⟨c, left, mid, -, hfirst, -⟩ := hcuts.exists_first
    exact (Piece.cutsLexeme_of_first hfirst).layout

/-- The end mark has neither a text nor a layout. -/
theorem content_of_lex {front : List Token} {eof : Token}
    (h : lex file source = .ok (front ++ [eof])) :
    eof.content = (⟨.endOfFile, ""⟩, none) := by
  obtain ⟨pieces, -, htokens⟩ := lex_eq_ok_iff.mp h
  have hcontent := map_content_assemble file pieces
  rw [← htokens, List.map_append] at hcontent
  exact (List.cons.inj (List.append_inj' hcontent rfl).2).1

end

/-- The tokens of every source are in normal form: one end mark, which is the last token and has no
    text; a layout on text blocks and on nothing else; words that are as long as they can be; and
    fodder in normal form. -/
theorem lex_normalForm {file source : String} {tokens : List Token}
    (h : lex file source = .ok tokens) :
    (∃ front eof,
      tokens = front ++ [eof] ∧ (∀ t ∈ front, t.kind ≠ .endOfFile) ∧ eof.kind = .endOfFile ∧
      eof.data = "") ∧
    (∀ t ∈ tokens, t.block.isSome = true ↔ t.kind = .string .block) ∧
    (∀ before t behind, tokens = before ++ t :: behind → t.kind.isWord = true →
      t.IsWordIn before source) ∧
    ∀ before t behind, tokens = before ++ t :: behind → t.IsFodderIn before source := by
  obtain ⟨front, eof, rfl, hplain, hend, -⟩ := exists_concat_of_lex h
  have hcontent := content_of_lex h
  refine ⟨⟨front, eof, rfl, fun t ht => (hplain t ht).kind, hend, ?_⟩, ?_, ?_, ?_⟩
  · exact congrArg (fun content => content.1.data) hcontent
  · intro t ht
    -- The end mark has no layout and is no string; any other token is a lexeme of the source.
    by_cases hkind : t.kind = .endOfFile
    · have hlast : t = eof := by
        obtain ht | ht := List.mem_append.mp ht
        · exact absurd hkind (hplain t ht).kind
        · exact List.mem_singleton.mp ht
      have hblock : eof.block = none := congrArg Prod.snd hcontent
      simp [hlast, hblock, hend]
    · obtain ⟨before, behind, htokens⟩ := List.append_of_mem ht
      rw [htokens] at h
      exact isSome_block_of_lex h hkind
  · intro before t behind htokens hkind
    rw [htokens] at h
    exact isWordIn_of_lex h hkind
  · intro before t behind htokens
    rw [htokens] at h
    exact isFodderIn_of_lex h

/-- A number right in front of a word, a keyword, comments of all kinds, one of which ends the
    source, and a text block. -/
theorem lex_normalForm_sample :
    ∃ tokens before t behind, lex "sample" "0x local /***/ // a\n |||\n b\n||| #" = .ok tokens ∧
      tokens = before ++ t :: behind ∧ t.IsWordIn before "0x local /***/ // a\n |||\n b\n||| #" ∧
      t.IsFodderIn before "0x local /***/ // a\n |||\n b\n||| #" := by
  have hok : (lex "sample" "0x local /***/ // a\n |||\n b\n||| #").toOption.any
      (·.any (·.kind.isWord)) = true := by
    decide +kernel
  cases h : lex "sample" "0x local /***/ // a\n |||\n b\n||| #" with
  | error e => simp [h, Except.toOption] at hok
  | ok tokens =>
    simp only [h, Except.toOption, Option.any_some, List.any_eq_true] at hok
    obtain ⟨t, ht, hkind⟩ := hok
    obtain ⟨before, behind, htokens⟩ := List.append_of_mem ht
    obtain ⟨-, -, hwords, hfodder⟩ := lex_normalForm h
    exact ⟨tokens, before, t, behind, rfl, htokens, hwords before t behind htokens hkind,
      hfodder before t behind htokens⟩

end JsonnetSyntax
