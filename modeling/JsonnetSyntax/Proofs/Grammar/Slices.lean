import JsonnetSyntax.Proofs.Grammar.Ranges
import JsonnetSyntax.Proofs.Grammar.Relocation
import JsonnetSyntax.Proofs.Lexical.Parts

/-!
# The text of a node

The text that the span of a node covers is the node again, read as a program of its own, except for
closing parentheses: an expression starts where its first token does, be it a parenthesis around its
first part, but it ends where its last part ends, so the parentheses that close this part are lost.
With them, the text is a program for every node of every accepted source.

## Key results

- `Span.textIn_eq`: the text of a span inside a source
- `exists_row_of_isWithin`: where a node stands among the tokens of its source
- `parseSource_textIn`: the text of a node, with the parentheses behind it, is a program
- `parseSource_textIn_fails`: without them it need not be one
-/

namespace JsonnetSyntax

/-! ## The text of a span -/

/-- The characters of a text that stand between two places, where `p` is the place of the first
    one. -/
def charsBetween (start stop : Position) (p : Position) : List Char → List Char
  | [] => []
  | c :: text =>
    if start ≤ p ∧ p < stop then c :: charsBetween start stop (p.advance c) text
    else charsBetween start stop (p.advance c) text

/-- The text of a source that a span covers. -/
def Span.textIn (span : Span) (source : String) : String :=
  String.ofList (charsBetween span.start span.stop .origin source.toList)

section charsBetween

variable {start stop p : Position} {text : List Char}

/-- Text that ends no later than the start is passed over. -/
theorem charsBetween_before (h : p.after text ≤ start) (more : List Char) :
    charsBetween start stop p (text ++ more) = charsBetween start stop (p.after text) more := by
  induction text generalizing p with
  | nil => rfl
  | cons c text ih =>
    have hp : p < start := ((p.lt_advance c).trans_le (Position.le_after _ text)).trans_le h
    rw [List.cons_append, charsBetween, if_neg fun hin => absurd hin.1 hp.not_ge]
    exact ih h

/-- Text that stands between the two places is kept. -/
theorem charsBetween_inside (hstart : start ≤ p) (h : p.after text ≤ stop) (more : List Char) :
    charsBetween start stop p (text ++ more) =
      text ++ charsBetween start stop (p.after text) more := by
  induction text generalizing p with
  | nil => rfl
  | cons c text ih =>
    have hp : p < stop := ((p.lt_advance c).trans_le (Position.le_after _ text)).trans_le h
    rw [List.cons_append, charsBetween, if_pos ⟨hstart, hp⟩,
      ih (hstart.trans (p.lt_advance c).le) h]
    rfl

/-- From the second place on nothing is kept. -/
theorem charsBetween_behind (h : stop ≤ p) : charsBetween start stop p text = [] := by
  induction text generalizing p with
  | nil => rfl
  | cons c text ih =>
    rw [charsBetween, if_neg fun hin => absurd hin.2 h.not_gt]
    exact ih (h.trans (p.lt_advance c).le)

end charsBetween

/-- A span from behind one text to behind a longer one covers what the longer one has more. -/
theorem Span.textIn_eq (file front text back : String) :
    (⟨file, .ofText front.toList, .ofText (front ++ text).toList⟩ : Span).textIn
      (front ++ text ++ back) =
      text := by
  apply String.toList_injective
  simp only [textIn, String.toList_ofList, String.toList_append, List.append_assoc]
  -- The two cuts of the source: behind `front`, and behind `front` and `text`.
  have hfront : Position.origin.after front.toList = .ofText front.toList := Position.origin_after _
  have htext :
      (Position.ofText front.toList).after text.toList = .ofText (front.toList ++ text.toList) :=
    Position.ofText_after ..
  rw [charsBetween_before hfront.le, hfront, charsBetween_inside le_rfl htext.le, htext,
    charsBetween_behind le_rfl, List.append_nil]

/-! ## Tokens at the ends of a text -/

/-- A token spans its own text, behind the text of the tokens before it. -/
theorem TokensExact.span_eq {file : String} {front behind : List Token} {t : Token}
    (h : TokensExact file (front ++ t :: behind)) :
    t.span = t.spanBehind file (reconstruct front) := by
  have hspan := h front.length t (by simp)
  rwa [List.take_left] at hspan

/-- The last of some tokens ends behind their text. -/
theorem TokensExact.stop_eq {file : String} {front own behind : List Token} {last : Token}
    (h : TokensExact file (front ++ own ++ behind)) (hlast : own.getLast? = some last) :
    last.span.stop = .ofText (reconstruct (front ++ own)).toList := by
  obtain ⟨init, rfl⟩ := List.getLast?_eq_some_iff.mp hlast
  have hspan : last.span = last.spanBehind file (reconstruct (front ++ init)) := by
    apply TokensExact.span_eq
    simpa using h
  rw [hspan]
  simp [Token.spanBehind, reconstruct_singleton, Token.fullText_eq, String.append_assoc]

/-- The token without its fodder. -/
def Token.bare (t : Token) : Token := { t with fodder := [] }

/-- Without its fodder a token is written as its source text alone. -/
theorem Token.fullText_bare (t : Token) : t.bare.fullText = t.sourceText := by
  simp [bare, fullText, sourceText]

/-- Tokens that say the same are alike. -/
theorem forall₂_alike_of_content {ts us : List Token}
    (h : us.map Token.content = ts.map Token.content) :
    List.Forall₂ Token.Alike ts us := by
  induction ts generalizing us with
  | nil =>
    rw [List.map_nil, List.map_eq_nil_iff] at h
    rw [h]
    exact .nil
  | cons t ts ih =>
    obtain ⟨u, us, rfl, hhead, htail⟩ := List.map_eq_cons_iff.mp h
    obtain ⟨hlexeme, hblock⟩ := Prod.mk.inj hhead
    have hkind : u.kind = t.kind := congrArg Lexeme.kind hlexeme
    have hdata : u.data = t.data := congrArg Lexeme.data hlexeme
    exact .cons ⟨hkind, fun _ => hdata, fun _ => hblock⟩ (ih htail)

/-- Tokens that say the same are of the same kinds. -/
theorem exists_kind_of_content {ts us : List Token}
    (h : us.map Token.content = ts.map Token.content) {u : Token} (hu : u ∈ us) :
    ∃ t ∈ ts, t.kind = u.kind := by
  have hmem : u.content ∈ ts.map Token.content := h ▸ List.mem_map_of_mem hu
  obtain ⟨t, ht, hcontent⟩ := List.mem_map.mp hmem
  exact ⟨t, ht, congrArg (fun content => content.1.kind) hcontent⟩

section Rows

variable {file source : String} {front own rest after : List Token} {first eof : Token}

/-- The text of some tokens with their fodder. -/
theorem textIn_own (h : lex file source = .ok (front ++ own ++ after)) :
    (⟨file, .ofText (reconstruct front).toList,
      .ofText (reconstruct (front ++ own)).toList⟩ : Span).textIn source = reconstruct own := by
  have hsource := reconstruct_lex h
  rw [reconstruct_append, reconstruct_append] at hsource
  rw [reconstruct_append, ← hsource]
  exact Span.textIn_eq ..

/-- The text of some tokens from the start of the first one on. -/
theorem textIn_bare (h : lex file source = .ok (front ++ first :: rest ++ after)) :
    (⟨file, first.span.start,
      .ofText (reconstruct (front ++ first :: rest)).toList⟩ : Span).textIn source =
        reconstruct (first.bare :: rest) := by
  have hexact : TokensExact file (front ++ first :: (rest ++ after)) := by
    simpa using exact_of_lex h
  -- The first token starts behind its fodder, so its fodder is cut off as well.
  have hstart : first.span.start = .ofText (reconstruct front ++ first.fodderText).toList := by
    rw [hexact.span_eq]
    rfl
  have hrow : reconstruct (front ++ first :: rest) =
      reconstruct front ++ first.fodderText ++ reconstruct (first.bare :: rest) := by
    rw [reconstruct_append, reconstruct_cons, reconstruct_cons, Token.fullText_eq,
      Token.fullText_bare]
    simp only [String.append_assoc]
  have hsource := reconstruct_lex h
  rw [reconstruct_append, hrow] at hsource
  rw [hstart, hrow, ← hsource]
  exact Span.textIn_eq ..

/-- The text of some tokens with their fodder is lexed into these tokens again. -/
theorem exists_lex_textIn_own (h : lex file source = .ok (front ++ own ++ after ++ [eof]))
    (hlast : ∀ t ∈ own.getLast?, t.kind ≠ .operator) :
    ∃ tokens eof, lex file ((⟨file, .ofText (reconstruct front).toList,
        .ofText (reconstruct (front ++ own)).toList⟩ : Span).textIn source) =
          .ok (tokens ++ [eof]) ∧
      eof.kind = .endOfFile ∧ tokens.map Token.content = own.map Token.content := by
  have hcuts := cuts_of_lex h
  rw [List.flatMap_append, List.flatMap_append, List.append_assoc] at hcuts
  rw [List.append_assoc (front ++ own)] at h
  rw [textIn_own h]
  exact exists_lex_reconstruct hcuts hlast file

/-- The text of some tokens from the start of the first one on is lexed into these tokens again. -/
theorem exists_lex_textIn_bare
    (h : lex file source = .ok (front ++ first :: rest ++ after ++ [eof]))
    (hlast : ∀ t ∈ (first :: rest).getLast?, t.kind ≠ .operator) :
    ∃ tokens eof, lex file ((⟨file, first.span.start,
        .ofText (reconstruct (front ++ first :: rest)).toList⟩ : Span).textIn source) =
          .ok (tokens ++ [eof]) ∧
      eof.kind = .endOfFile ∧ tokens.map Token.content = (first :: rest).map Token.content := by
  have hcuts := cuts_of_lex h
  -- The fodder of the first token belongs to the text in front.
  have hpieces : (front ++ first :: rest ++ after).flatMap Token.pieces =
      front.flatMap Token.pieces ++ first.fodder.map .fodder ++
        (first.bare :: rest).flatMap Token.pieces ++
        after.flatMap Token.pieces := by
    simp [Token.pieces, Token.bare]
  rw [hpieces, List.append_assoc] at hcuts
  rw [List.append_assoc (front ++ first :: rest)] at h
  rw [textIn_bare h]
  refine exists_lex_reconstruct hcuts ?_ file
  cases rest with
  | nil =>
    rintro t ⟨⟩
    exact hlast first rfl
  | cons t rest => simpa using hlast

end Rows

/-! ## Nodes as programs -/

/-- Tokens that say what these say are a program, wherever they stand, and its tree is the
    expression. -/
def ReadsAs (own : List Token) (n : Expr) : Prop :=
  ∀ tokens eof, tokens.map Token.content = own.map Token.content → eof.kind = .endOfFile →
    ∃ m, parse (tokens ++ [eof]) = .ok m ∧ m.erase = n.erase

/-- The tokens of a node, with closing parentheses behind them, are read as the node. -/
theorem exists_readsAs_of_readFrom {own behind : List Token} {n : Expr} (h : ReadFrom own behind n)
    (hplain : ∀ t ∈ own ++ behind, t.kind ≠ .endOfFile) :
    ∃ back rest, behind = back ++ rest ∧ Closers n.endsWithPart back ∧ ReadsAs (own ++ back) n := by
  obtain ⟨depth, hdepth, eof₀, back, rest, rfl, hback, hbuilds⟩ := h
  refine ⟨back, rest, rfl, hback, fun tokens eof hcontent heof => ?_⟩
  -- The tree was read at some depth below the limit; a program is read at the deepest level.
  have hlevels : (Level.upTo depth).Transfers (.upTo (maxNesting - 1)) :=
    Level.transfers_upTo (Nat.le_sub_one_of_lt hdepth)
  have htokens : ∀ t ∈ tokens, t.kind ≠ .endOfFile := by
    intro t ht
    obtain ⟨u, hu, hkind⟩ := exists_kind_of_content hcontent ht
    rw [← hkind]
    refine hplain u ?_
    rw [← List.append_assoc]
    exact List.mem_append_left _ hu
  obtain ⟨m, hread, herase⟩ := hbuilds.reads hlevels (forall₂_alike_of_content hcontent)
  refine ⟨m, parse_eq_ok_iff.mpr ?_, herase⟩
  rw [tokensAhead_concat heof htokens]
  exact Level.reads_deepen_expr.mpr hread

/-- Where a node stands among the tokens of its source. -/
theorem exists_row_of_isWithin {file source : String} {root n : Expr}
    (h : parseSource file source = .ok root) (hn : n.IsWithin root) :
    ∃ front first rest back after eof,
      lex file source = .ok (front ++ first :: rest ++ back ++ after ++ [eof]) ∧
      n.span.start = first.span.start ∧
      n.span.stop = .ofText (reconstruct (front ++ first :: rest)).toList ∧
      (∀ t ∈ (first :: rest).getLast?, t.kind ≠ .operator) ∧ Closers n.endsWithPart back ∧
      ReadsAs (first :: rest ++ back) n := by
  obtain ⟨tokens, hlex, hparse⟩ := exists_tokens_of_parseSource h
  obtain ⟨ahead, eof, rfl, hplain, heof, -⟩ := exists_concat_of_lex hlex
  obtain ⟨front, own, behind, htokens, hplaced⟩ := exists_placed_of_parse hparse hn
  rw [tokensAhead_concat heof fun t ht => (hplain t ht).kind] at htokens
  subst htokens
  have hown : ∀ t ∈ own ++ behind, t.kind ≠ .endOfFile := by
    intro t ht
    refine (hplain t ?_).kind
    rw [List.append_assoc]
    exact List.mem_append_right _ ht
  obtain ⟨back, after, rfl, hback, hprogram⟩ := exists_readsAs_of_readFrom hplaced.known hown
  obtain ⟨first, last, hfirst, hlast, hkind, hspan⟩ := hplaced.covers
  obtain ⟨rest, rfl⟩ := List.head?_eq_some_iff.mp hfirst
  refine ⟨front, first, rest, back, after, eof, by simpa using hlex, ?_, ?_, ?_, hback, hprogram⟩
  · -- The place where the node starts is the place of its first token.
    rw [hspan]
    rfl
  · -- Its last token is exact, so the node stops behind the text up to that token.
    rw [hspan]
    exact TokensExact.stop_eq (by simpa using exact_of_lex hlex) hlast
  · intro t ht
    obtain rfl : last = t := by simpa [hlast] using ht
    exact hkind

/-- Behind closing parentheses no operator ends a row of tokens. -/
theorem Closers.getLast?_append {loose : Bool} {own back : List Token} (hback : Closers loose back)
    (hown : ∀ t ∈ own.getLast?, t.kind ≠ .operator) :
    ∀ t ∈ (own ++ back).getLast?, t.kind ≠ .operator := by
  intro t ht
  rw [List.getLast?_append] at ht
  cases hlast : back.getLast? with
  | none => exact hown t (by simpa [hlast] using ht)
  | some u =>
    obtain rfl : u = t := by simpa [hlast] using ht
    simp [hback.kind u (List.mem_of_getLast? hlast)]

/-- The text of a node, with the closing parentheses that its last part waits for, is a program, and
    its tree is the node.  A node that ends with a token of its own waits for none, and then the
    text is what the span of the node covers. -/
theorem parseSource_textIn {file source : String} {root n : Expr}
    (h : parseSource file source = .ok root) (hn : n.IsWithin root) :
    ∃ (stop : Position) (closers : List Token) (eof : Token),
      n.span.stop ≤ stop ∧
      lex file ((⟨file, n.span.stop, stop⟩ : Span).textIn source) = .ok (closers ++ [eof]) ∧
      (∀ t ∈ closers, t.kind = .punct .parenR) ∧ (n.endsWithPart = false → closers = []) ∧
      (closers = [] → stop = n.span.stop) ∧
      ∃ m, parseSource file ((⟨file, n.span.start, stop⟩ : Span).textIn source) = .ok m ∧
        m.erase = n.erase := by
  obtain ⟨front, first, rest, back, after, eof, hlex, hstart, hstop, hlast, hback, hprogram⟩ :=
    exists_row_of_isWithin h hn
  have hrow : front ++ first :: rest ++ back = front ++ first :: (rest ++ back) := by simp
  -- What stands behind a row of parentheses is never glued to them, so it can be cut off there.
  have hclosers : ∀ t ∈ back.getLast?, t.kind ≠ .operator := by
    intro t ht
    simp [hback.kind t (List.mem_of_getLast? ht)]
  -- The parentheses alone, and the node together with them, have the same tokens on their own.
  obtain ⟨closers, eof₁, hlex₁, -, hcontent⟩ := exists_lex_textIn_own hlex hclosers
  rw [← hstop] at hlex₁
  rw [hrow] at hlex
  obtain ⟨tokens, eof₂, hlex₂, heof, hcontent₂⟩ :=
    exists_lex_textIn_bare hlex (hback.getLast?_append hlast)
  rw [← hstart, ← hrow] at hlex₂
  obtain ⟨m, hm, herase⟩ := hprogram tokens eof₂ hcontent₂ heof
  refine ⟨.ofText (reconstruct (front ++ first :: rest ++ back)).toList, closers, eof₁, ?_, hlex₁,
    ?_, ?_, ?_, m, ?_, herase⟩
  · rw [hstop, reconstruct_append (front ++ first :: rest), String.toList_append]
    exact Position.ofText_le_append ..
  · intro t ht
    obtain ⟨u, hu, hkind⟩ := exists_kind_of_content hcontent ht
    rw [← hkind]
    exact hback.kind u hu
  · -- A node that waits for no parenthesis has taken none.
    intro htight
    rw [hback.tight htight] at hcontent
    simpa using hcontent
  · rintro rfl
    have hnil : back = [] := by simpa using hcontent.symm
    rw [hstop, hnil, List.append_nil]
  · rw [parseSource, hlex₂]
    exact hm

/-- An operation whose right operand stands in parentheses: its text ends in front of the last
    one. -/
theorem parseSource_textIn_sample :
    ∃ root m, parseSource "sample" "a + (b )" = .ok root ∧ ∃ stop,
      parseSource "sample" ((⟨"sample", root.span.start, stop⟩ : Span).textIn "a + (b )") = .ok m ∧
        m.erase = root.erase := by
  have hok : (parseSource "sample" "a + (b )").isOk = true := by decide +kernel
  cases h : parseSource "sample" "a + (b )" with
  | error e => simp [h, Except.isOk, Except.toBool] at hok
  | ok root =>
    obtain ⟨stop, -, -, -, -, -, -, -, m, hm, herase⟩ := parseSource_textIn h (.refl root)
    exact ⟨root, m, rfl, stop, hm, herase⟩

/-- What the span of such an operation covers is no program: the parenthesis is missing. -/
theorem parseSource_textIn_fails :
    ∃ root, parseSource "sample" "a+(b)" = .ok root ∧ root.span.textIn "a+(b)" = "a+(b" ∧
      (parseSource "sample" (root.span.textIn "a+(b)")).isOk = false := by
  have hok : (match parseSource "sample" "a+(b)" with
    | .ok root => root.span.textIn "a+(b)" == "a+(b" && !(parseSource "sample" "a+(b").isOk
    | .error _ => false) = true := by decide +kernel
  cases h : parseSource "sample" "a+(b)" with
  | error e => simp [h] at hok
  | ok root =>
    simp only [h, Bool.and_eq_true, beq_iff_eq, Bool.not_eq_true'] at hok
    exact ⟨root, rfl, hok.1, hok.1 ▸ hok.2⟩

end JsonnetSyntax
