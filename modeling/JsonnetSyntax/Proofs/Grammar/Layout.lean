import Mathlib.Data.List.Forall2
import JsonnetSyntax.Proofs.Grammar.Counting

/-!
# Programs in another layout

Where the tokens of a program stand, what the file is called and what fodder lies between the tokens
has no part in what the program is.  If the places of the tokens are changed in any way, the places
in the tree or in the error change in the same way, and nothing else does.

## Key results

- `ofTokens_movedBy`: the streams of tokens at other places
- `parse_moved`: the parse of a program in another layout
-/

namespace JsonnetSyntax

/-- The span with its file renamed and its two positions moved. -/
def Span.map (rename : String → String) (move : Position → Position) (s : Span) : Span :=
  ⟨rename s.file, move s.start, move s.stop⟩

/-- A stretch that is moved reaches from the moved start to the moved end. -/
theorem Span.map_between (rename : String → String) (move : Position → Position)
    (first last : Span) :
    (between first last).map rename move = between (first.map rename move) (last.map rename move) :=
  rfl

/-- The second stream has the tokens of the first one at other places. -/
structure TokenStream.MovedBy (move : Span → Span) (s s' : TokenStream) : Prop where
  ahead : List.Forall₂ (Token.MovedBy move) s.ahead s'.ahead
  eof : s.eof.MovedBy move s'.eof

namespace TokenStream.MovedBy

variable {move : Span → Span} {s s' : TokenStream}

/-- The next token has moved, or the end mark if no token is left. -/
theorem next (h : s.MovedBy move s') : s.next.MovedBy move s'.next := by
  obtain ⟨ahead, eof⟩ := s
  obtain ⟨ahead', eof'⟩ := s'
  cases h.ahead with
  | nil => exact h.eof
  | cons hhead _ => exact hhead

/-- Either both streams are at their end or none is. -/
theorem ended (h : s.MovedBy move s') : s.ahead = [] ↔ s'.ahead = [] := by
  rw [← List.length_eq_zero_iff, ← List.length_eq_zero_iff, h.ahead.length_eq]

/-- Behind the next token, the tokens have moved too. -/
theorem skip (h : s.MovedBy move s') : s.skip.MovedBy move s'.skip :=
  ⟨List.forall₂_drop 1 h.ahead, h.eof⟩

end TokenStream.MovedBy

/-- Two runs on the same tokens at other places.  No outcome is left aside. -/
def Comparison.relocation (rename : String → String) (move : Position → Position) :
    Comparison TokenStream where
  move := Span.map rename move
  Streams := TokenStream.MovedBy (Span.map rename move)
  Ignores _ _ := False
  move_between := Span.map_between rename move
  next h := h.next
  ended h := h.ended
  skip h := .inl h.skip
  failed h := ⟨rfl, h⟩
  ignores_rest h _ := h

/-- The tokens in front of the first end mark, and that mark, have moved with all tokens. -/
theorem ofTokens_movedBy {move : Span → Span} {tokens others : List Token}
    (hmoved : List.Forall₂ (Token.MovedBy move) tokens others)
    (hend : ∃ eof ∈ tokens, eof.kind = .endOfFile) :
    (TokenStream.ofTokens tokens).MovedBy move (.ofTokens others) := by
  -- By induction on the tokens, up to the first end mark.
  induction hmoved with
  | nil =>
    obtain ⟨eof, hmem, -⟩ := hend
    cases hmem
  | @cons t u ts us htoken htail ih =>
    by_cases ht : t.kind = .endOfFile
    · rw [TokenStream.ofTokens_cons_end ht, TokenStream.ofTokens_cons_end (htoken.kind.trans ht)]
      exact ⟨.nil, htoken⟩
    · -- The end mark is further on, so tokens are left on both sides.
      have hrest : ∃ eof ∈ ts, eof.kind = .endOfFile := by
        obtain ⟨eof, hmem, heof⟩ := hend
        obtain rfl | hmem := List.mem_cons.mp hmem
        · exact absurd heof ht
        · exact ⟨eof, hmem, heof⟩
      have hts : ts ≠ [] := by
        obtain ⟨eof, hmem, -⟩ := hrest
        exact List.ne_nil_of_mem hmem
      have hus : us ≠ [] := by
        rintro rfl
        cases htail
        exact hts rfl
      have hu : u.kind ≠ .endOfFile := by rwa [htoken.kind]
      rw [TokenStream.ofTokens_cons ht hts, TokenStream.ofTokens_cons hu hus]
      exact ⟨.cons htoken (ih hrest).ahead, (ih hrest).eof⟩

/-- A program in another layout is the same program: it has the same tree or the same fault, at the
    places that its tokens have moved to. -/
theorem parse_moved {tokens others : List Token} (rename : String → String)
    (move : Position → Position) (hend : ∃ eof ∈ tokens.getLast?, eof.kind = .endOfFile)
    (hmoved : List.Forall₂ (Token.MovedBy (Span.map rename move)) tokens others) :
    parse others = ((parse tokens).map (Expr.mapSpan (Span.map rename move))).mapError
      (Error.mapSpan (Span.map rename move)) := by
  have hstreams := ofTokens_movedBy hmoved (exists_mark_of_getLast? hend)
  -- The two runs do the same at every step, since no rule looks at a place.
  have hmatches : (programOutcome tokens).Matches (.relocation rename move)
      (Via (Comparison.relocation rename move).expr) (programOutcome others) :=
    (Rule.inStep_program (Level.inStep_upTo Iff.rfl maxNesting)).run hstreams
  have hresult := (hmatches.result Iff.rfl fun h => h).1
  rw [parse, parse, (program_ofTokens tokens).1, (program_ofTokens others).1, hresult]
  rfl

/-- A text block and a name behind a plus sign, on four lines. -/
def blockOnLines : List Token :=
  [{ kind := .string .block, data := "a\n", block := some ⟨"  ", "", "|||\n  a\n|||"⟩,
     span := ⟨"one", ⟨1, 1⟩, ⟨3, 4⟩⟩ },
   { kind := .operator, data := "+", fodder := [⟨.whitespace, " "⟩],
     span := ⟨"one", ⟨3, 5⟩, ⟨3, 6⟩⟩ },
   { kind := .identifier, data := "x", fodder := [⟨.hashComment, "# name\n"⟩],
     span := ⟨"one", ⟨4, 1⟩, ⟨4, 2⟩⟩ },
   { kind := .endOfFile, data := "", span := ⟨"one", ⟨4, 2⟩, ⟨4, 2⟩⟩ }]

/-- The same tokens in another file, with the columns lost, without fodder and with the closing bars
    of the text block further to the right. -/
def blockInColumn : List Token :=
  [{ kind := .string .block, data := "a\n", block := some ⟨"  ", "\t", "|||\n  a\n\t|||"⟩,
     span := ⟨"one.bak", ⟨1, 0⟩, ⟨3, 0⟩⟩ },
   { kind := .operator, data := "+", span := ⟨"one.bak", ⟨3, 0⟩, ⟨3, 0⟩⟩ },
   { kind := .identifier, data := "x", span := ⟨"one.bak", ⟨4, 0⟩, ⟨4, 0⟩⟩ },
   { kind := .endOfFile, data := "", fodder := [⟨.whitespace, "\n"⟩],
     span := ⟨"one.bak", ⟨4, 0⟩, ⟨4, 0⟩⟩ }]

/-- The tokens in a column are those on lines, moved. -/
theorem blockInColumn_moved :
    List.Forall₂ (Token.MovedBy (Span.map (· ++ ".bak") fun p => ⟨p.line, 0⟩)) blockOnLines
      blockInColumn :=
  .cons ⟨rfl, rfl, rfl, by decide⟩
    (.cons ⟨rfl, rfl, rfl, by decide⟩ (.cons ⟨rfl, rfl, rfl, by decide⟩
    (.cons ⟨rfl, rfl, rfl, by decide⟩ .nil)))

/-- Positions may be changed so that they can no longer be told apart. -/
theorem parse_moved_sample :
    (parse blockOnLines).isOk = true ∧ (∃ eof ∈ blockOnLines.getLast?, eof.kind = .endOfFile) ∧
      List.Forall₂ (Token.MovedBy (Span.map (· ++ ".bak") fun p => ⟨p.line, 0⟩)) blockOnLines
        blockInColumn ∧
      parse blockInColumn =
        ((parse blockOnLines).map
          (Expr.mapSpan (Span.map (· ++ ".bak") fun p => ⟨p.line, 0⟩))).mapError
          (Error.mapSpan (Span.map (· ++ ".bak") fun p => ⟨p.line, 0⟩)) :=
  ⟨by decide +kernel, ⟨_, rfl, rfl⟩, blockInColumn_moved,
    parse_moved _ _ ⟨_, rfl, rfl⟩ blockInColumn_moved⟩

end JsonnetSyntax
