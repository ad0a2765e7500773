import Mathlib.Data.List.TakeWhile
import JsonnetSyntax.Proofs.Grammar.Counting

/-!
# How far reading looks

Reading a program never looks past the token that it stops at.  So tokens behind that one can be
changed without any effect, and a program that is accepted ends at the first end mark of its tokens.

## Key results

- `TokenStream.exists_split`: where reading stops, the tokens are those taken and a stream of the
  others
- `Rule.run_of_rests`: a run does not depend on what follows the token that it stops at
- `StopsAt.change`: the same for lists of tokens
- `program_lookahead`: where a program stops, and that nothing behind matters
-/

namespace JsonnetSyntax

/-! ## Streams -/

namespace TokenStream

variable {t : Token} {taken ts tokens : List Token}

/-- The first token of a list is the next one of its stream, also if it is an end mark. -/
theorem next_ofTokens_cons : (ofTokens (t :: ts)).next = t := by
  by_cases ht : t.kind = .endOfFile
  · rw [ofTokens_cons_end ht]
    rfl
  · simp [ofTokens, next, ht]

/-- No token is ahead if and only if the first one is an end mark. -/
theorem ahead_ofTokens_cons : (ofTokens (t :: ts)).ahead = [] ↔ t.kind = .endOfFile := by
  by_cases ht : t.kind = .endOfFile
  · simp [ofTokens_cons_end ht, ht]
  · simp [ofTokens, ht]

/-- Tokens that are no end marks stand at the front of the stream. -/
theorem ofTokens_append (htaken : ∀ u ∈ taken, u.kind ≠ .endOfFile) (hts : ts ≠ []) :
    ofTokens (taken ++ ts) = ⟨taken ++ (ofTokens ts).ahead, (ofTokens ts).eof⟩ := by
  -- By induction on the tokens in front, none of which is an end mark.
  induction taken with
  | nil => rfl
  | cons u taken ih =>
    rw [List.forall_mem_cons] at htaken
    have hrest : taken ++ ts ≠ [] := List.append_ne_nil_of_right_ne_nil taken hts
    rw [List.cons_append, ofTokens_cons htaken.1 hrest, ih htaken.2, List.cons_append]

/-- What reading leaves of a stream is the stream of the tokens that were not taken. -/
theorem exists_split {rest : TokenStream} (hend : ∃ eof ∈ tokens, eof.kind = .endOfFile)
    (hrest : rest.IsRestOf (ofTokens tokens)) :
    ∃ taken t more, tokens = taken ++ t :: more ∧ (∀ u ∈ taken, u.kind ≠ .endOfFile) ∧
      rest = ofTokens (t :: more) := by
  obtain ⟨taken, htaken⟩ := hrest.ahead
  have hplain : ∀ u ∈ taken, u.kind ≠ .endOfFile := by
    intro u hu
    have hmem : u ∈ (ofTokens tokens).ahead := htaken ▸ List.mem_append_left _ hu
    have hkind := List.all_eq_true.mp List.all_takeWhile u hmem
    simpa using hkind
  -- Behind the taken tokens stand the others in front of the end mark, the mark and all behind it.
  have htokens :
      tokens = taken ++ (rest.ahead ++ tokens.dropWhile fun t => t.kind != .endOfFile) := by
    rw [← List.append_assoc, htaken]
    exact List.takeWhile_append_dropWhile.symm
  have hbehind : tokens.dropWhile (fun t => t.kind != .endOfFile) ≠ [] := by
    obtain ⟨eof, hmem, heof⟩ := hend
    intro hnil
    rw [List.dropWhile_eq_nil_iff] at hnil
    simpa [heof] using hnil eof hmem
  obtain ⟨t, more, hmore⟩ :=
    List.exists_cons_of_ne_nil (List.append_ne_nil_of_right_ne_nil rest.ahead hbehind)
  rw [hmore] at htokens
  refine ⟨taken, t, more, htokens, hplain, ?_⟩
  have hsplit := ofTokens_append hplain (List.cons_ne_nil t more)
  rw [← htokens] at hsplit
  obtain ⟨ahead, eof⟩ := rest
  rw [hsplit] at htaken hrest
  have hahead : ahead = (ofTokens (t :: more)).ahead := List.append_cancel_left htaken
  have heof : eof = (ofTokens (t :: more)).eof := hrest.eof
  rw [hahead, heof]

end TokenStream

/-! ## Runs that stop at the same token -/

/-- The two streams have the same tokens in front of the rests `r` and `r'`. -/
def TokenStream.EndIn (r r' s s' : TokenStream) : Prop :=
  ∃ common, s = ⟨common ++ r.ahead, r.eof⟩ ∧ s' = ⟨common ++ r'.ahead, r'.eof⟩

namespace TokenStream.EndIn

variable {r r' s s' : TokenStream}

/-- In front of both rests, the next token is the same. -/
theorem next (h : EndIn r r' s s') (hnext : r'.next = r.next) : s.next.MovedBy id s'.next := by
  -- Either a token in front of the rests is next, or the first one of the rests.
  obtain ⟨common, rfl, rfl⟩ := h
  cases common with
  | nil =>
    show r.next.MovedBy id r'.next
    rw [hnext]
    exact .refl r.next
  | cons t common => exact .refl t

/-- In front of both rests, either both streams are at their end or none is. -/
theorem ended (h : EndIn r r' s s') (hended : r.ahead = [] ↔ r'.ahead = []) :
    s.ahead = [] ↔ s'.ahead = [] := by
  obtain ⟨common, rfl, rfl⟩ := h
  cases common with
  | nil => exact hended
  | cons t common => simp

/-- Taking a token leads on to the same rests, or behind the token that the first one starts
with. -/
theorem skip (h : EndIn r r' s s') (hended : r.ahead = [] ↔ r'.ahead = []) :
    EndIn r r' s.skip s'.skip ∨ s.skip.ahead.length < r.ahead.length := by
  obtain ⟨common, rfl, rfl⟩ := h
  cases common with
  | cons t common => exact .inl ⟨common, rfl, rfl⟩
  | nil =>
    -- Only the end mark can be skipped without getting behind the first token of the rest.
    by_cases hr : r.ahead = []
    · refine .inl ⟨[], ?_, ?_⟩
      · simp [TokenStream.skip, hr]
      · simp [TokenStream.skip, hended.mp hr]
    · right
      have hlength := List.length_pos_iff.mpr hr
      simp only [TokenStream.skip, List.nil_append, List.length_drop]
      omega

end TokenStream.EndIn

/-- Two runs on the same tokens in front of two rests that start with the same token.  What the
    first run does once it has got behind that token is left aside. -/
def Comparison.untilRests (r r' : TokenStream) (hnext : r'.next = r.next)
    (hended : r.ahead = [] ↔ r'.ahead = []) : Comparison TokenStream where
  move := id
  Streams := TokenStream.EndIn r r'
  Ignores _ s := s.ahead.length < r.ahead.length
  move_between := Span.id_between
  next h := h.next hnext
  ended h := h.ended hended
  skip h := h.skip hended
  failed h := ⟨rfl, h⟩
  ignores_rest h hlater := Nat.lt_of_le_of_lt hlater.length_le h

/-- A run that stops at a token does not depend on what follows the token. -/
theorem Rule.run_of_rests {rule : Rule TokenStream Expr}
    (hrule : ∀ c : Comparison TokenStream, c.Plain → rule.InStep c (Via c.expr) rule)
    {taken : List Token} {r r' : TokenStream} (hnext : r'.next = r.next)
    (hended : r.ahead = [] ↔ r'.ahead = [])
    (hstop : (rule.run ⟨taken ++ r.ahead, r.eof⟩).rest = r) :
    (rule.run ⟨taken ++ r'.ahead, r'.eof⟩).result = (rule.run ⟨taken ++ r.ahead, r.eof⟩).result ∧
      (rule.run ⟨taken ++ r'.ahead, r'.eof⟩).rest = r' := by
  -- Both runs are compared; the first stops where its rest starts, so it never got behind it.
  have hmatches := (hrule (.untilRests r r' hnext hended) Iff.rfl).run ⟨taken, rfl, rfl⟩
  generalize rule.run ⟨taken ++ r.ahead, r.eof⟩ = o at hstop hmatches ⊢
  obtain ⟨hresult, common, hr, hr'⟩ := hmatches.result Iff.rfl fun h => by
    rw [hstop] at h
    exact Nat.lt_irrefl _ h
  constructor
  · rw [hresult]
    -- Nothing moves between the two runs.
    cases o.result with
    | ok root => exact congrArg Except.ok root.mapSpan_id
    | error e => rfl
  · rw [hstop] at hr
    have hahead : r.ahead = common ++ r.ahead := congrArg TokenStream.ahead hr
    have hnil : common = [] := List.append_left_eq_self.mp hahead.symm
    rw [hr', hnil]
    rfl

/-! ## Lists of tokens -/

/-- The index of the next token of a session among the tokens that the session started from. -/
def Session.position (s : Session) (tokens : List Token) : Nat :=
  (TokenStream.ofTokens tokens).ahead.length - s.stream.ahead.length

/-- The index of the token that the reading of a program stops at. -/
def stopIndex (tokens : List Token) : Nat := (Session.ofTokens tokens).program.2.position tokens

/-- The index of the stop is the number of tokens that were taken. -/
theorem stopIndex_eq (tokens : List Token) :
    stopIndex tokens =
      (TokenStream.ofTokens tokens).ahead.length - (programOutcome tokens).rest.ahead.length := by
  rw [stopIndex, Session.position, (program_ofTokens tokens).2]

/-- A program stops behind the tokens that it takes, at the token `t`. -/
structure StopsAt (tokens taken : List Token) (t : Token) (more : List Token) : Prop where
  tokens_eq : tokens = taken ++ t :: more
  plain : ∀ u ∈ taken, u.kind ≠ .endOfFile
  rest : (programOutcome tokens).rest = .ofTokens (t :: more)

/-- Every program stops at some token. -/
theorem exists_stopsAt {tokens : List Token} (hend : ∃ eof ∈ tokens, eof.kind = .endOfFile) :
    ∃ taken t more, StopsAt tokens taken t more := by
  obtain ⟨taken, t, more, htokens, hplain, hrest⟩ :=
    TokenStream.exists_split hend (Rule.rest_run _ _)
  exact ⟨taken, t, more, htokens, hplain, hrest⟩

section StopsAt

variable {tokens taken more : List Token} {t : Token}

/-- The index of the token that a program stops at. -/
theorem StopsAt.stopIndex_eq (h : StopsAt tokens taken t more) :
    stopIndex tokens = taken.length := by
  rw [JsonnetSyntax.stopIndex_eq, h.rest, h.tokens_eq,
    TokenStream.ofTokens_append h.plain (List.cons_ne_nil t more), List.length_append]
  omega

/-- Lists that have the first tokens and the next one in common. -/
theorem exists_more_of_agree {others : List Token}
    (hagree : ∀ i ≤ taken.length, others[i]? = (taken ++ t :: more)[i]?) :
    ∃ more', others = taken ++ t :: more' := by
  refine ⟨others.drop (taken.length + 1), ?_⟩
  -- Index by index: up to the stop the lists agree, and behind it both fronts are over.
  have hfront : others.take (taken.length + 1) = taken ++ [t] := by
    apply List.ext_getElem?
    intro i
    by_cases hi : i < taken.length + 1
    · rw [List.getElem?_take_of_lt hi, hagree i (by omega), List.append_cons]
      exact List.getElem?_append_left (by simpa using hi)
    · rw [List.getElem?_eq_none (by simp; omega), List.getElem?_eq_none (by simp; omega)]
  calc others = others.take (taken.length + 1) ++ others.drop (taken.length + 1) :=
        (List.take_append_drop ..).symm
    _ = taken ++ t :: others.drop (taken.length + 1) := by rw [hfront, List.append_assoc]; rfl

/-- Whatever follows the token that a program stops at, the result is the same, and so is the
    stop. -/
theorem StopsAt.change (h : StopsAt tokens taken t more) (more' : List Token) :
    parse (taken ++ t :: more') = parse tokens ∧ StopsAt (taken ++ t :: more') taken t more' := by
  have hsplit := TokenStream.ofTokens_append h.plain (List.cons_ne_nil t more)
  have hsplit' := TokenStream.ofTokens_append h.plain (List.cons_ne_nil t more')
  have hnext :
      (TokenStream.ofTokens (t :: more')).next = (TokenStream.ofTokens (t :: more)).next := by
    rw [TokenStream.next_ofTokens_cons, TokenStream.next_ofTokens_cons]
  have hended : (TokenStream.ofTokens (t :: more)).ahead = [] ↔
      (TokenStream.ofTokens (t :: more')).ahead = [] := by
    rw [TokenStream.ahead_ofTokens_cons, TokenStream.ahead_ofTokens_cons]
  have hstop := h.rest
  -- The token at the stop is the same on both sides, so the rests can be exchanged.
  rw [programOutcome, h.tokens_eq, hsplit] at hstop
  obtain ⟨hresult, hrest⟩ := Rule.run_of_rests
    (fun _ hplain => Rule.inStep_program (Level.inStep_upTo hplain maxNesting)) hnext hended hstop
  rw [← hsplit, ← hsplit', ← h.tokens_eq] at hresult
  rw [← hsplit'] at hrest
  refine ⟨?_, rfl, h.plain, hrest⟩
  rw [parse, parse, (program_ofTokens _).1, (program_ofTokens _).1]
  exact hresult

/-- An accepted program stops at an end mark. -/
theorem StopsAt.kind_of_parse (h : StopsAt tokens taken t more) {root : Expr}
    (hparse : parse tokens = .ok root) : t.kind = .endOfFile := by
  have hrest := h.rest
  rw [parse, (program_ofTokens tokens).1] at hparse
  cases hrun : programOutcome tokens with
  | failed failure rest =>
    rw [hrun] at hparse
    cases hparse
  | done out rest =>
    have hread : (Rule.program (.upTo maxNesting)).Reads (.ofTokens tokens) (tokensAhead tokens) out
        rest.ahead := Rule.Reads.of_run hrun
    -- No end mark stands among the tokens ahead, so nothing is left of them.
    obtain ⟨hout, hmark⟩ := Rule.reads_program.mp hread
    have hnil : rest.ahead = [] := eq_nil_of_next_kind hout.suffix hmark
    rw [hrun, Outcome.rest_done] at hrest
    rw [hrest] at hnil
    exact TokenStream.ahead_ofTokens_cons.mp hnil

end StopsAt

/-- The reading of a program stops at one token and looks at none behind it: for all tokens that
    agree up to that one, the result and the stop are the same.  An accepted program stops at the
    first end mark, and whatever is put behind the mark, it stays the same program. -/
theorem program_lookahead {tokens : List Token}
    (hend : ∃ eof ∈ tokens.getLast?, eof.kind = .endOfFile) :
    tokens[stopIndex tokens]? = some (Session.ofTokens tokens).program.2.stream.next ∧
    (∀ others : List Token, (∀ i ≤ stopIndex tokens, others[i]? = tokens[i]?) →
      (Session.ofTokens others).program.1 = (Session.ofTokens tokens).program.1 ∧
        stopIndex others = stopIndex tokens) ∧
    ∀ root, (Session.ofTokens tokens).program.1 = .ok root →
      (∃ eof, tokens[stopIndex tokens]? = some eof ∧ eof.kind = .endOfFile) ∧
      (∀ t ∈ tokens.take (stopIndex tokens), t.kind ≠ .endOfFile) ∧
      ∀ more, (Session.ofTokens (tokens.take (stopIndex tokens + 1) ++ more)).program.1 =
        .ok root := by
  obtain ⟨taken, t, more, hstops⟩ := exists_stopsAt (exists_mark_of_getLast? hend)
  have hindex := hstops.stopIndex_eq
  have htokens := hstops.tokens_eq
  have hget : tokens[stopIndex tokens]? = some t := by
    rw [hindex, htokens, List.getElem?_append_right (Nat.le_refl _), Nat.sub_self]
    rfl
  refine ⟨?_, fun others hagree => ?_,
    fun root hroot => ⟨⟨t, hget, hstops.kind_of_parse hroot⟩, ?_, ?_⟩⟩
  · rw [hget, (program_ofTokens tokens).2, hstops.rest, TokenStream.next_ofTokens_cons]
  · rw [hindex, htokens] at hagree
    obtain ⟨more', rfl⟩ := exists_more_of_agree hagree
    obtain ⟨hsame, hstops'⟩ := hstops.change more'
    exact ⟨hsame, hstops'.stopIndex_eq.trans hindex.symm⟩
  · rw [hindex, htokens, List.take_left]
    exact hstops.plain
  · intro more'
    have hfront : tokens.take (stopIndex tokens + 1) ++ more' = taken ++ t :: more' := by
      rw [hindex, htokens, List.take_length_add_append]
      simp
    rw [hfront]
    exact (hstops.change more').1.trans hroot

/-- A name and an end mark, with a parenthesis that nothing opens behind the mark. -/
def endedEarly : List Token :=
  [{ kind := .identifier, data := "x", span := .unset "sample" },
   { kind := .endOfFile, data := "", span := .unset "sample" },
   { kind := .punct .parenR, data := ")", span := .unset "sample" },
   { kind := .endOfFile, data := "", span := .unset "sample" }]

/-- Whatever follows the first end mark, even nothing, the program is the same. -/
theorem program_lookahead_sample :
    (∃ eof ∈ endedEarly.getLast?, eof.kind = .endOfFile) ∧ stopIndex endedEarly = 1 ∧
      ∃ root, (Session.ofTokens endedEarly).program.1 = .ok root ∧
        ∀ more, (Session.ofTokens (endedEarly.take 2 ++ more)).program.1 = .ok root := by
  have hend : ∃ eof ∈ endedEarly.getLast?, eof.kind = .endOfFile := ⟨_, rfl, rfl⟩
  have hindex : stopIndex endedEarly = 1 := by decide +kernel
  have hok : (parse endedEarly).isOk = true := by decide +kernel
  cases hparse : parse endedEarly with
  | error e =>
    rw [hparse] at hok
    cases hok
  | ok root =>
    obtain ⟨-, -, haccepted⟩ := program_lookahead hend
    obtain ⟨-, -, hmore⟩ := haccepted root hparse
    rw [hindex] at hmore
    exact ⟨hend, hindex, root, hparse, hmore⟩

end JsonnetSyntax
