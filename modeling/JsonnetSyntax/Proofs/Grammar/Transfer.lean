import Mathlib.Data.List.Forall2
import JsonnetSyntax.Proofs.Grammar.Placement

/-!
# Reading the same tokens elsewhere

What a rule reads depends on the kinds and texts of the tokens that it takes, not on their places,
and on what follows them only as far as the rule looks ahead.  `Rule.Transfers` says that of a rule:
on tokens that are alike, in front of the same kind of token or of the end of the file, another rule
reads the same value, up to a relation between the values.

## Key results

- `Twin.split`: tokens that are alike can be split at the same place
- `Rule.Transfers.bind`, `Rule.Transfers.bind_of_takes`, `Rule.Transfers.peek_bind`: sequences
- `Rule.Transfers.whileNext`, `Rule.Rounds.transfers`: loops
-/

namespace JsonnetSyntax

/-! ## Tokens that are alike -/

/-- Two tokens that differ in their places only.  The text of an end mark does not matter. -/
structure Token.Alike (t u : Token) : Prop where
  kind : u.kind = t.kind
  data : t.kind ≠ .endOfFile → u.data = t.data
  block : t.kind ≠ .endOfFile → u.block = t.block

/-- All end marks are alike. -/
theorem EndMark.alike (eof eof' : EndMark) : eof.1.Alike eof'.1 :=
  ⟨by simp, fun h => absurd eof.2 h, fun h => absurd eof.2 h⟩

/-- Tokens that are alike are the same operators. -/
theorem Token.Alike.isOperator {t u : Token} (h : t.Alike u) (symbol : String) :
    u.isOperator symbol = t.isOperator symbol := by
  by_cases hkind : t.kind = .operator
  · rw [Token.isOperator, Token.isOperator, h.kind, h.data (by simp [hkind])]
  · simp [Token.isOperator, h.kind, beq_eq_false_iff_ne.mpr hkind]

/-- Between `us` and its end `us'` stand tokens like those between `ts` and its end `ts'`. -/
def Twin (ts ts' us us' : List Token) : Prop :=
  ∃ taken taken', ts = taken ++ ts' ∧ us = taken' ++ us' ∧ List.Forall₂ Token.Alike taken taken'

/-- A rule that stops in front of `ts'` also stops in front of `us'`: the next tokens are alike, or
    both are at the end of the file, or, if the rest may be cut off, `us'` is at the end of the
    file. -/
def Fits (cut : Bool) (ts' us' : List Token) : Prop :=
  us' = [] ∧ (cut = true ∨ ts' = []) ∨ ∃ t ts u us, ts' = t :: ts ∧ us' = u :: us ∧ t.Alike u

section Twin

variable {cut : Bool} {t : Token} {ts mid ts' us us' : List Token}

/-- If nothing is taken on one side, nothing is taken on the other. -/
theorem Twin.eq_end (h : Twin ts' ts' us us') : us = us' := by
  obtain ⟨taken, taken', hts, rfl, halike⟩ := h
  have hnil : taken = [] := List.append_left_eq_self.mp hts.symm
  subst hnil
  cases halike
  rfl

/-- The first token is taken on both sides. -/
theorem Twin.uncons (h : Twin (t :: ts) ts' us us') (hsuffix : ts' <:+ ts) :
    ∃ u us₁, us = u :: us₁ ∧ t.Alike u ∧ Twin ts ts' us₁ us' := by
  obtain ⟨taken, taken', hts, rfl, halike⟩ := h
  cases halike with
  | nil =>
    -- Otherwise nothing would be taken.
    have hlength := hsuffix.length_le
    rw [List.nil_append] at hts
    rw [← hts, List.length_cons] at hlength
    omega
  | @cons t' u taken taken' hhead htail =>
    cases hts
    exact ⟨u, taken' ++ us', rfl, hhead, taken, taken', rfl, rfl, htail⟩

/-- Both sides can be split at the same place. -/
theorem Twin.split (h : Twin ts ts' us us') (hmid : mid <:+ ts) (hend : ts' <:+ mid) :
    ∃ mid', Twin ts mid us mid' ∧ Twin mid ts' mid' us' := by
  obtain ⟨taken, taken', hts, rfl, halike⟩ := h
  -- The tokens taken split where `mid` starts, and so does the list that is like them.
  obtain ⟨front, rfl⟩ := hmid
  obtain ⟨back, rfl⟩ := hend
  rw [← List.append_assoc] at hts
  have htaken := List.append_cancel_right hts
  subst htaken
  have hfront := List.forall₂_take front.length halike
  have hback := List.forall₂_drop front.length halike
  rw [List.take_left] at hfront
  rw [List.drop_left] at hback
  refine ⟨taken'.drop front.length ++ us', ⟨front, _, rfl, ?_, hfront⟩, ⟨back, _, rfl, rfl, hback⟩⟩
  rw [← List.append_assoc, List.take_append_drop]

/-- Where both sides fit at the end, they fit in front of every token that is taken. -/
theorem Fits.of_twin (h : Twin mid ts' us us') (hfits : Fits cut ts' us') : Fits cut mid us := by
  obtain ⟨taken, taken', rfl, rfl, halike⟩ := h
  cases halike with
  | nil => exact hfits
  | cons hhead _ => exact .inr ⟨_, _, _, _, rfl, rfl, hhead⟩

/-- Sides that fit also fit where the rest may be cut off. -/
theorem Fits.loose (h : Fits cut ts' us') : Fits true ts' us' := by
  obtain ⟨rfl, -⟩ | h := h
  · exact .inl ⟨rfl, .inl rfl⟩
  · exact .inr h

/-- In front of a token that is taken later, both sides look the same. -/
theorem Twin.fits_cons (h : Twin (t :: mid) ts' us us') (hsuffix : ts' <:+ mid) :
    Fits false (t :: mid) us := by
  obtain ⟨u, us₁, rfl, halike, -⟩ := h.uncons hsuffix
  exact .inr ⟨_, _, _, _, rfl, rfl, halike⟩

end Twin

namespace Rule

/-- Where `rule` reads a value, `rule'` reads one that is related to it from tokens that are
    alike. -/
structure Transfers {α : Type} (cut : Bool) (R : α → α → Prop) (rule rule' : Rule TokenStream α) :
    Prop where
  read : ∀ {eof eof' : EndMark} {ts ts' us us' : List Token} {value : α}, Twin ts ts' us us' →
    Fits cut ts' us' → rule.Reads eof ts value ts' →
    ∃ value', rule'.Reads eof' us value' us' ∧ R value value'

/-- The two values have the same view. -/
def Same {α γ : Type} (view : α → γ) (value value' : α) : Prop := view value' = view value

/-- The views of two values with the same view are equal. -/
theorem Same.eq {α γ : Type} {view : α → γ} {value value' : α} (h : Same view value value') :
    view value' = view value := h

section Combinators

variable {α β σ : Type} {cut : Bool} {R : α → α → Prop} {S : β → β → Prop}
  {rule rule' : Rule TokenStream α}
  {next next' : α → Rule TokenStream β} {value value' : α}

/-- A rule that transfers in front of a cut transfers in front of the same token. -/
theorem Transfers.strict (h : rule.Transfers true R rule') : rule.Transfers cut R rule' :=
  ⟨fun htwin hfits hread => h.read htwin hfits.loose hread⟩

/-! ## Sequences -/

/-- A value that is given transfers to every value that is related to it. -/
theorem Transfers.pure (h : R value value') :
    (pure value : Rule TokenStream α).Transfers cut R (pure value') := by
  constructor
  intro eof eof' ts ts' us us' out htwin _ hread
  obtain ⟨rfl, rfl⟩ := reads_pure.mp hread
  exact ⟨value', reads_pure.mpr ⟨rfl, htwin.eq_end.symm⟩, h⟩

/-- A rule that fails reads nothing, so there is nothing to transfer. -/
theorem Transfers.fail {fault : GrammarFault} {span : Span} :
    (fail fault span : Rule TokenStream α).Transfers cut R rule' :=
  ⟨fun _ _ hread => absurd hread reads_fail⟩

/-- One part of a reading, and what is left of the tokens on both sides. -/
theorem Transfers.step {eof : EndMark} (eof' : EndMark) {ts mid ts' us us' : List Token}
    (h : rule.Transfers cut R rule') (htwin : Twin ts ts' us us') (hfits : Fits cut ts' us')
    (hread : rule.Reads eof ts value mid) (hend : ts' <:+ mid) :
    ∃ value' mid', rule'.Reads eof' us value' mid' ∧ R value value' ∧ Twin mid ts' mid' us' := by
  obtain ⟨mid', hfront, hback⟩ := htwin.split hread.suffix hend
  obtain ⟨value', hread', hR⟩ : ∃ value', rule'.Reads eof' us value' mid' ∧ R value value' :=
    h.read hfront (hfits.of_twin hback) hread
  exact ⟨value', mid', hread', hR, hback⟩

/-- A sequence transfers if both of its rules do. -/
theorem Transfers.bind (h : rule.Transfers cut R rule')
    (hnext : ∀ value value', R value value' → (next value).Transfers cut S (next' value')) :
    (rule >>= next).Transfers cut S (rule' >>= next') := by
  -- The second rule stops where the whole does; the first one stops at a token taken later.
  constructor
  intro eof eof' ts ts' us us' out htwin hfits hread
  obtain ⟨value, mid, hfirst, hsecond⟩ := reads_bind.mp hread
  obtain ⟨value', mid', hfirst', hR, hrest⟩ := h.step eof' htwin hfits hfirst hsecond.suffix
  obtain ⟨out', hsecond', hS⟩ := (hnext value value' hR).read hrest hfits hsecond
  exact ⟨out', reads_bind.mpr ⟨value', mid', hfirst', hsecond'⟩, hS⟩

/-- The rule takes a token at least. -/
def Takes (rule : Rule TokenStream α) : Prop :=
  ∀ eof ts out ts', rule.Reads eof ts out ts' → ∃ t rest, ts = t :: rest ∧ ts' <:+ rest

/-- Tokens of which the first and more are taken. -/
theorem exists_cons_of_suffix {t : Token} {ts mid ts' : List Token} (h : t :: mid <:+ ts)
    (hend : ts' <:+ mid) :
    ∃ u rest, ts = u :: rest ∧ ts' <:+ rest := by
  cases ts with
  | nil => cases List.suffix_nil.mp h
  | cons u rest =>
    obtain heq | hsuffix := List.suffix_cons_iff.mp h
    · cases heq
      exact ⟨t, mid, rfl, hend⟩
    · exact ⟨u, rest, rfl, hend.trans ((List.suffix_cons ..).trans hsuffix)⟩

/-- A sequence takes a token if its first rule does. -/
theorem Takes.bind_left (h : rule.Takes) : (rule >>= next).Takes := by
  intro eof ts out ts' hread
  obtain ⟨value, mid, hfirst, hsecond⟩ := reads_bind.mp hread
  obtain ⟨t, rest, rfl, hrest⟩ := h eof ts value mid hfirst
  exact ⟨t, rest, rfl, hsecond.suffix.trans hrest⟩

/-- A sequence takes a token if its second rule does. -/
theorem Takes.bind_right (h : ∀ value, (next value).Takes) : (rule >>= next).Takes := by
  intro eof ts out ts' hread
  obtain ⟨value, mid, hfirst, hsecond⟩ := reads_bind.mp hread
  obtain ⟨t, rest, rfl, hrest⟩ := h value eof mid out ts' hsecond
  exact exists_cons_of_suffix hfirst.suffix hrest

/-- A rule whose reading is followed by a token that is taken later looks ahead to this token
    only. -/
theorem Transfers.bind_of_takes (h : rule.Transfers false R rule')
    (hnext : ∀ value value', R value value' → (next value).Transfers cut S (next' value'))
    (htakes : ∀ value, (next value).Takes) :
    (rule >>= next).Transfers cut S (rule' >>= next') := by
  constructor
  intro eof eof' ts ts' us us' out htwin hfits hread
  obtain ⟨value, mid, hfirst, hsecond⟩ := reads_bind.mp hread
  -- The second rule takes the token at which the first one stops, so nothing is cut off there.
  obtain ⟨t, rest, rfl, hsuffix⟩ := htakes value eof mid out ts' hsecond
  obtain ⟨mid', hfront, hback⟩ := htwin.split hfirst.suffix hsecond.suffix
  obtain ⟨value', hfirst', hR⟩ : ∃ value', rule'.Reads eof' us value' mid' ∧ R value value' :=
    h.read hfront (hback.fits_cons hsuffix) hfirst
  obtain ⟨out', hsecond', hS⟩ := (hnext value value' hR).read hback hfits hsecond
  exact ⟨out', reads_bind.mpr ⟨value', mid', hfirst', hsecond'⟩, hS⟩

/-! ## Tokens -/

/-- Taking the next token gives a token that is alike. -/
theorem transfers_pop : pop.Transfers cut Token.Alike pop := by
  constructor
  intro eof eof' ts ts' us us' t htwin hfits hread
  obtain rfl | ⟨rfl, rfl, rfl⟩ := reads_pop.mp hread
  · obtain ⟨u, us₁, rfl, halike, hrest⟩ := htwin.uncons (List.suffix_refl _)
    rw [hrest.eq_end]
    exact ⟨u, reads_pop.mpr (.inl rfl), halike⟩
  · -- The end mark stays on both sides.
    have hus := htwin.eq_end
    obtain ⟨rfl, -⟩ | ⟨_, _, _, _, hcons, -⟩ := hfits
    · exact ⟨eof'.1, reads_pop.mpr (.inr ⟨rfl, hus, rfl⟩), eof.alike eof'⟩
    · cases hcons

/-- A look at the next token.  Where the rest is cut off, it matters only for rules that take
    nothing. -/
theorem Transfers.peek_bind {next next' : Token → Rule TokenStream β}
    (hnext : ∀ t u, t.Alike u → (next t).Transfers cut S (next' u))
    (hcut : cut = true → ∀ {eof eof' t ts out}, (next t).Reads eof (t :: ts) out (t :: ts) →
      ∃ out', (next' eof'.1).Reads eof' [] out' [] ∧ S out out') :
    (peek >>= next).Transfers cut S (peek >>= next') := by
  constructor
  intro eof eof' ts ts' us us' out htwin hfits hread
  rw [reads_peek_bind] at hread
  simp only [reads_peek_bind]
  obtain ⟨hnil, hend⟩ | ⟨t, rest, u, rest', hts, hus, halike⟩ := Fits.of_twin htwin hfits
  · subst hnil
    obtain ⟨taken, taken', rfl, hus, htaken⟩ := htwin
    obtain ⟨rfl, rfl⟩ := List.append_eq_nil_iff.mp hus.symm
    cases htaken
    -- Nothing is taken, and on the other side nothing is left to look at.
    rw [List.nil_append] at hread hend
    cases ts' with
    | nil => exact (hnext _ _ (eof.alike eof')).read ⟨[], [], rfl, rfl, .nil⟩ hfits hread
    | cons t rest =>
      obtain hcutoff | hnil := hend
      · exact hcut hcutoff hread
      · cases hnil
  · subst hts
    subst hus
    exact (hnext t u halike).read htwin hfits hread

/-- A rule that pops a token takes it. -/
theorem not_reads_pop_bind {next : Token → Rule TokenStream β} {eof : EndMark} {t : Token}
    {ts : List Token} {out : β} :
    ¬ (pop >>= next).Reads eof (t :: ts) out (t :: ts) := by
  intro h
  have hlength := (reads_pop_cons_bind.mp h).suffix.length_le
  rw [List.length_cons] at hlength
  omega

/-- An expected token has the same text on both sides. -/
theorem transfers_expect {kind : TokenKind} (hkind : kind ≠ .endOfFile) :
    (expect kind).Transfers cut (Same fun t : Token => t.data) (expect kind) := by
  refine transfers_pop.bind fun found found' halike => ?_
  rw [halike.kind]
  split
  · next hfound => exact Transfers.pure (halike.data (hfound ▸ hkind))
  · exact Transfers.fail

/-- An expected operator is the same operator on both sides. -/
theorem transfers_expectOperator {symbol : String} :
    (expectOperator symbol).Transfers cut Token.Alike (expectOperator symbol) := by
  refine transfers_pop.bind fun found found' halike => ?_
  rw [halike.isOperator]
  split
  · exact Transfers.pure halike
  · exact Transfers.fail

/-- A token is accepted on both sides or on neither. -/
theorem transfers_accept {kind : TokenKind} (hkind : kind ≠ .endOfFile) :
    (accept kind).Transfers cut Eq (accept kind) := by
  unfold accept nextIs
  simp only [bind_assoc, pure_bind]
  refine .peek_bind (fun t u halike => ?_) fun _ eof eof' t ts out hread => ?_
  -- Where the token is not accepted, nothing is taken, and an end mark is not accepted either.
  · rw [halike.kind]
    split
    · exact transfers_pop.bind fun _ _ _ => Transfers.pure rfl
    · exact Transfers.pure rfl
  · split at hread
    · exact absurd hread not_reads_pop_bind
    · obtain ⟨rfl, -⟩ := reads_pure.mp hread
      exact ⟨false, by simp [hkind.symm], rfl⟩

/-! ## The loop -/

/-- A loop goes through the same rounds. -/
theorem Transfers.whileNext {R : σ → σ → Prop} {select select' : Token → Option β}
    {body body' : Token → β → σ → Rule TokenStream σ}
    (hselect : ∀ t u, t.Alike u → select' u = select t)
    (hbody : ∀ t u choice state state', t.Alike u → R state state' →
      (body t choice state).Transfers cut R (body' u choice state'))
    {state state' : σ} (hstate : R state state') :
    (whileNext select body state).Transfers cut R (whileNext select' body' state') := by
  constructor
  intro eof eof' ts ts' us us' out htwin hfits hread
  -- Every round takes a token, so the tokens that are left get fewer.
  induction hn : ts.length using Nat.strongRecOn generalizing state state' ts us with
  | ind n ih =>
    obtain ⟨rfl, rfl, hstop⟩ | ⟨t, rest, choice, after, mid, rfl, hchoice, hround, hloop⟩ :=
      reads_whileNext.mp hread
    · refine ⟨state', reads_whileNext.mpr (.inl ⟨rfl, htwin.eq_end.symm, ?_⟩), hstate⟩
      rw [htwin.eq_end]
      obtain ⟨rfl, -⟩ | ⟨t, rest, u, rest', rfl, rfl, halike⟩ := hfits
      · rfl
      · simpa [hselect t u halike] using hstop
    · have hrest : ts' <:+ rest := hloop.suffix.trans hround.suffix
      obtain ⟨u, us₁, rfl, halike, htwin₁⟩ := htwin.uncons hrest
      obtain ⟨after', mid', hround', hafter, htwin₂⟩ :=
        (hbody t u choice state state' halike hstate).step eof' htwin₁ hfits hround hloop.suffix
      have hshorter : mid.length < n := by
        have hlength := hround.suffix.length_le
        rw [← hn, List.length_cons]
        omega
      obtain ⟨out', hloop', hout⟩ := ih mid.length hshorter hafter htwin₂ hloop rfl
      refine ⟨out', reads_whileNext.mpr (.inr ?_), hout⟩
      exact ⟨u, us₁, choice, after', mid', rfl, by rw [hselect t u halike, hchoice], hround',
        hloop'⟩

/-- Some rounds of a loop are the same rounds on the other side. -/
theorem Rounds.transfers {R : σ → σ → Prop} {select select' : Token → Option β}
    {body body' : Token → β → σ → Rule TokenStream σ} {eof : EndMark} (eof' : EndMark)
    {state state' out : σ} {ts ts' us us' : List Token}
    (hselect : ∀ t u choice, t.Alike u → select t = some choice → select' u = some choice)
    (hbody : ∀ t u choice state state', t.Alike u → R state state' →
      (body t choice state).Transfers cut R (body' u choice state'))
    (hstate : R state state') (h : Rounds select body eof state ts out ts')
    (htwin : Twin ts ts' us us') (hfits : Fits cut ts' us') :
    ∃ out', Rounds select' body' eof' state' us out' us' ∧ R out out' := by
  -- By induction on the rounds, from the last one: the rounds in front end where it starts.
  induction h generalizing us' with
  | start =>
    rw [htwin.eq_end]
    exact ⟨state', .start, hstate⟩
  | @round before after t choice rest mid hbefore hchoice hround ih =>
    -- The last round starts at the same token on both sides.
    have hsuffix : t :: rest <:+ ts := hbefore.suffix
    have hmid : mid <:+ t :: rest := hround.suffix.trans (List.suffix_cons ..)
    obtain ⟨us₁, hfront, hback⟩ := htwin.split hsuffix hmid
    obtain ⟨u, us₂, rfl, halike, hrest⟩ := hback.uncons hround.suffix
    obtain ⟨before', hbefore', hR⟩ := ih hfront (hfits.of_twin hback)
    obtain ⟨after', hround', hR'⟩ :=
      (hbody t u choice before before' halike hR).read hrest hfits hround
    exact ⟨after', hbefore'.round (hselect t u choice halike hchoice) hround', hR'⟩

end Combinators

end Rule

end JsonnetSyntax
