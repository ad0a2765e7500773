import JsonnetSyntax.Proofs.Grammar.OpenOperators
import JsonnetSyntax.Proofs.Grammar.Ranges
import JsonnetSyntax.Proofs.Lexical.Numbers

/-!
# Numbers in trees

A number is the only token whose text decides whether it is an operand, so reading fails over a
number only at a token whose text is no number.  The numbers of a source follow the grammar of
numbers, and all texts of this grammar can be read.  So no source fails over a number behind the
lexer, and every number in the tree is a token of the source, with its text and its place.

## Key results

- `readFloat?_of_isNumber`: numbers can be read
- `Level.obeys_badNumber`: reading fails over a number only at a token whose text is no number
- `Fault.message_ne_badNumber`: no other fault has the message about numbers that cannot be read
- `fault_ne_badNumber`: no source fails because a number cannot be read
- `Level.Builds.fromToken`: a number that is read is one of the tokens
- `numbers_followGrammar`: the numbers of a source and of its tree
-/

namespace JsonnetSyntax

/-! ## Reading numbers -/

namespace Numeral

open Decimal

variable {text whole part rest : List Char}

/-- The part in front of the point is a row of digits. -/
theorem IsInteger.isDigits (h : IsInteger text) : IsDigits text := by
  obtain rfl | ⟨hdigits, -⟩ := h
  · exact isDigits_singleton (by decide)
  · exact hdigits

/-- A row of digits ends in front of a character that is no digit. -/
theorem IsDigits.split (h : IsDigits text) (hrest : ∀ c, rest.head? = some c → c.isDigit = false) :
    (text ++ rest).takeWhile Char.isDigit = text ∧
      (text ++ rest).dropWhile Char.isDigit = rest := by
  obtain ⟨htake, hdrop⟩ := NumeralState.digitRun_of_head hrest
  rw [List.takeWhile_append_of_pos h.2, List.dropWhile_append_of_pos h.2, htake, hdrop]
  exact ⟨List.append_nil _, rfl⟩

/-- A row of digits can be read. -/
theorem isSome_readDigits? (h : IsDigits text) : (readDigits? text).isSome = true := by
  -- `readDigits?` asks for the same two things as `IsDigits`.
  have hall : text.all Char.isDigit = true := List.all_eq_true.mpr h.2
  rw [readDigits?, if_pos ⟨h.1, hall⟩]
  rfl

/-- The digits of an exponent can be read behind either sign and behind none. -/
theorem isSome_readExponent? {sign : List Char} (hsign : sign ∈ [[], ['+'], ['-']])
    (h : IsDigits text) :
    (readExponent? (sign ++ text)).isSome = true := by
  have hread := isSome_readDigits? h
  simp only [List.mem_cons, List.not_mem_nil, or_false] at hsign
  obtain rfl | rfl | rfl := hsign
  · -- The first digit is no sign.
    obtain ⟨c, digits, rfl⟩ := List.exists_cons_of_ne_nil h.1
    obtain ⟨-, -, hc⟩ := NumeralState.ne_of_isDigit (h.2 c (List.mem_cons_self ..))
    rw [not_or] at hc
    rw [List.nil_append, readExponent?.eq_3 _ (by simpa using hc.1) (by simpa using hc.2),
      Option.isSome_map]
    exact hread
  · exact Option.isSome_map.trans hread
  · exact Option.isSome_map.trans hread

/-- An exponent starts with its mark. -/
theorem IsExponent.head (h : IsExponent text) {c : Char} (hc : text.head? = some c) :
    c = 'e' ∨ c = 'E' := by
  obtain rfl | ⟨mark, sign, digits, rfl, hmark, -, -⟩ := h
  · cases hc
  · cases hc
    rwa [List.mem_pair] at hmark

/-- The fraction in front of an exponent. -/
theorem exists_splitFraction (hpart : IsFraction part) (hrest : IsExponent rest) :
    ∃ digits, splitFraction (part ++ rest) = (digits, rest) := by
  have hdigit : ∀ c, rest.head? = some c → c.isDigit = false := by
    intro c hc
    obtain rfl | rfl := hrest.head hc <;> rfl
  obtain rfl | ⟨digits, rfl, hdigits⟩ := hpart
  · refine ⟨[], ?_⟩
    rw [List.nil_append, splitFraction]
    -- No exponent starts with a point.
    rintro text rfl
    obtain hc | hc := hrest.head rfl <;> exact absurd hc (by decide)
  · obtain ⟨htake, hdrop⟩ := hdigits.split hdigit
    refine ⟨digits, ?_⟩
    rw [List.cons_append, splitFraction, htake, hdrop]

/-- What the grammar calls a number can be read: its parts are cut where the grammar cuts them. -/
theorem isSome_read? (h : IsNumber text) : (read? text).isSome = true := by
  obtain ⟨plain, power, rfl, ⟨whole, part, rfl, hwhole, hpart⟩, hpower⟩ := h
  -- Neither a fraction nor an exponent starts with a digit, so the digits in front end there.
  have hdigit : ∀ c, (part ++ power).head? = some c → c.isDigit = false := by
    intro c hc
    obtain rfl | ⟨digits, rfl, -⟩ := hpart
    · obtain rfl | rfl := hpower.head hc <;> rfl
    · cases hc
      rfl
  obtain ⟨htake, hdrop⟩ := hwhole.isDigits.split hdigit
  obtain ⟨digits, hsplit⟩ := exists_splitFraction hpart hpower
  rw [List.append_assoc, read?, htake, hdrop, hsplit]
  dsimp only
  rw [if_neg fun hnil => hwhole.isDigits.1 hnil.1]
  obtain rfl | ⟨mark, sign, digits, rfl, hmark, hsign, hdigits⟩ := hpower
  · -- Without an exponent, the fraction is the end of the text.
    rfl
  · rw [List.mem_pair] at hmark
    rw [List.cons_append]
    dsimp only
    rw [if_pos hmark, Option.isSome_map]
    exact isSome_readExponent? hsign hdigits

/-- A number starts with a digit. -/
theorem IsNumber.head (h : IsNumber text) : ∃ c rest, text = c :: rest ∧ c.isDigit = true := by
  obtain ⟨plain, power, rfl, ⟨whole, part, rfl, hwhole, -⟩, -⟩ := h
  obtain ⟨c, digits, rfl⟩ := List.exists_cons_of_ne_nil hwhole.isDigits.1
  exact ⟨c, digits ++ part ++ power, rfl, hwhole.isDigits.2 c (List.mem_cons_self ..)⟩

end Numeral

/-- Numbers can be read. -/
theorem readFloat?_of_isNumber {text : String} (h : Numeral.IsNumber text.toList) :
    ∃ value, readFloat? text = some value := by
  -- The three special texts can be read as well, so no case has to be excluded here.
  have hmagnitude : (readMagnitude? text.toList).isSome = true := by
    unfold readMagnitude?
    split
    · rfl
    · rfl
    · rfl
    · rw [Option.isSome_map]
      exact Numeral.isSome_read? h
  obtain ⟨c, rest, htext, hc⟩ := h.head
  obtain ⟨-, -, hsign⟩ := NumeralState.ne_of_isDigit hc
  rw [not_or] at hsign
  apply Option.isSome_iff_exists.mp
  unfold readFloat?
  -- A number does not start with a sign.
  split
  · next heq => exact absurd (List.cons.inj (htext.symm.trans heq)).1 hsign.1
  · next heq => exact absurd (List.cons.inj (htext.symm.trans heq)).1 hsign.2
  · exact hmagnitude

/-! ## Failures over numbers -/

/-- Reading fails over a number only where a token that is a number cannot be read. -/
def FailureLaw.badNumber : FailureLaw where
  Holds s failure _ :=
    s.eof.kind = .endOfFile → failure.error.fault = .grammar .badNumber →
      ∃ t ∈ s.ahead, t.kind = .number ∧ readFloat? t.data = none
  fault := by
    intro s fault span hfault _ hbad
    cases hbad
    exact absurd .badNumber hfault
  later := by
    intro s mid failure rest hmid hholds heof hbad
    obtain ⟨t, ht, hnumber⟩ := hholds (by rw [hmid.eof]; exact heof) hbad
    exact ⟨t, hmid.ahead.subset ht, hnumber⟩

namespace Level

open Rule

/-- Reading fails over a number only where a token that is a number cannot be read, on all
    levels. -/
theorem obeys_badNumber (n : Nat) :
    (∀ precedence, ((upTo n).expr precedence).Obeys .badNumber) ∧
      (unary (upTo n)).Obeys .badNumber := by
  have hlater : ∀ {s failure rest}, FailureLaw.badNumber.Holds s.skip failure rest →
      FailureLaw.badNumber.Holds s failure rest :=
    fun hholds => FailureLaw.later _ (TokenStream.skip_isRestOf _) hholds
  have hnumber : ∀ {s : TokenStream}, s.next.kind = .number → readFloat? s.next.data = none →
      FailureLaw.badNumber.Holds s { error := ⟨.grammar .badNumber, s.next.span⟩ } s.skip := by
    intro s hkind hvalue heof _
    obtain ⟨ahead, eof⟩ := s
    cases ahead with
    | nil =>
      -- The end mark is no number.
      rw [show eof.kind = .number from hkind] at heof
      cases heof
    | cons t ahead => exact ⟨t, List.mem_cons_self .., hkind, hvalue⟩
  -- By induction on the levels, both halves together: a unary operand is read on the level below.
  induction n with
  | zero =>
    have hzero : (tooDeep : Rule TokenStream Expr).Obeys .badNumber := by
      constructor
      intro s failure rest hfailed _ hbad
      obtain ⟨rfl, rfl⟩ := failed_tooDeep hfailed
      cases hbad
    refine ⟨fun _ => hzero, failsIn_unary hlater hnumber (fun _ => hzero) ?_⟩
    intro s failure rest op _ _ hfailed
    have hholds := hzero.failed hfailed
    exact hlater hholds
  | succ n ih =>
    have hexpr : ∀ precedence, ((upTo (n + 1)).expr precedence).Obeys .badNumber :=
      fun precedence => failsIn_expression hlater ih.1 ih.2
    refine ⟨hexpr, failsIn_unary hlater hnumber hexpr ?_⟩
    -- Counting the open operators does not change the error.
    intro s failure rest op _ _ hfailed
    obtain ⟨inner, hinner, rfl⟩ := failed_countUnary hfailed
    have hholds := (failsIn_unaryOperand hlater ih.1 ih.2).failed hinner
    exact hlater hholds

end Level

/-- A program fails over a number only if one of its tokens is a number that cannot be read. -/
theorem exists_badNumber_of_parse {tokens : List Token} {e : Error} (h : parse tokens = .error e)
    (hbad : e.fault = .grammar .badNumber) :
    ∃ t ∈ tokens, t.kind = .number ∧ readFloat? t.data = none := by
  -- The failing parse is a failing run of the program's rule, which obeys the law.
  obtain ⟨openUnary, rest, houtcome⟩ := exists_failed_of_parse h
  have hobeys := Rule.obeys_program (Level.obeys_badNumber maxNesting).1
  obtain ⟨t, ht, hnumber⟩ := hobeys.failed houtcome (EndMark.ofTokens tokens).2 hbad
  exact ⟨t, (List.takeWhile_prefix _).subset ht, hnumber⟩

/-- A text with another front is another text. -/
theorem append_ne_of_not_isPrefix {front whole : List Char} {text : String}
    (h : ¬ front <+: whole) :
    String.ofList front ++ text ≠ String.ofList whole := by
  intro heq
  have hlist := congrArg String.toList heq
  rw [String.toList_append, String.toList_ofList, String.toList_ofList] at hlist
  exact h ⟨_, hlist⟩

/-- No message of the lexer is the one about numbers that cannot be read. -/
theorem LexicalFault.message_ne_badNumber (fault : LexicalFault) :
    fault.message ≠ "Could not parse floating point number." := by
  -- The first characters of each message tell it from the other; so they are all that is compared.
  unfold message
  cases fault with
  | strayCharacter c => exact append_ne_of_not_isPrefix (by decide)
  | brokenNumber part found =>
    simp only [String.append_assoc]
    exact append_ne_of_not_isPrefix (by decide)
  | openString => decide
  | openComment => decide
  | badBlock fault => cases fault <;> decide

/-- The message about numbers that cannot be read is that of no other fault. -/
theorem GrammarFault.message_ne_badNumber {fault : GrammarFault} (h : fault ≠ .badNumber) :
    fault.message ≠ "Could not parse floating point number." := by
  unfold message
  cases fault with
  | badNumber => exact absurd rfl h
  | missingComma item => cases item <;> decide
  | notAName => decide
  | unexpectedEnd => decide
  | bareSuper => decide
  | computedImport => decide
  | badComprehension fault => cases fault <;> decide
  | _ =>
    -- The fixed front of the message is another one.
    simp only [String.append_assoc]
    exact append_ne_of_not_isPrefix (by decide)

/-- No message but that of its own fault is the one about numbers that cannot be read. -/
theorem Fault.message_ne_badNumber {fault : Fault} (h : fault ≠ .grammar .badNumber) :
    fault.message ≠ "Could not parse floating point number." := by
  cases fault with
  | lexical fault => exact fault.message_ne_badNumber
  | grammar fault =>
    exact GrammarFault.message_ne_badNumber fun hbad => h (congrArg Fault.grammar hbad)

/-- Lexing fails by faults of the lexer only. -/
theorem exists_lexical_of_lex {file source : String} {e : Error} (h : lex file source = .error e) :
    ∃ fault, e.fault = .lexical fault := by
  simp only [lex] at h
  split at h
  · cases h
  · cases h
    exact ⟨_, rfl⟩

/-- No source fails because a number cannot be read. -/
theorem fault_ne_badNumber {file source : String} {e : Error}
    (h : parseSource file source = .error e) :
    e.fault ≠ .grammar .badNumber := by
  intro hbad
  cases hlex : lex file source with
  | error fault =>
    rw [parseSource, hlex] at h
    cases h
    obtain ⟨fault, hfault⟩ := exists_lexical_of_lex hlex
    cases hfault.symm.trans hbad
  | ok tokens =>
    rw [parseSource, hlex] at h
    -- The token that could not be read follows the grammar of numbers, and those can be read.
    obtain ⟨t, ht, hkind, hvalue⟩ := exists_badNumber_of_parse h hbad
    obtain ⟨value, hread⟩ := readFloat?_of_isNumber (isNumber_of_lex hlex ht hkind)
    cases hread.symm.trans hvalue

/-! ## Numbers in trees -/

/-- If the expression is a number, it is one of the tokens, with its text and its place. -/
def FromToken (ts : List Token) (e : Expr) : Prop :=
  ∀ value spelling, e.shape = .number value spelling →
    ∃ t ∈ ts, t.kind = .number ∧ t.data = spelling ∧ t.span = e.span

/-- A number that is one of some tokens is one of more tokens. -/
theorem FromToken.mono {ts ts' : List Token} {e : Expr} (h : FromToken ts e) (hsub : ts ⊆ ts') :
    FromToken ts' e := by
  intro value spelling hshape
  obtain ⟨t, ht, hnumber⟩ := h value spelling hshape
  exact ⟨t, hsub ht, hnumber⟩

namespace Rule

variable {full : Rule TokenStream Expr} {g : Level TokenStream} {eof : EndMark}
  {ts ts' : List Token} {out : Expr}

/-- A construct that is no number. -/
theorem fromToken_of_ne {span : Span} {shape : Shape Expr}
    (h : ∀ value spelling, shape ≠ .number value spelling) : FromToken ts (.node span shape) :=
  fun value spelling hshape => absurd hshape (h value spelling)

/-- An object is no number. -/
theorem fromToken_object {opening : Span} {own : List Token}
    (h : (object full opening).Reads eof ts out ts') :
    FromToken own out := by
  obtain ⟨members, trailingComma, mid, -, t, rest, -, ⟨-, -, rfl⟩ | ⟨-, hcomp⟩⟩ := reads_object.mp h
  · exact fromToken_of_ne (by simp)
  · obtain ⟨-, cs, closing, -, rfl⟩ := reads_objectComp.mp hcomp
    exact fromToken_of_ne (by simp)

/-- A number that is read as an operand is the token at the front. -/
theorem fromToken_terminal (h : (terminal full).Reads eof ts out ts') : FromToken ts out := by
  obtain ⟨t, rest, rfl, ⟨shape, hshape, rfl, -⟩ | ⟨-, hsuper⟩⟩ := reads_terminal.mp h
  · rintro value spelling rfl
    refine ⟨t, List.mem_cons_self .., ?_⟩
    -- Of the tokens that are operands, only the number has the shape of a number.
    unfold terminalShape? at hshape
    split at hshape
    · next hkind =>
      obtain ⟨read, -, heq⟩ := Option.map_eq_some_iff.mp hshape
      cases heq
      exact ⟨hkind, rfl, rfl⟩
    all_goals cases hshape
  · obtain ⟨t', rest', -, selector, last, -, rfl⟩ := reads_superIndex.mp hsuper
    exact fromToken_of_ne (by simp)

/-- A number is a token of its own or stands in parentheses. -/
theorem fromToken_primary (hfull : ∀ {ts e ts'}, full.Reads eof ts e ts' → FromToken ts e)
    (h : (primary full).Reads eof ts out ts') : FromToken ts out := by
  obtain ⟨t, rest, rfl, ⟨-, hobject⟩ | ⟨-, harray⟩ | ⟨-, hparen⟩⟩ | ⟨-, -, -, hterminal⟩ :=
    reads_primary.mp h
  · exact fromToken_object hobject
  · obtain ⟨list, -, rfl⟩ | ⟨first, mid, -, comma, mid', -, found, rest, -, -, cs, closing, -,
        rfl⟩ :=
      harray.array_cases
    · exact fromToken_of_ne (by simp)
    · exact fromToken_of_ne (by simp)
  · -- What stands in parentheses is read one level further down.
    obtain ⟨mid, hinner, -⟩ := reads_parenthesised.mp hparen
    exact (hfull hinner).mono (List.subset_cons_self ..)
  · exact fromToken_terminal hterminal

/-- What a suffix makes of its target is no number. -/
theorem fromToken_suffix {start : Span} {opening : Token} {kind : Suffix} {target : Expr}
    {own : List Token} (h : (suffix full start opening kind target).Reads eof ts out ts') :
    FromToken own out := by
  obtain ⟨selector, last, -, rfl⟩ | ⟨-, list, mid, -, tailStrict, -, rfl⟩ | ⟨-, right, -, rfl⟩ :=
    reads_suffix.mp h
  · exact fromToken_of_ne (by simp)
  · exact fromToken_of_ne (by simp)
  · exact fromToken_of_ne (by simp)

/-- An operand that is a number has no suffixes. -/
theorem fromToken_operand (hfull : ∀ {ts e ts'}, full.Reads eof ts e ts' → FromToken ts e)
    (h : (operand full).Reads eof ts out ts') : FromToken ts out := by
  obtain ⟨first, mid, hfirst, hsuffixes⟩ := reads_operand.mp h
  have hloop :=
    hsuffixes.whileNext_induction (fun e _ => FromToken ts e) (fromToken_primary hfull hfirst) ?_
  · exact hloop.1
  · intro opening rest kind before after mid' _ hround _
    exact fromToken_suffix hround

/-- What a keyword leads is no number. -/
theorem fromToken_ledBy {form : Rule TokenStream Expr}
    (hform : ledBy? full (eof.next ts).kind = some form) (h : form.Reads eof ts out ts') :
    FromToken ts out := by
  -- Each round of suffixes gives a construct, so only the operand in front can be a number.
  cases ts with
  | nil => simp [ledBy?] at hform
  | cons t ts =>
    rw [EndMark.next_cons] at hform
    -- One case for each keyword, in the order of `ledBy?`.
    unfold ledBy? at hform
    split at hform <;> cases hform
    · obtain ⟨cond, message, mid, -, semicolon, mid', -, -, rest, -, rfl⟩ := reads_assertForm.mp h
      exact fromToken_of_ne (by simp)
    · obtain ⟨message, -, rfl⟩ := reads_errorForm.mp h
      exact fromToken_of_ne (by simp)
    · obtain ⟨cond, mid, -, t', mid', -, -, whenTrue, after, -,
        ⟨t'', rest, -, -, whenFalse, -, rfl⟩ |
        ⟨-, rfl, -⟩⟩ := reads_conditionalForm.mp h
      · exact fromToken_of_ne (by simp)
      · exact fromToken_of_ne (by simp)
    · obtain ⟨opening, mid, -, -, ps, mid', -, body, -, rfl⟩ := reads_functionForm.mp h
      exact fromToken_of_ne (by simp)
    · obtain ⟨file, -, name, -, rfl⟩ := reads_importForm.mp h
      exact fromToken_of_ne (by simp)
    · obtain ⟨file, -, name, -, rfl⟩ := reads_importForm.mp h
      exact fromToken_of_ne (by simp)
    · obtain ⟨bs, mid, -, semicolon, rest, -, -, body, -, rfl⟩ := reads_localForm.mp h
      exact fromToken_of_ne (by simp)

/-- An expression behind a unary operator is no number. -/
theorem fromToken_unary (hfull : ∀ {ts e ts'}, g.full.Reads eof ts e ts' → FromToken ts e)
    (h : (unary g).Reads eof ts out ts') : FromToken ts out := by
  obtain ⟨t, rest, -, -, op, -, e, -, rfl⟩ | ⟨-, hoperand⟩ := reads_unary.mp h
  · exact fromToken_of_ne (by simp)
  · exact fromToken_operand hfull hoperand

/-- A binary operation is no number. -/
theorem fromToken_chainRound {start : Span} {t : Token} {op : BinaryOp} {left : Expr}
    {own : List Token} (h : (chainRound g start t op left).Reads eof ts out ts') :
    FromToken own out := by
  obtain ⟨right, -, rfl⟩ := reads_chainRound.mp h
  exact fromToken_of_ne (by simp)

/-- An expression that is a number is a single operand without operators. -/
theorem fromToken_expression (hfull : ∀ {ts e ts'}, g.full.Reads eof ts e ts' → FromToken ts e)
    {precedence : Precedence} (h : (expression g precedence).Reads eof ts out ts') :
    FromToken ts out := by
  obtain ⟨form, hform, hread⟩ | ⟨-, left, mid, hleft, hchain⟩ := reads_expression.mp h
  · exact fromToken_ledBy hform hread
  · obtain ⟨hrounds, -⟩ := reads_binaryChain.mp hchain
    -- Each round of the chain gives a binary operation, so only the operand in front can be a
    -- number.
    have hloop :=
      hrounds.whileNext_induction (fun e _ => FromToken ts e) (fromToken_unary hfull hleft) ?_
    · exact hloop.1
    · intro t rest op before after mid' _ hround _
      have hread : (chainRound g (eof.next ts).span t op before).Reads eof rest after mid' := hround
      exact fromToken_chainRound hread

end Rule

namespace Level

open Rule

variable {eof : EndMark} {ts ts' : List Token} {e : Expr}

/-- A number that a level reads is one of the tokens. -/
theorem fromToken_upTo {n : Nat} {precedence : Precedence}
    (h : ((upTo n).expr precedence).Reads eof ts e ts') :
    FromToken ts e := by
  induction n generalizing precedence ts e ts' with
  | zero => exact absurd h reads_exhausted_expr
  | succ n ih => exact fromToken_expression ih (reads_deepen_expr.mp h)

/-- A number that is built on a level is one of the tokens. -/
theorem Builds.fromToken {n : Nat} (h : (upTo n).Builds eof ts e ts') : FromToken ts e := by
  cases h with
  | form hform hread => exact fromToken_ledBy hform hread
  | operand hfirst hrounds =>
    cases hrounds with
    | start => exact fromToken_primary fromToken_upTo hfirst
    | round _ _ hbody => exact fromToken_suffix hbody
  | chain hleft hrounds =>
    cases hrounds with
    | start => exact fromToken_unary fromToken_upTo hleft
    | round _ _ hbody => exact fromToken_chainRound hbody

end Level

/-- The numbers in the tree of a program are tokens of the program. -/
theorem fromToken_of_parse {tokens : List Token} {root n : Expr} (h : parse tokens = .ok root)
    (hn : n.IsWithin root) : FromToken tokens n := by
  obtain ⟨front, own, behind, htokens, hplaced⟩ := exists_placed_of_parse h hn
  -- Every node of a tree was built by some level from tokens of its own.
  obtain ⟨depth, -, eof, back, ts', rfl, -, hbuilds⟩ := hplaced.known
  refine hbuilds.fromToken.mono fun t ht => ?_
  have hahead : t ∈ tokensAhead tokens := by
    rw [htokens, List.append_assoc]
    rw [List.append_assoc] at ht
    exact List.mem_append_right _ ht
  exact (List.takeWhile_prefix _).subset hahead

open Numeral in
/-- The numbers of a source follow the grammar.  Where the text that is left starts with a digit,
    lexing emits the longest number at its front, unless what follows goes on with it: then lexing
    fails where this breaks off.  So every number token has the form of a number, no source fails
    because a number cannot be read, and the numbers in the tree have the texts and the places of
    number tokens. -/
theorem numbers_followGrammar (file source : String) :
    (∀ before c text, Cuts source.toList before (c :: text) → c.isDigit = true →
      ∃ number rest, c :: text = number ++ rest ∧ IsLongestFront IsNumber (c :: text) number ∧
        (GoesOn number rest → ∃ read message, BreaksOff rest read message ∧
          FailsBehind file source (Cut.written before ++ (number ++ read)) message) ∧
        (¬ GoesOn number rest → Emits file source before ⟨.number, String.ofList number⟩ rest)) ∧
    (∀ tokens, lex file source = .ok tokens → ∀ t ∈ tokens, t.kind = .number →
      IsNumber t.data.toList) ∧
    (∀ e, parseSource file source = .error e →
      e.fault.message ≠ "Could not parse floating point number.") ∧
    (∀ root, parseSource file source = .ok root → ∃ tokens, lex file source = .ok tokens ∧
      ∀ n : Expr, n.IsWithin root → ∀ value spelling, n.shape = .number value spelling →
        ∃ t ∈ tokens, t.kind = .number ∧ t.data = spelling ∧ t.span = n.span) := by
  refine ⟨fun before c text h hdigit => lex_digit h hdigit,
    fun tokens hlex t ht => isNumber_of_lex hlex ht, fun e he =>
    Fault.message_ne_badNumber (fault_ne_badNumber he), ?_⟩
  intro root hroot
  obtain ⟨tokens, hlex, hparse⟩ := exists_tokens_of_parseSource hroot
  exact ⟨tokens, hlex, fun n hn => fromToken_of_parse hparse hn⟩

open Numeral in
/-- A zero in front of digits is a number of its own, and what follows breaks off; a source with a
    number. -/
theorem numbers_followGrammar_sample :
    (∃ number rest, "01.e".toList = number ++ rest ∧ IsLongestFront IsNumber "01.e".toList number ∧
      (GoesOn number rest → ∃ read message, BreaksOff rest read message ∧
        FailsBehind "sample" "01.e" (number ++ read) message) ∧
      (¬ GoesOn number rest → Emits "sample" "01.e" [] ⟨.number, String.ofList number⟩ rest)) ∧
    ∃ root, parseSource "sample" "-(1.5e+3)" = .ok root ∧
      ∀ n : Expr, n.IsWithin root → ∀ value spelling, n.shape = .number value spelling →
        ∃ t : Token, t.kind = .number ∧ t.data = spelling ∧ t.span = n.span := by
  constructor
  · obtain ⟨hdigit, -⟩ := numbers_followGrammar "sample" "01.e"
    exact hdigit [] '0' "1.e".toList (.nil _) rfl
  · obtain ⟨-, -, -, htree⟩ := numbers_followGrammar "sample" "-(1.5e+3)"
    have hok : (parseSource "sample" "-(1.5e+3)").isOk = true := by decide +kernel
    cases h : parseSource "sample" "-(1.5e+3)" with
    | error e => simp [h, Except.isOk, Except.toBool] at hok
    | ok root =>
      obtain ⟨tokens, -, hnumbers⟩ := htree root h
      refine ⟨root, rfl, fun n hn value spelling hshape => ?_⟩
      obtain ⟨t, -, ht⟩ := hnumbers n hn value spelling hshape
      exact ⟨t, ht⟩

end JsonnetSyntax
