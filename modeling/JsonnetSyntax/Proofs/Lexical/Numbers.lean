import Mathlib.Tactic.IntervalCases
import JsonnetSyntax.Proofs.Lexical.NumeralStates
import JsonnetSyntax.Proofs.Lexical.NextLexeme

/-!
# Which texts are numbers

`Numeral.IsNumber` is the grammar of numbers, stated without the scanner: an integer without leading
zeros, an optional fraction and an optional exponent.  The places inside a number follow this
grammar: the texts that lead to a place are those with the form of the place, the numbers are the
texts that lead to a place at which a number can end, and the texts that can still become a number
are those that lead anywhere.  The scanner goes on as long as it gets anywhere, so it takes the
longest of these texts.

## Key results

- `NumeralState.form_of_reach?`: the texts that lead to a place
- `Numeral.isNumber_iff`, `Numeral.extendable_iff`: numbers, and what can become one
- `Numeral.exists_scan`: the scanner takes the longest text that can become a number
- `Numeral.exists_longest`: the longest number at the front of a text, and what follows it
- `lex_digit`: how lexing goes on at a digit
- `isNumber_of_lex`: the numbers of a source follow the grammar
-/

namespace JsonnetSyntax

namespace Numeral

/-! ## The grammar of numbers -/

/-- One or more digits. -/
def IsDigits (text : List Char) : Prop := text ≠ [] ∧ ∀ c ∈ text, c.isDigit = true

/-- A zero, or digits that do not start with one. -/
def IsInteger (text : List Char) : Prop := text = ['0'] ∨ IsDigits text ∧ text.head? ≠ some '0'

/-- A point and digits, or nothing. -/
def IsFraction (text : List Char) : Prop :=
  text = [] ∨ ∃ digits, text = '.' :: digits ∧ IsDigits digits

/-- An `e`, an optional sign and digits, or nothing. -/
def IsExponent (text : List Char) : Prop :=
  text = [] ∨ ∃ mark sign digits, text = mark :: sign ++ digits ∧ mark ∈ ['e', 'E'] ∧
    sign ∈ [[], ['+'], ['-']] ∧ IsDigits digits

/-- An integer with an optional fraction. -/
def IsPlain (text : List Char) : Prop :=
  ∃ whole part, text = whole ++ part ∧ IsInteger whole ∧ IsFraction part

/-- An integer with an optional fraction and an optional exponent. -/
def IsNumber (text : List Char) : Prop :=
  ∃ plain power, text = plain ++ power ∧ IsPlain plain ∧ IsExponent power

/-- A text that can still become a number. -/
def Extendable (text : List Char) : Prop := ∃ more, IsNumber (text ++ more)

/-- An integer is a number without a fraction and without an exponent. -/
theorem IsInteger.isPlain {text : List Char} (h : IsInteger text) : IsPlain text :=
  ⟨text, [], by simp, h, .inl rfl⟩

/-- A number without an exponent is a number. -/
theorem IsPlain.isNumber {text : List Char} (h : IsPlain text) : IsNumber text :=
  ⟨text, [], by simp, h, .inl rfl⟩

/-- A number can become a number: it is one. -/
theorem IsNumber.extendable {text : List Char} (h : IsNumber text) : Extendable text :=
  ⟨[], by rwa [List.append_nil]⟩

/-- One digit is a row of digits. -/
theorem isDigits_singleton {c : Char} (h : c.isDigit = true) : IsDigits [c] := by
  refine ⟨List.cons_ne_nil _ _, fun d hd => ?_⟩
  rw [List.mem_singleton] at hd
  rwa [hd]

/-- A row of digits goes on with a digit. -/
theorem IsDigits.concat {text : List Char} (h : IsDigits text) {c : Char} (hc : c.isDigit = true) :
    IsDigits (text ++ [c]) := by
  refine ⟨by simp, fun d hd => ?_⟩
  rw [List.mem_append, List.mem_singleton] at hd
  obtain hd | rfl := hd
  · exact h.2 d hd
  · exact hc

end Numeral

/-! ## The texts that lead to a place -/

namespace NumeralState

open Numeral

variable {state next : NumeralState} {text rest : List Char} {c : Char}

/-- Where a text leads that a number may start with. -/
def reach? : List Char → Option NumeralState
  | [] => none
  | c :: text => (first? c).bind fun state => text.foldlM next? state

/-- The texts with the form of a place. -/
def Form (text : List Char) : NumeralState → Prop
  | zero => text = ['0']
  | integer => IsDigits text ∧ text.head? ≠ some '0'
  | point => ∃ whole, text = whole ++ ['.'] ∧ IsInteger whole
  | fraction => ∃ whole digits, text = whole ++ '.' :: digits ∧ IsInteger whole ∧ IsDigits digits
  | exponentMark => ∃ plain mark, text = plain ++ [mark] ∧ IsPlain plain ∧ mark ∈ ['e', 'E']
  | exponentSign =>
    ∃ plain mark sign, text = plain ++ [mark, sign] ∧ IsPlain plain ∧ mark ∈ ['e', 'E'] ∧
      sign ∈ ['+', '-']
  | exponent => ∃ plain mark sign digits, text = plain ++ (mark :: sign ++ digits) ∧ IsPlain plain ∧
      mark ∈ ['e', 'E'] ∧ sign ∈ [[], ['+'], ['-']] ∧ IsDigits digits

/-- A longer text leads on from the place to which its front leads. -/
theorem reach?_append (h : reach? text = some state) (more : List Char) :
    reach? (text ++ more) = more.foldlM next? state := by
  cases text with
  | nil => cases h
  | cons c text =>
    obtain ⟨start, hfirst, hmore⟩ := Option.bind_eq_some_iff.mp h
    rw [List.cons_append, reach?, hfirst, Option.bind_some, List.foldlM_append, hmore]
    rfl

/-- The character behind a text leads on from the place that the text leads to. -/
theorem reach?_concat (htext : text ≠ []) :
    reach? (text ++ [c]) = (reach? text).bind (next? · c) := by
  obtain ⟨d, text, rfl⟩ := List.exists_cons_of_ne_nil htext
  rw [List.cons_append, reach?, reach?]
  cases first? d with
  | none => rfl
  | some start =>
    rw [Option.bind_some, Option.bind_some, List.foldlM_append]
    simp

/-- Behind an integer or a fraction, what was read is a number without an exponent. -/
theorem isPlain_of_form (hstate : state = zero ∨ state = integer ∨ state = fraction)
    (h : Form text state) :
    IsPlain text := by
  obtain rfl | rfl | rfl := hstate
  · exact IsInteger.isPlain (.inl h)
  · exact IsInteger.isPlain (.inr h)
  · obtain ⟨whole, digits, rfl, hwhole, hdigits⟩ := h
    exact ⟨whole, '.' :: digits, rfl, hwhole, .inr ⟨digits, rfl, hdigits⟩⟩

/-- The first character leads to a place with its form. -/
theorem form_of_first (h : first? c = some state) : Form [c] state := by
  unfold first? at h
  split_ifs at h with hzero hdigit <;> cases h
  -- A first zero is a place of its own: no digit may follow it.
  · exact congrArg (fun d => [d]) hzero
  · exact ⟨isDigits_singleton hdigit, by simpa using hzero⟩

/-- One character more: the form of the next place. -/
theorem form_of_next (hform : Form text state) (h : state.next? c = some next) :
    Form (text ++ [c]) next := by
  -- A point, an exponent mark and a digit lead on, each from the places that the grammar allows.
  have hplain := fun hstate => isPlain_of_form hstate hform
  cases state with
  | zero =>
    simp only [next?] at h
    split_ifs at h with hpoint hmark <;> cases h
    · exact ⟨text, by rw [hpoint], .inl hform⟩
    · exact ⟨text, c, rfl, hplain (by simp), by simpa using hmark⟩
  | integer =>
    simp only [next?] at h
    split_ifs at h with hpoint hmark hdigit <;> cases h
    · exact ⟨text, by rw [hpoint], .inr hform⟩
    · exact ⟨text, c, rfl, hplain (by simp), by simpa using hmark⟩
    · refine ⟨hform.1.concat hdigit, ?_⟩
      rw [List.head?_append_of_ne_nil _ hform.1.1]
      exact hform.2
  | point =>
    simp only [next?] at h
    split_ifs at h with hdigit
    cases h
    obtain ⟨whole, rfl, hwhole⟩ := hform
    exact ⟨whole, [c], by simp, hwhole, isDigits_singleton hdigit⟩
  | fraction =>
    simp only [next?] at h
    split_ifs at h with hmark hdigit <;> cases h
    · exact ⟨text, c, rfl, hplain (by simp), by simpa using hmark⟩
    · obtain ⟨whole, digits, rfl, hwhole, hdigits⟩ := hform
      exact ⟨whole, digits ++ [c], by simp, hwhole, hdigits.concat hdigit⟩
  | exponentMark =>
    simp only [next?] at h
    obtain ⟨plain, mark, rfl, hplain, hmark⟩ := hform
    split_ifs at h with hsign hdigit <;> cases h
    · exact ⟨plain, mark, c, by simp, hplain, hmark, by simpa using hsign⟩
    · exact ⟨plain, mark, [], [c], by simp, hplain, hmark, by simp, isDigits_singleton hdigit⟩
  | exponentSign =>
    simp only [next?] at h
    split_ifs at h with hdigit
    cases h
    obtain ⟨plain, mark, sign, rfl, hplain, hmark, hsign⟩ := hform
    exact ⟨plain, mark, [sign], [c], by simp, hplain, hmark, by simpa using hsign,
      isDigits_singleton hdigit⟩
  | exponent =>
    simp only [next?] at h
    split_ifs at h with hdigit
    cases h
    obtain ⟨plain, mark, sign, digits, rfl, hplain, hmark, hsign, hdigits⟩ := hform
    exact ⟨plain, mark, sign, digits ++ [c], by simp, hplain, hmark, hsign, hdigits.concat hdigit⟩

/-- A text that leads to a place has the form of the place. -/
theorem form_of_reach? (h : reach? text = some state) : Form text state := by
  -- By induction from the last character, which is the one that led to the place.
  induction text using List.reverseRecOn generalizing state with
  | nil => cases h
  | append_singleton text c ih =>
    cases text with
    | nil =>
      obtain ⟨start, hfirst, hstate⟩ := Option.bind_eq_some_iff.mp h
      cases hstate
      exact form_of_first hfirst
    | cons d text =>
      rw [reach?_concat (List.cons_ne_nil _ _)] at h
      obtain ⟨start, hstart, hnext⟩ := Option.bind_eq_some_iff.mp h
      exact form_of_next (ih hstart) hnext

/-- No digit is a point, a sign or an exponent mark. -/
theorem ne_of_isDigit (h : c.isDigit = true) :
    c ≠ '.' ∧ ¬ (c = 'e' ∨ c = 'E') ∧ ¬ (c = '+' ∨ c = '-') := by
  refine ⟨?_, ?_, ?_⟩
  · rintro rfl
    exact absurd h (by decide)
  · rintro (rfl | rfl) <;> exact absurd h (by decide)
  · rintro (rfl | rfl) <;> exact absurd h (by decide)

/-- Where a digit leads from every place but behind a leading zero. -/
def afterDigit : NumeralState → NumeralState
  | zero | integer => integer
  | point | fraction => fraction
  | exponentMark | exponentSign | exponent => exponent

/-- A digit leads on from every place but behind a leading zero. -/
theorem next?_digit (hstate : state ≠ zero) (h : c.isDigit = true) :
    state.next? c = some state.afterDigit := by
  obtain ⟨hpoint, hmark, hsign⟩ := ne_of_isDigit h
  cases state with
  | zero => exact absurd rfl hstate
  | _ => simp [next?, afterDigit, h, hpoint, hmark, hsign]

/-- More digits stay where the first one leads. -/
theorem foldlM_digits (hstate : state ≠ zero) (h : IsDigits text) :
    text.foldlM next? state = some state.afterDigit := by
  obtain ⟨hne, hdigits⟩ := h
  -- By induction on the digits: behind the first one, the place does not change any more.
  induction text generalizing state with
  | nil => exact absurd rfl hne
  | cons c text ih =>
    rw [List.forall_mem_cons] at hdigits
    rw [List.foldlM_cons, next?_digit hstate hdigits.1]
    cases text with
    | nil => rfl
    | cons d text =>
      have hstay : state.afterDigit ≠ zero ∧ state.afterDigit.afterDigit = state.afterDigit := by
        cases state <;> exact ⟨nofun, rfl⟩
      have hrest := ih hstay.1 (List.cons_ne_nil _ _) hdigits.2
      rw [hstay.2] at hrest
      exact hrest

/-- An integer leads behind a zero or into the digits of an integer. -/
theorem exists_reach?_of_isInteger (h : IsInteger text) :
    ∃ state, reach? text = some state ∧ (state = zero ∨ state = integer) := by
  obtain rfl | ⟨⟨hne, hdigits⟩, hzero⟩ := h
  · exact ⟨zero, rfl, .inl rfl⟩
  -- An integer that starts with no zero leads into its digits with the first of them.
  · obtain ⟨c, text, rfl⟩ := List.exists_cons_of_ne_nil hne
    rw [List.forall_mem_cons] at hdigits
    have hfirst : first? c = some integer := by
      rw [first?, if_neg (by simpa using hzero), if_pos hdigits.1]
    refine ⟨integer, ?_, .inr rfl⟩
    rw [reach?, hfirst, Option.bind_some]
    cases text with
    | nil => rfl
    | cons d text => exact foldlM_digits (by simp) ⟨List.cons_ne_nil _ _, hdigits.2⟩

/-- Behind an integer, a point leads on. -/
theorem reach?_point (h : IsInteger text) : reach? (text ++ ['.']) = some point := by
  obtain ⟨state, hreach, hstate⟩ := exists_reach?_of_isInteger h
  rw [reach?_append hreach]
  obtain rfl | rfl := hstate <;> rfl

/-- A number without an exponent leads to a place at which it can end. -/
theorem exists_reach?_of_isPlain (h : IsPlain text) :
    ∃ state, reach? text = some state ∧ (state = zero ∨ state = integer ∨ state = fraction) := by
  obtain ⟨whole, part, rfl, hwhole, rfl | ⟨digits, rfl, hdigits⟩⟩ := h
  · obtain ⟨state, hreach, hstate⟩ := exists_reach?_of_isInteger hwhole
    rw [List.append_nil]
    exact ⟨state, hreach, hstate.imp_right .inl⟩
  · refine ⟨fraction, ?_, .inr (.inr rfl)⟩
    rw [List.append_cons, reach?_append (reach?_point hwhole)]
    exact foldlM_digits (by simp) hdigits

/-- Behind a number without an exponent, the mark of an exponent leads on. -/
theorem reach?_mark (h : IsPlain text) (hc : c ∈ ['e', 'E']) :
    reach? (text ++ [c]) = some exponentMark := by
  obtain ⟨state, hreach, hstate⟩ := exists_reach?_of_isPlain h
  rw [reach?_append hreach]
  rw [List.mem_pair] at hc
  obtain rfl | rfl := hc <;> obtain rfl | rfl | rfl := hstate <;> rfl

/-- A number with an exponent leads into the digits of the exponent. -/
theorem reach?_exponent (h : IsPlain text) (hc : c ∈ ['e', 'E']) {sign digits : List Char}
    (hsign : sign ∈ [[], ['+'], ['-']]) (hdigits : IsDigits digits) :
    reach? (text ++ (c :: sign ++ digits)) = some exponent := by
  have hsigned : digits.foldlM next? exponentSign = some exponent := foldlM_digits (by simp) hdigits
  have hmark : (sign ++ digits).foldlM next? exponentMark = some exponent := by
    -- A sign leads to a place of its own; without a sign, the first digit leads into the digits.
    simp only [List.mem_cons, List.not_mem_nil, or_false] at hsign
    obtain rfl | rfl | rfl := hsign
    · exact foldlM_digits (by simp) hdigits
    · exact hsigned
    · exact hsigned
  rw [List.cons_append, List.append_cons, reach?_append (reach?_mark h hc)]
  exact hmark

end NumeralState

namespace Numeral

open NumeralState

variable {text rest : List Char} {c : Char}

/-- Numbers are the texts that lead to a place at which a number can end. -/
theorem isNumber_iff :
    IsNumber text ↔ ∃ state, reach? text = some state ∧ state.missing? = none := by
  -- From the grammar, the parts lead on one after the other; from the place, its form is the
  -- grammar.
  constructor
  · rintro ⟨plain, power, rfl, hplain, rfl | ⟨mark, sign, digits, rfl, hmark, hsign, hdigits⟩⟩
    · obtain ⟨state, hreach, hstate⟩ := exists_reach?_of_isPlain hplain
      rw [List.append_nil]
      refine ⟨state, hreach, ?_⟩
      obtain rfl | rfl | rfl := hstate <;> rfl
    · exact ⟨_, reach?_exponent hplain hmark hsign hdigits, rfl⟩
  · rintro ⟨state, hreach, hends⟩
    have hform := form_of_reach? hreach
    cases state with
    | zero => exact (isPlain_of_form (.inl rfl) hform).isNumber
    | integer => exact (isPlain_of_form (.inr (.inl rfl)) hform).isNumber
    | fraction => exact (isPlain_of_form (.inr (.inr rfl)) hform).isNumber
    | exponent =>
      obtain ⟨plain, mark, sign, digits, rfl, hplain, hmark, hsign, hdigits⟩ := hform
      exact ⟨plain, _, rfl, hplain, .inr ⟨mark, sign, digits, rfl, hmark, hsign, hdigits⟩⟩
    -- The other places are those where something is missing.
    | point => cases hends
    | exponentMark => cases hends
    | exponentSign => cases hends

/-- What can become a number is what leads anywhere. -/
theorem extendable_iff (htext : text ≠ []) :
    Extendable text ↔ ∃ state, reach? text = some state := by
  constructor
  · rintro ⟨more, hnumber⟩
    obtain ⟨state, hreach, -⟩ := isNumber_iff.mp hnumber
    obtain ⟨c, text, rfl⟩ := List.exists_cons_of_ne_nil htext
    -- A text that leads on leads somewhere.
    rw [List.cons_append] at hreach
    obtain ⟨start, hfirst, hmore⟩ := Option.bind_eq_some_iff.mp hreach
    rw [List.foldlM_append] at hmore
    obtain ⟨mid, hmid, -⟩ := Option.bind_eq_some_iff.mp hmore
    exact ⟨mid, by rw [reach?, hfirst]; exact hmid⟩
  · rintro ⟨state, hreach⟩
    cases hends : state.missing? with
    | none => exact (isNumber_iff.mpr ⟨state, hreach, hends⟩).extendable
    | some part =>
      -- Only a digit is missing.
      refine ⟨['0'], isNumber_iff.mpr ?_⟩
      rw [reach?_append hreach]
      cases state with
      | point => exact ⟨_, rfl, rfl⟩
      | exponentMark => exact ⟨_, rfl, rfl⟩
      | exponentSign => exact ⟨_, rfl, rfl⟩
      | _ => cases hends

/-! ## What the scanner takes -/

/-- What the scanner makes of a text that leads to a place, in front of `rest`. -/
def stop (read rest : List Char) (state : NumeralState) :
    Except Interruption (List Char × List Char) :=
  match state.missing? with
  | none => .ok (read, rest)
  | some part => .error ⟨.brokenNumber part rest.head?, read⟩

/-- The scanner goes on up to a character that leads nowhere. -/
theorem exists_readFrom {taken : List Char} {state : NumeralState} (h : reach? taken = some state) :
    ∃ read left last, taken ++ text = read ++ left ∧ reach? read = some last ∧
      (∀ c, left.head? = some c → last.next? c = none) ∧
      state.readFrom taken text = stop read left last := by
  -- By induction on what is left; `taken` is what led to the place so far.
  induction text generalizing taken state with
  | nil => exact ⟨taken, [], state, rfl, h, by simp, readFrom_stop (by simp)⟩
  | cons c text ih =>
    cases hnext : state.next? c with
    | none =>
      have hstops : ∀ d, (c :: text).head? = some d → state.next? d = none := by
        rintro d hd
        cases hd
        exact hnext
      exact ⟨taken, c :: text, state, rfl, h, hstops, readFrom_stop hstops⟩
    | some next =>
      have hreach : reach? (taken ++ [c]) = some next := by
        rw [reach?_append h]
        simp [hnext]
      obtain ⟨read, left, last, htext, hlast, hstops, hread⟩ := ih hreach
      refine ⟨read, left, last, ?_, hlast, hstops, ?_⟩
      · rw [← htext, List.append_assoc, List.singleton_append]
      · rw [readFrom_next hnext, hread]

/-- A text in front of a character that leads nowhere is the longest that can become a number. -/
theorem isLongestFront_of_stops {read left : List Char} {last : NumeralState}
    (hread : reach? read = some last) (hstops : ∀ c, left.head? = some c → last.next? c = none) :
    IsLongestFront Extendable (read ++ left) read := by
  have hne : read ≠ [] := by
    rintro rfl
    cases hread
  refine ⟨List.prefix_append .., (extendable_iff hne).mpr ⟨last, hread⟩, ?_⟩
  intro other hother hextendable
  by_contra hlonger
  -- A longer text goes on with the character that leads nowhere.
  obtain ⟨more, rfl⟩ : read <+: other :=
    List.prefix_of_prefix_length_le (List.prefix_append ..) hother (by omega)
  rw [List.prefix_append_right_inj] at hother
  cases more with
  | nil => simp at hlonger
  | cons c more =>
    obtain ⟨state, hstate⟩ := (extendable_iff (by simp)).mp hextendable
    obtain ⟨left, rfl⟩ := hother
    rw [reach?_append hread, List.foldlM_cons, hstops c rfl] at hstate
    cases hstate

/-- At a digit, the scanner takes the longest text that can become a number. -/
theorem exists_scan (hdigit : c.isDigit = true) (text : List Char) :
    ∃ read rest last, c :: text = read ++ rest ∧ reach? read = some last ∧
      (∀ d, rest.head? = some d → last.next? d = none) ∧ scan c text = stop read rest last := by
  obtain ⟨start, hfirst⟩ : ∃ start, first? c = some start := by
    unfold first?
    split_ifs <;> exact ⟨_, rfl⟩
  have hreach : reach? [c] = some start := by
    rw [reach?, hfirst]
    rfl
  rw [scan_eq_readFrom hfirst]
  exact exists_readFrom hreach

/-! ## The longest number -/

/-- What follows a number goes on with it: a point behind an integer, or an exponent mark behind a
    number without an exponent. -/
def GoesOn (number rest : List Char) : Prop :=
  IsInteger number ∧ rest.head? = some '.' ∨
    IsPlain number ∧ (rest.head? = some 'e' ∨ rest.head? = some 'E')

/-- The message about a digit that is missing behind a place, in front of `text`. -/
def junk (place : String) (text : List Char) : String :=
  "Couldn't lex number, junk after " ++ place ++ ": '" ++ text.head?.elim "EOF" Char.toString ++ "'"

/-- Where a text breaks off that goes on with a number: what is read of it, and the message. -/
inductive BreaksOff : List Char → List Char → String → Prop
  | point {text : List Char} : BreaksOff ('.' :: text) ['.'] (junk "decimal point" text)
  | mark {c : Char} {text : List Char} (hmark : c ∈ ['e', 'E'])
      (hsign : text.head? ∉ [some '+', some '-']) : BreaksOff (c :: text) [c] (junk "'E'" text)
  | sign {c d : Char} {text : List Char} (hmark : c ∈ ['e', 'E']) (hsign : d ∈ ['+', '-']) :
    BreaksOff (c :: d :: text) [c, d] (junk "exponent sign" text)

/-- A text that leads to a place where something is missing is no number. -/
theorem not_isNumber {part : NumeralPart} {state : NumeralState} (h : reach? text = some state)
    (hpart : state.missing? = some part) : ¬ IsNumber text := by
  intro hnumber
  obtain ⟨other, hother, hends⟩ := isNumber_iff.mp hnumber
  cases h.symm.trans hother
  cases hpart.symm.trans hends

/-- The longest number in what can become a number is the longest number. -/
theorem isLongestFront_isNumber {read number : List Char} (h : IsLongestFront Extendable text read)
    (hinitial : number <+: read) (hnumber : IsNumber number)
    (hlongest : ∀ other, other <+: read → IsNumber other → other <+: number) :
    IsLongestFront IsNumber text number := by
  refine ⟨hinitial.trans h.isPrefix, hnumber, fun other hother hisNumber => ?_⟩
  have hle := h.longest other hother hisNumber.extendable
  have hfront : other <+: read := List.prefix_of_prefix_length_le hother h.isPrefix hle
  exact (hlongest other hfront hisNumber).length_le

/-- Where one character more is no number, but can become one, the longest number stands in front of
    it. -/
theorem isLongestFront_of_concat {number : List Char}
    (h : IsLongestFront Extendable text (number ++ [c]))
    (hnumber : IsNumber number) (hmore : ¬ IsNumber (number ++ [c])) :
    IsLongestFront IsNumber text number := by
  refine isLongestFront_isNumber h (List.prefix_append ..) hnumber ?_
  intro other hother hisNumber
  obtain rfl | hshort := List.prefix_concat_iff.mp hother
  · exact absurd hisNumber hmore
  · exact hshort

/-- A number in front of a character that leads nowhere does not go on. -/
theorem not_goesOn {read left : List Char} {last : NumeralState} (hread : reach? read = some last)
    (hstops : ∀ c, left.head? = some c → last.next? c = none) : ¬ GoesOn read left := by
  have hnowhere : ∀ d state, left.head? = some d → reach? (read ++ [d]) ≠ some state := by
    intro d state hd hstate
    rw [reach?_append hread, List.foldlM_cons, hstops d hd] at hstate
    cases hstate
  rintro (⟨hinteger, hpoint⟩ | ⟨hplain, hmark | hmark⟩)
  · exact hnowhere _ _ hpoint (reach?_point hinteger)
  · exact hnowhere _ _ hmark (reach?_mark hplain (by simp))
  · exact hnowhere _ _ hmark (reach?_mark hplain (by simp))

/-- At a digit, the scanner takes the longest number, unless what follows goes on with it: then it
    breaks off there. -/
theorem exists_longest (hdigit : c.isDigit = true) (text : List Char) :
    ∃ number rest, c :: text = number ++ rest ∧ IsLongestFront IsNumber (c :: text) number ∧
      (¬ GoesOn number rest ∧ scan c text = .ok (number, rest) ∨
        GoesOn number rest ∧ ∃ read fault, BreaksOff rest read fault.message ∧
          scan c text = .error ⟨fault, number ++ read⟩) := by
  obtain ⟨read, left, last, htext, hreach, hstops, hscan⟩ := exists_scan hdigit text
  have hlongest := isLongestFront_of_stops hreach hstops
  rw [← htext] at hlongest
  have hform := form_of_reach? hreach
  -- By the place where the scanner stops: where something is missing, the number ends in front of
  -- it.
  cases last with
  | point =>
    obtain ⟨whole, rfl, hwhole⟩ := hform
    refine ⟨whole, '.' :: left, by simp [htext], ?_, .inr ⟨.inl ⟨hwhole, rfl⟩, _, _, .point, hscan⟩⟩
    exact isLongestFront_of_concat hlongest hwhole.isPlain.isNumber (not_isNumber hreach rfl)
  | exponentMark =>
    obtain ⟨plain, mark, rfl, hplain, hmark⟩ := hform
    have hsign : left.head? ∉ [some '+', some '-'] := by
      rintro hsign
      rw [List.mem_pair] at hsign
      obtain hsign | hsign := hsign <;> cases hstops _ hsign
    refine ⟨plain, mark :: left, by simp [htext], ?_, .inr ⟨?_, _, _, .mark hmark hsign, hscan⟩⟩
    · exact isLongestFront_of_concat hlongest hplain.isNumber (not_isNumber hreach rfl)
    · exact .inr ⟨hplain, by simpa using hmark⟩
  | exponentSign =>
    obtain ⟨plain, mark, sign, rfl, hplain, hmark, hsign⟩ := hform
    refine ⟨plain, mark :: sign :: left, by simp [htext], ?_,
      .inr ⟨?_, _, _, .sign hmark hsign, hscan⟩⟩
    · refine isLongestFront_isNumber hlongest (List.prefix_append ..) hplain.isNumber ?_
      intro other hother hnumber
      -- Neither the sign nor the mark in front of it ends a number.
      rw [List.append_cons, List.prefix_concat_iff, List.prefix_concat_iff] at hother
      obtain rfl | rfl | hshort := hother
      · rw [← List.append_cons] at hnumber
        exact absurd hnumber (not_isNumber hreach rfl)
      · exact absurd hnumber (not_isNumber (reach?_mark hplain hmark) rfl)
      · exact hshort
    · exact .inr ⟨hplain, by simpa using hmark⟩
  | _ =>
    -- The number ends where the scanner stops.
    have hnumber : IsNumber read := isNumber_iff.mpr ⟨_, hreach, rfl⟩
    refine ⟨read, left, htext, ?_, .inl ⟨not_goesOn hreach hstops, hscan⟩⟩
    exact isLongestFront_isNumber hlongest (List.prefix_refl _) hnumber fun _ hother _ => hother

end Numeral

/-! ## Lexing at a digit -/

/-- The digits are the ten characters from zero to nine. -/
theorem Numeral.mem_digits {c : Char} (h : c.isDigit = true) :
    c ∈ ['0', '1', '2', '3', '4', '5', '6', '7', '8', '9'] := by
  obtain ⟨hlow, hhigh⟩ : 48 ≤ c.toNat ∧ c.toNat ≤ 57 := by
    simpa [Char.isDigit, UInt32.le_iff_toNat_le] using h
  rw [← Char.ofNat_toNat c]
  generalize c.toNat = n at hlow hhigh
  interval_cases n <;> decide

/-- A digit is read by the scanner for numbers. -/
theorem Piece.first_digit {c : Char} (h : c.isDigit = true) (text : List Char) :
    Piece.first c text = Piece.firstNumber c text := by
  have hother : ∀ d ∈ ['0', '1', '2', '3', '4', '5', '6', '7', '8', '9'],
      isBlank d = false ∧ Punct.ofChar? d = none ∧ d ≠ '!' ∧ d ∉ ['~', '-', '+'] :=
    List.forall_iff_forall_mem.mp (by decide)
  obtain ⟨hblank, hmark, hnegation, halone⟩ := hother c (Numeral.mem_digits h)
  simp only [List.mem_cons, List.not_mem_nil, or_false, not_or] at halone
  simp [first, standsAlone, hblank, hmark, hnegation, halone, h]

section

open Numeral

variable {file source : String} {before : List Piece} {c : Char} {text rest : List Char}

/-- Where the text that is left starts with a digit, lexing emits the longest number at its front,
    or breaks off where what follows goes on with it. -/
theorem lex_digit (h : Cuts source.toList before (c :: text)) (hdigit : c.isDigit = true) :
    ∃ number rest, c :: text = number ++ rest ∧ IsLongestFront IsNumber (c :: text) number ∧
      (GoesOn number rest → ∃ read message, BreaksOff rest read message ∧
        FailsBehind file source (Cut.written before ++ (number ++ read)) message) ∧
      (¬ GoesOn number rest → Emits file source before ⟨.number, String.ofList number⟩ rest) := by
  obtain ⟨number, rest, htext, hlongest, ⟨hends, hscan⟩ | ⟨hgoes, read, fault, hbreaks, hscan⟩⟩ :=
    exists_longest hdigit text
  · have hfirst : Piece.first c text = .ok (.ofLexeme .number number, rest) := by
      rw [Piece.first_digit hdigit, Piece.firstNumber, hscan]
    exact ⟨number, rest, htext, hlongest, fun hgoes => absurd hgoes hends,
      fun _ => emits_of_first h hfirst⟩
  · have hfirst : Piece.first c text = .error ⟨fault, number ++ read⟩ := by
      rw [Piece.first_digit hdigit, Piece.firstNumber, hscan]
    refine ⟨number, rest, htext, hlongest, fun _ => ?_, fun hends => absurd hgoes hends⟩
    exact ⟨read, _, hbreaks, failsBehind_of_first h hfirst⟩

/-- A number that is cut off a text follows the grammar. -/
theorem isNumber_of_first {content : Lexeme} {block : Option TextBlock}
    (h : Piece.first c text = .ok (.lexeme content block, rest)) (hkind : content.kind = .number) :
    IsNumber content.data.toList := by
  -- The scanner for numbers is the only one that makes a number.
  have hway := Piece.way_first c text
  generalize Piece.first c text = cut at h hway
  cases hway with
  | number hdigit hscan =>
    cases h
    obtain ⟨number, rest, -, hlongest, ⟨-, hscan'⟩ | ⟨-, read, fault, -, hscan'⟩⟩ :=
      exists_longest hdigit text
    · cases hscan.symm.trans hscan'
      rw [String.toList_ofList]
      exact hlongest.holds
    · cases hscan.symm.trans hscan'
  | negation =>
    unfold Piece.firstNegation at h
    split at h <;> cases h <;> cases hkind
  | word =>
    cases h
    unfold TokenKind.ofWord at hkind
    split at hkind <;> cases hkind
  | _ => cases h <;> cases hkind

/-- The numbers of a source follow the grammar. -/
theorem isNumber_of_lex {tokens : List Token} (h : lex file source = .ok tokens) {t : Token}
    (ht : t ∈ tokens) (hkind : t.kind = .number) : IsNumber t.data.toList := by
  obtain ⟨_, _, _, _, -, hfirst⟩ := exists_first_of_mem h ht (by simp [hkind])
  exact isNumber_of_first hfirst hkind

end

end JsonnetSyntax
