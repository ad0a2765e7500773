import Mathlib.Tactic.ByContra
import Mathlib.Tactic.SplitIfs
import JsonnetSyntax.Lexical.Scanner

/-!
# The places inside a number

Scanning a number goes from place to place, with one character at a time.  `NumeralState.readFrom`
says what the grammar of numbers reads from a place on, and the steps between places follow it: a
character that may stand at a place is taken, and any other character ends the number or is found
where a digit is missing.

## Key results

- `NumeralState.readFrom_next`: a character that is taken
- `NumeralState.readFrom_stop`: the end of a number, and the missing digit
- `NumeralState.scan_eq_readFrom`: whole numbers
-/

namespace JsonnetSyntax

namespace NumeralState

/-- What is read of a number from a place inside it, behind the text `taken`. -/
def readFrom (taken text : List Char) : NumeralState → Except Interruption (List Char × List Char)
  | zero => do
    let (taken, text) ← Numeral.fraction taken text
    Numeral.exponent taken text
  | integer => do
    let (taken, text) ← Numeral.fraction (taken ++ text.takeWhile Char.isDigit)
      (text.dropWhile Char.isDigit)
    Numeral.exponent taken text
  | point => do
    let (taken, text) ← Numeral.digits .point taken text
    Numeral.exponent taken text
  | fraction =>
    Numeral.exponent (taken ++ text.takeWhile Char.isDigit) (text.dropWhile Char.isDigit)
  | exponentMark => Numeral.signedDigits taken text
  | exponentSign => Numeral.digits .exponentSign taken text
  | exponent => .ok (taken ++ text.takeWhile Char.isDigit, text.dropWhile Char.isDigit)

variable {state next : NumeralState} {taken text : List Char} {c : Char}

/-- A digit is the first of a row of digits. -/
theorem digits_cons {part : NumeralPart} (hc : c.isDigit = true) :
    Numeral.digits part taken (c :: text) =
      .ok (taken ++ [c] ++ text.takeWhile Char.isDigit, text.dropWhile Char.isDigit) := by
  simp [Numeral.digits, hc]

/-- An exponent mark is followed by digits with an optional sign. -/
theorem exponent_cons (hc : c = 'e' ∨ c = 'E') :
    Numeral.exponent taken (c :: text) = Numeral.signedDigits (taken ++ [c]) text := by
  obtain rfl | rfl := hc
  · rfl
  · rfl

/-- A sign is followed by digits. -/
theorem signedDigits_cons (hc : c = '+' ∨ c = '-') :
    Numeral.signedDigits taken (c :: text) = Numeral.digits .exponentSign (taken ++ [c]) text := by
  obtain rfl | rfl := hc
  · rfl
  · rfl

/-- Without a point there is no fraction. -/
theorem fraction_of_ne (h : text.head? ≠ some '.') :
    Numeral.fraction taken text = .ok (taken, text) := by
  unfold Numeral.fraction
  split
  · exact absurd rfl h
  · rfl

/-- Without an exponent mark there is no exponent. -/
theorem exponent_of_ne (he : text.head? ≠ some 'e') (hE : text.head? ≠ some 'E') :
    Numeral.exponent taken text = .ok (taken, text) := by
  unfold Numeral.exponent
  split
  · exact absurd rfl he
  · exact absurd rfl hE
  · rfl

/-- Without a sign, the digits follow the exponent mark. -/
theorem signedDigits_of_ne (hplus : text.head? ≠ some '+') (hminus : text.head? ≠ some '-') :
    Numeral.signedDigits taken text = Numeral.digits .exponentMark taken text := by
  unfold Numeral.signedDigits
  split
  · exact absurd rfl hplus
  · exact absurd rfl hminus
  · rfl

/-- A character that may stand at a place is taken. -/
theorem readFrom_next (h : state.next? c = some next) :
    state.readFrom taken (c :: text) = next.readFrom (taken ++ [c]) text := by
  -- One case for each place, with the characters that may stand there.
  cases state with
  | zero =>
    simp only [next?] at h
    split_ifs at h with hpoint hmark <;> cases h
    · rw [hpoint]
      rfl
    · have hne : (c :: text).head? ≠ some '.' := by simpa using hpoint
      simp only [readFrom, fraction_of_ne hne]
      exact exponent_cons hmark
  | integer =>
    simp only [next?] at h
    split_ifs at h with hpoint hmark hdigit <;> cases h
    · simp [readFrom, hpoint]
      rfl
    · -- The exponent mark is no digit, so the run of digits in front of it is over.
      have hdigit : c.isDigit = false := by
        obtain rfl | rfl := hmark <;> decide
      have hne : (c :: text).head? ≠ some '.' := by simpa using hpoint
      simp only [readFrom, List.takeWhile_cons, List.dropWhile_cons, hdigit, Bool.false_eq_true,
        if_false, List.append_nil, fraction_of_ne hne]
      exact exponent_cons hmark
    · simp [readFrom, hdigit]
  | point =>
    simp only [next?] at h
    split_ifs at h with hdigit
    cases h
    simp only [readFrom, digits_cons hdigit]
    rfl
  | fraction =>
    simp only [next?] at h
    split_ifs at h with hmark hdigit <;> cases h
    · have hdigit : c.isDigit = false := by
        obtain rfl | rfl := hmark <;> decide
      simp [readFrom, hdigit, exponent_cons hmark]
    · simp [readFrom, hdigit]
  | exponentMark =>
    simp only [next?] at h
    split_ifs at h with hsign hdigit <;> cases h
    · exact signedDigits_cons hsign
    · rw [not_or] at hsign
      simp only [readFrom]
      rw [signedDigits_of_ne (by simpa using hsign.1) (by simpa using hsign.2), digits_cons hdigit]
  | exponentSign =>
    simp only [next?] at h
    split_ifs at h with hdigit
    cases h
    exact digits_cons hdigit
  | exponent =>
    simp only [next?] at h
    split_ifs at h with hdigit
    cases h
    simp [readFrom, hdigit]

/-- In front of a character that is no digit stand no digits. -/
theorem digitRun_of_head (h : ∀ c, text.head? = some c → c.isDigit = false) :
    text.takeWhile Char.isDigit = [] ∧ text.dropWhile Char.isDigit = text := by
  cases text with
  | nil => exact ⟨rfl, rfl⟩
  | cons c text =>
    have hdigit : ¬ c.isDigit = true := by simp [h c rfl]
    exact ⟨List.takeWhile_cons_of_neg hdigit, List.dropWhile_cons_of_neg hdigit⟩

/-- Where no digit stands, a digit is missing. -/
theorem digits_of_head {part : NumeralPart} (h : ∀ c, text.head? = some c → c.isDigit = false) :
    Numeral.digits part taken text = .error ⟨.brokenNumber part text.head?, taken⟩ :=
  if_pos (digitRun_of_head h).1

/-- A digit may stand everywhere but behind a leading zero. -/
theorem next?_of_isDigit (hstate : state ≠ zero) (hc : c.isDigit = true) :
    state.next? c ≠ none := by
  cases state with
  | zero => exact absurd rfl hstate
  | _ =>
    simp only [next?, hc]
    split_ifs <;> simp

/-- Where the next character may not stand, the number ends or lacks a digit. -/
theorem readFrom_stop (h : ∀ c, text.head? = some c → state.next? c = none) :
    state.readFrom taken text =
      match state.missing? with
      | none => .ok (taken, text)
      | some part => .error ⟨.brokenNumber part text.head?, taken⟩ := by
  -- Behind a leading zero a digit starts another number; elsewhere the next character is no digit.
  have hdigit : state ≠ zero → ∀ c, text.head? = some c → c.isDigit = false := by
    intro hstate c hc
    by_contra hdigit
    exact next?_of_isDigit hstate (by simpa using hdigit) (h c hc)
  -- What may be missing at a place is a digit; the other places end the number.
  cases state with
  | zero =>
    simp only [readFrom]
    rw [fraction_of_ne fun hc => by simpa [next?] using h _ hc]
    exact exponent_of_ne (fun hc => by simpa [next?] using h _ hc) fun hc =>
      by simpa [next?] using h _ hc
  | integer =>
    obtain ⟨htake, hdrop⟩ := digitRun_of_head (hdigit nofun)
    simp only [readFrom, htake, hdrop, List.append_nil]
    rw [fraction_of_ne fun hc => by simpa [next?] using h _ hc]
    exact exponent_of_ne (fun hc => by simpa [next?] using h _ hc) fun hc =>
      by simpa [next?] using h _ hc
  | point =>
    simp only [readFrom, digits_of_head (hdigit nofun)]
    rfl
  | fraction =>
    obtain ⟨htake, hdrop⟩ := digitRun_of_head (hdigit nofun)
    simp only [readFrom, htake, hdrop, List.append_nil]
    exact exponent_of_ne (fun hc => by simpa [next?] using h _ hc) fun hc =>
      by simpa [next?] using h _ hc
  | exponentMark =>
    simp only [readFrom]
    rw [signedDigits_of_ne (fun hc => by simpa [next?] using h _ hc) fun hc =>
      by simpa [next?] using h _ hc]
    exact digits_of_head (hdigit nofun)
  | exponentSign => exact digits_of_head (hdigit nofun)
  | exponent =>
    obtain ⟨htake, hdrop⟩ := digitRun_of_head (hdigit nofun)
    simp only [readFrom, htake, hdrop, List.append_nil]
    rfl

/-- A number is read from the place behind its first digit. -/
theorem scan_eq_readFrom (h : first? c = some state) :
    Numeral.scan c text = state.readFrom [c] text := by
  unfold first? at h
  -- A leading zero is a place of its own.
  split_ifs at h with hzero hdigit <;> cases h
  · rw [hzero]
    rfl
  · -- The other digits of the integer are the first thing read from this place.
    simp only [Numeral.scan, Numeral.integer, if_neg hzero]
    rfl

end NumeralState

end JsonnetSyntax
