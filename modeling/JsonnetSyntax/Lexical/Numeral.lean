import JsonnetSyntax.Lexical.Interruption

/-!
# Numerals

A number is an integer part without leading zeros, then optionally a point with digits, then
optionally an exponent with an optional sign.  The sign in front of a number is not part of it.  A
point, an exponent mark or an exponent sign without a digit after it is a fault, reported behind the
text that could still have become a number.

Main statement: `Numeral.scan_eq_append`, the text taken and the rest make up the input.
-/

namespace JsonnetSyntax.Numeral

/-- Takes one or more digits after `part`, behind the text `taken` already. -/
def digits (part : NumeralPart) (taken text : List Char) :
    Except Interruption (List Char × List Char) :=
  if text.takeWhile Char.isDigit = [] then .error ⟨.brokenNumber part text.head?, taken⟩
  else .ok (taken ++ text.takeWhile Char.isDigit, text.dropWhile Char.isDigit)

/-- Takes the integer part that starts with the digit `first`: a zero stands alone. -/
def integer (first : Char) (text : List Char) : List Char × List Char :=
  if first = '0' then ([first], text)
  else (first :: text.takeWhile Char.isDigit, text.dropWhile Char.isDigit)

/-- Takes a point with its digits, if there is one. -/
def fraction (taken : List Char) : List Char → Except Interruption (List Char × List Char)
  | '.' :: text => digits .point (taken ++ ['.']) text
  | text => .ok (taken, text)

/-- Takes the digits of an exponent, with an optional sign. -/
def signedDigits (taken : List Char) : List Char → Except Interruption (List Char × List Char)
  | '+' :: text => digits .exponentSign (taken ++ ['+']) text
  | '-' :: text => digits .exponentSign (taken ++ ['-']) text
  | text => digits .exponentMark taken text

/-- Takes an exponent, if there is one. -/
def exponent (taken : List Char) : List Char → Except Interruption (List Char × List Char)
  | 'e' :: text => signedDigits (taken ++ ['e']) text
  | 'E' :: text => signedDigits (taken ++ ['E']) text
  | text => .ok (taken, text)

/-- Takes the number that starts with the digit `first`, followed by `text`. -/
def scan (first : Char) (text : List Char) : Except Interruption (List Char × List Char) := do
  let (taken, text) := integer first text
  let (taken, text) ← fraction taken text
  exponent taken text

/-! ## Nothing is lost -/

/-- Digits and the rest make up the text behind the part they belong to. -/
theorem digits_eq_append {part : NumeralPart} {taken text all rest : List Char}
    (h : digits part taken text = .ok (all, rest)) : all ++ rest = taken ++ text := by
  unfold digits at h
  split at h
  · cases h
  · cases h
    simp [List.takeWhile_append_dropWhile]

/-- The integer part and the rest make up the input. -/
theorem integer_eq_append (first : Char) (text : List Char) :
    (integer first text).1 ++ (integer first text).2 = first :: text := by
  unfold integer
  split <;> simp [List.takeWhile_append_dropWhile]

/-- The fraction and the rest make up the text behind the integer part. -/
theorem fraction_eq_append {taken text all rest : List Char}
    (h : fraction taken text = .ok (all, rest)) : all ++ rest = taken ++ text := by
  unfold fraction at h
  split at h
  · simpa using digits_eq_append h
  · cases h; rfl

/-- The digits of an exponent and the rest make up the text behind the exponent mark. -/
theorem signedDigits_eq_append {taken text all rest : List Char}
    (h : signedDigits taken text = .ok (all, rest)) : all ++ rest = taken ++ text := by
  unfold signedDigits at h
  split at h <;> simpa using digits_eq_append h

/-- The exponent and the rest make up the text behind the fraction. -/
theorem exponent_eq_append {taken text all rest : List Char}
    (h : exponent taken text = .ok (all, rest)) : all ++ rest = taken ++ text := by
  unfold exponent at h
  split at h
  · simpa using signedDigits_eq_append h
  · simpa using signedDigits_eq_append h
  · cases h; rfl

/-- A number is scanned in three steps. -/
theorem scan_eq_ok {first : Char} {text all rest : List Char}
    (h : scan first text = .ok (all, rest)) :
    ∃ taken after, fraction (integer first text).1 (integer first text).2 = .ok (taken, after) ∧
      exponent taken after = .ok (all, rest) := by
  unfold scan at h
  cases hfraction : fraction (integer first text).1 (integer first text).2 with
  | error e => simp [hfraction, bind, Except.bind] at h
  | ok pair => exact ⟨pair.1, pair.2, rfl, by simpa [hfraction, bind, Except.bind] using h⟩

/-- A scanned number and the rest make up the input. -/
theorem scan_eq_append {first : Char} {text all rest : List Char}
    (h : scan first text = .ok (all, rest)) : all ++ rest = first :: text := by
  obtain ⟨taken, after, hfraction, hexponent⟩ := scan_eq_ok h
  rw [exponent_eq_append hexponent, fraction_eq_append hfraction, integer_eq_append]

/-- The integer part is not empty. -/
theorem integer_ne_nil (first : Char) (text : List Char) : (integer first text).1 ≠ [] := by
  unfold integer
  split <;> simp

/-- Digits that are read are not empty. -/
theorem digits_ne_nil {part : NumeralPart} {taken text all rest : List Char}
    (h : digits part taken text = .ok (all, rest)) : all ≠ [] := by
  unfold digits at h
  split at h
  · cases h
  · next hdigits => cases h; simp [hdigits]

/-- A number is not emptied by reading its fraction. -/
theorem fraction_ne_nil {taken text all rest : List Char} (htaken : taken ≠ [])
    (h : fraction taken text = .ok (all, rest)) : all ≠ [] := by
  unfold fraction at h
  split at h
  · exact digits_ne_nil h
  · cases h; exact htaken

/-- A number is not emptied by reading its exponent. -/
theorem exponent_ne_nil {taken text all rest : List Char} (htaken : taken ≠ [])
    (h : exponent taken text = .ok (all, rest)) : all ≠ [] := by
  unfold exponent signedDigits at h
  split at h
  · split at h <;> exact digits_ne_nil h
  · split at h <;> exact digits_ne_nil h
  · cases h; exact htaken

/-- A scanned number is not empty. -/
theorem scan_ne_nil {first : Char} {text all rest : List Char}
    (h : scan first text = .ok (all, rest)) : all ≠ [] := by
  obtain ⟨taken, after, hfraction, hexponent⟩ := scan_eq_ok h
  exact exponent_ne_nil (fraction_ne_nil (integer_ne_nil first text) hfraction) hexponent

end JsonnetSyntax.Numeral
