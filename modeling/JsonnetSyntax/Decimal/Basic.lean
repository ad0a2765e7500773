/-!
# Decimals and binary floating point

A `Decimal` is a natural number times a power of ten.  `Decimal.toFloat` is the binary64 value
nearest to it, and `readFloat?` reads such a value from a text.
-/

namespace JsonnetSyntax

/-- The number `coefficient * 10 ^ exponent`. -/
structure Decimal where
  coefficient : Nat
  exponent : Int
deriving DecidableEq, Repr

namespace Decimal

/-- The bits of positive infinity. -/
def infinityBits : UInt64 := 0x7FF0000000000000

/-- The bits of the value that is not a number. -/
def notANumberBits : UInt64 := 0x7FF8000000000000

/-- The number of digits of a natural number; zero has one. -/
def digitCount (n : Nat) : Nat := (toString n).length

/-- The nearest binary64 value, the even one of two.  Magnitudes from `10 ^ 310` up are infinite and
    those below `10 ^ -330` are zero, so no larger power of ten is ever computed. -/
def toFloat (d : Decimal) : Float :=
  if d.coefficient = 0 then 0
  else
    let magnitude := d.exponent + digitCount d.coefficient
    if magnitude > 310 then .ofBits infinityBits
    else if magnitude < -330 then 0
    else .ofScientific d.coefficient (decide (d.exponent < 0)) d.exponent.natAbs

/-- The value of a digit. -/
def digitValue (c : Char) : Nat := c.toNat - '0'.toNat

/-- The value of a row of digits. -/
def valueOf (digits : List Char) : Nat :=
  digits.foldl (fun value c => 10 * value + digitValue c) 0

/-- Every binary64 value, and every midpoint between two neighbouring ones, has fewer significant
    digits than this. -/
def decisiveDigits : Nat := 800

/-- The decimal with a row of digits and an exponent.  Digits behind the decisive ones are folded
    into a single digit, which says whether any of them is not zero: the decimal that results lies
    on the same side of every midpoint between neighbouring binary64 values, so it has the same
    nearest one. -/
def ofDigits (digits : List Char) (exponent : Int) : Decimal :=
  let significant := digits.dropWhile (· == '0')
  let kept := valueOf (significant.take decisiveDigits)
  match significant.drop decisiveDigits with
  | [] => ⟨kept, exponent⟩
  -- One digit stands for all that are folded, so the exponent takes in the others.
  | beyond =>
    let folded := if beyond.all (· == '0') then 0 else 1
    ⟨10 * kept + folded, exponent + Int.ofNat beyond.length - 1⟩

/-- An exponent that has grown to this takes in no further digits. -/
def exponentLimit : Nat := 65536

/-- The value of the digits of an exponent, as far as they count. -/
def exponentOf (digits : List Char) : Nat :=
  digits.foldl (fun value c => if value < exponentLimit then 10 * value + digitValue c else value) 0

/-- Reads the digits of an exponent, of which there must be one. -/
def readDigits? (text : List Char) : Option Nat :=
  if text ≠ [] ∧ text.all Char.isDigit then some (exponentOf text) else none

/-- Reads the digits of an exponent with an optional sign. -/
def readExponent? : List Char → Option Int
  | '+' :: text => (readDigits? text).map Int.ofNat
  | '-' :: text => (readDigits? text).map fun n => -Int.ofNat n
  | text => (readDigits? text).map Int.ofNat

/-- Splits off the fraction behind a point. -/
def splitFraction : List Char → List Char × List Char
  | '.' :: text => (text.takeWhile Char.isDigit, text.dropWhile Char.isDigit)
  | text => ([], text)

/-- Reads an unsigned decimal: digits, a point and digits, with a digit on at least one side of the
    point, then optionally an exponent. -/
def read? (text : List Char) : Option Decimal :=
  let whole := text.takeWhile Char.isDigit
  let (fraction, rest) := splitFraction (text.dropWhile Char.isDigit)
  if whole = [] ∧ fraction = [] then none
  else
    -- The digits of the fraction count as whole ones, each for one power of ten less.
    let build (exponent : Int) : Decimal :=
      ofDigits (whole ++ fraction) (exponent - Int.ofNat fraction.length)
    match rest with
    | [] => some (build 0)
    | mark :: digits => if mark = 'e' ∨ mark = 'E' then (readExponent? digits).map build else none

end Decimal

/-- Reads an unsigned number: a decimal, or a word for infinity or for no number, in any case. -/
def readMagnitude? (text : List Char) : Option Float :=
  match String.ofList (text.map Char.toLower) with
  | "inf" => some (.ofBits Decimal.infinityBits)
  | "infinity" => some (.ofBits Decimal.infinityBits)
  | "nan" => some (.ofBits Decimal.notANumberBits)
  | _ => (Decimal.read? text).map Decimal.toFloat

/-- Reads a binary64 value with an optional sign. -/
def readFloat? (text : String) : Option Float :=
  match text.toList with
  | '+' :: digits => readMagnitude? digits
  | '-' :: digits => (readMagnitude? digits).map Float.neg
  | digits => readMagnitude? digits

end JsonnetSyntax
