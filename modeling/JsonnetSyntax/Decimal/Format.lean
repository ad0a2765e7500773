import JsonnetSyntax.Decimal.Shortest

/-!
# Writing numbers

`FloatFormat` holds the decisions about the look of a number, `FloatFormat.render` applies them to
the shortest decimal of a value.
-/

namespace JsonnetSyntax

/-- The exponents of the leading digit for which a number is written without an exponent. -/
structure FloatFormat where
  lowest : Int
  highest : Int
deriving DecidableEq, Repr

namespace FloatFormat

/-- Digits with a point: at least one digit stands on either side of it. -/
def positional (digits : List Char) (lead : Int) : List Char :=
  -- The zeros between the point and the first digit.
  if lead < 0 then '0' :: '.' :: List.replicate (-lead - 1).toNat '0' ++ digits
  else
    let whole := digits.take (lead.toNat + 1)
    let fraction := digits.drop (lead.toNat + 1)
    -- The zeros between the last digit and the point, and one behind the point if nothing else is.
    whole ++ List.replicate (lead.toNat + 1 - whole.length) '0' ++
      '.' :: (if fraction.isEmpty then ['0'] else fraction)

/-- One digit in front of the point, and a signed exponent. -/
def scientific (digits : List Char) (lead : Int) : List Char :=
  let fraction := digits.drop 1
  digits.take 1 ++ (if fraction.isEmpty then [] else '.' :: fraction) ++
    'e' :: (if lead < 0 then '-' else '+') :: (toString lead.natAbs).toList

/-- The digits of a decimal without the zeros at its end; zero has one digit. -/
def significant (coefficient : Nat) : List Char :=
  let digits := Nat.toDigits 10 coefficient
  match (digits.reverse.dropWhile (· == '0')).reverse with
  | [] => ['0']
  | kept => kept

/-- The text of a decimal. -/
def layout (format : FloatFormat) (d : Decimal) : List Char :=
  let digits := significant d.coefficient
  let lead := d.exponent + Int.ofNat (Decimal.digitCount d.coefficient) - 1
  if format.lowest ≤ lead ∧ lead ≤ format.highest then positional digits lead
  else scientific digits lead

/-- The bit that negative values have set, negative zero among them. -/
def signBit : UInt64 := 0x8000000000000000

/-- The text of a finite value; the infinities and no number have none. -/
def render? (format : FloatFormat) (x : Float) : Option String :=
  (Magnitude.ofBits? x.toBits).map fun m =>
    let sign := if signBit ≤ x.toBits then ['-'] else []
    String.ofList (sign ++ format.layout m.shortest)

end FloatFormat

/-- The bits of a value as sixteen hexadecimal digits. -/
def hexBits (x : Float) : String :=
  let digits := Nat.toDigits 16 x.toBits.toNat
  String.ofList (List.replicate (16 - digits.length) '0' ++ digits)

end JsonnetSyntax
