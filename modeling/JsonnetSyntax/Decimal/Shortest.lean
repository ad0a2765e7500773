import JsonnetSyntax.Decimal.Basic

/-!
# Shortest decimals

A finite binary64 value is written with the fewest digits that read back as the same value; of
several such decimals the nearest is taken, and the even one if two are equally near.  The digits
are found by exact arithmetic on natural numbers.
-/

namespace JsonnetSyntax

/-- The magnitude `mantissa * 2 ^ exponent` of a finite binary64 value.  `narrow` says that the next
    smaller magnitude is half as far away as the next larger one. -/
structure Magnitude where
  mantissa : Nat
  exponent : Int
  narrow : Bool
deriving DecidableEq, Repr

namespace Magnitude

/-- The mantissa of the least value that is not subnormal: one bit and fifty-two behind it. -/
def leastNormal : Nat := 0x10000000000000

/-- The stored exponent that marks the infinities and the values that are not numbers. -/
def reservedExponent : Nat := 0x7FF

/-- The magnitude with the bits `bits`, sign aside; none for the infinities and for no number. -/
def ofBits? (bits : UInt64) : Option Magnitude :=
  let exponent := bits.toNat / leastNormal % (reservedExponent + 1)
  let fraction := bits.toNat % leastNormal
  if exponent = reservedExponent then none
  -- Subnormal values have no leading bit, and the exponent of the least normal ones.
  else if exponent = 0 then some ⟨fraction, -1074, false⟩
  else some ⟨leastNormal + fraction, Int.ofNat exponent - 1075,
    decide (fraction = 0 ∧ 1 < exponent)⟩

/-- The product of `n` and `base ^ exponent`, or `n` alone if the exponent is negative. -/
def scaled (n base : Nat) (exponent : Int) : Nat := n * base.pow exponent.toNat

/-- Compares `coefficient * 10 ^ exponent` with `n * 2 ^ power`. -/
def compareWith (d : Decimal) (n : Nat) (power : Int) : Ordering :=
  compare (scaled (scaled d.coefficient 10 d.exponent) 2 (-power))
    (scaled (scaled n 2 power) 10 (-d.exponent))

/-- Whether a decimal reads back as the magnitude: it lies between the midpoints to the two
    neighbours, and the midpoints themselves belong to an even mantissa. -/
def admits (m : Magnitude) (d : Decimal) : Bool :=
  -- In quarters of a unit of the mantissa: the midpoints are two away, and one below a power of
  -- two.
  let below := compareWith d (4 * m.mantissa - if m.narrow then 1 else 2) (m.exponent - 2)
  let above := compareWith d (4 * m.mantissa + 2) (m.exponent - 2)
  let even := m.mantissa % 2 == 0
  (below == .gt || even && below == .eq) && (above == .lt || even && above == .eq)

/-- The largest `n` with `n * 10 ^ grid` at most the magnitude. -/
def floorOn (m : Magnitude) (grid : Int) : Nat :=
  scaled (scaled m.mantissa 2 m.exponent) 10 (-grid) / scaled (scaled 1 2 (-m.exponent)) 10 grid

/-- The exponent of the leading digit of a magnitude that is not zero. -/
def leadingExponent (m : Magnitude) : Int :=
  -- The ratio is a little above the decimal logarithm of two, so the estimate is off by one at
  -- most.
  let estimate := (Int.ofNat m.mantissa.log2 + m.exponent) * 30103 / 100000
  ([estimate + 1, estimate].find? fun k => m.floorOn k ≠ 0).getD (estimate - 1)

/-- Of the two neighbours of the magnitude among the multiples of `10 ^ grid`, the nearer one that
    reads back. -/
def nearestOn? (m : Magnitude) (grid : Int) : Option Decimal :=
  let below : Decimal := ⟨m.floorOn grid, grid⟩
  let above : Decimal := ⟨m.floorOn grid + 1, grid⟩
  match m.admits below, m.admits above with
  | true, false => some below
  | false, true => some above
  | false, false => none
  | true, true =>
    -- Twice the magnitude against the sum of its neighbours.
    match compareWith ⟨below.coefficient + above.coefficient, grid⟩ m.mantissa (m.exponent + 1) with
    | .gt => some below
    | .lt => some above
    | .eq => some (if below.coefficient % 2 = 0 then below else above)

/-- The magnitude itself, written out in full. -/
def exact (m : Magnitude) : Decimal :=
  ⟨scaled (scaled m.mantissa 2 m.exponent) 5 (-m.exponent), min m.exponent 0⟩

/-- The decimal with the fewest digits that reads back as the magnitude. -/
def shortest (m : Magnitude) : Decimal :=
  if m.mantissa = 0 then ⟨0, 0⟩
  else
    let lead := m.leadingExponent
    -- Seventeen digits tell every value apart from its neighbours.
    ((List.range 17).findSome? fun n => m.nearestOn? (lead - Int.ofNat n)).getD m.exact

end Magnitude

end JsonnetSyntax
