/-!
# Shortest decimals

A finite double stands for every real that rounds to it. `Decimal.shortest` finds the decimal with
the fewest digits among those, and the nearest of two.
-/

namespace SchemaBinding

/-- The number `digits * 10 ^ exponent`. -/
structure Decimal where
  digits : Nat
  exponent : Int
deriving DecidableEq, Repr

namespace Decimal

/-! ## The reals that round to a double -/

/-- A positive number and the ends of the interval that rounds to it, over one denominator. -/
structure Interval where
  low : Nat
  value : Nat
  high : Nat
  denominator : Nat
  /-- Whether the ends themselves round to the value. -/
  closed : Bool

/--
The interval of the double `mantissa * 2 ^ exponent`. A neighbour is one unit of the last place
away, and the lower one only half a unit when the value is the least of its binade.
-/
def Interval.ofBinary (mantissa : Nat) (exponent : Int) (leastOfBinade : Bool) : Interval :=
  let up := 1 <<< exponent.toNat
  { low := (4 * mantissa - if leastOfBinade then 1 else 2) * up
    value := 4 * mantissa * up
    high := (4 * mantissa + 2) * up
    denominator := 4 <<< (-exponent).toNat
    closed := mantissa % 2 == 0 }

/-- The bit above the 52 bits of the fraction. It is not stored, and normal doubles have it. -/
def hiddenBit : Nat := 0x10000000000000

/-- The interval of a positive finite double, from its bits. -/
def Interval.ofBits (bits : Nat) : Interval :=
  let fraction := bits % hiddenBit
  let biased : Nat := bits / hiddenBit % 2048
  if biased = 0 then .ofBinary fraction (-1074) false
  else
    .ofBinary (fraction + hiddenBit) ((biased : Int) - 1075) (fraction == 0 && decide (1 < biased))

/-! ## Points of a decimal grid -/

/-- Numerator and denominator of the interval's value, counted in units of `10 ^ place`. -/
def Interval.scaled (i : Interval) (place : Int) (numerator : Nat) : Nat × Nat :=
  (numerator * Nat.pow 10 (-place).toNat, i.denominator * Nat.pow 10 place.toNat)

/-- Whether `n * 10 ^ place` rounds to the value. -/
def Interval.holds (i : Interval) (place : Int) (n : Nat) : Bool :=
  let (low, unit) := i.scaled place i.low
  let high := (i.scaled place i.high).1
  if i.closed then decide (low ≤ n * unit) && decide (n * unit ≤ high)
  else decide (low < n * unit) && decide (n * unit < high)

/--
The point of the grid of multiples of `10 ^ place` that rounds to the value: one of the two
neighbours of the value, the nearer if both do, and the even one on a tie.
-/
def Interval.onGrid? (i : Interval) (place : Int) : Option Nat :=
  let (value, unit) := i.scaled place i.value
  let below := value / unit
  match i.holds place below, i.holds place (below + 1) with
  | true, true =>
    let rest := 2 * (value % unit)
    if rest < unit then some below
    else if unit < rest then some (below + 1)
    else some (below + below % 2)
  | true, false => some below
  | false, true => some (below + 1)
  | false, false => none

def digitCount (n : Nat) : Nat := (Nat.toDigits 10 n).length

/-- The place of the first digit of a positive quotient: `10 ^ place ≤ value < 10 ^ (place + 1)`. -/
def leadingPlace (numerator denominator : Nat) : Int :=
  if denominator ≤ numerator then (digitCount (numerator / denominator) : Int) - 1
  else -(digitCount ((denominator - 1) / numerator) : Int)

/-! ## The shortest decimal -/

/-- Drops zeros at the end of the digits, at most `fuel` of them. -/
def trim : Nat → Nat → Int → Decimal
  | 0, digits, exponent => ⟨digits, exponent⟩
  | fuel + 1, digits, exponent =>
    if digits % 10 = 0 then trim fuel (digits / 10) (exponent + 1) else ⟨digits, exponent⟩

/--
The shortest decimal that rounds to the positive finite double with these bits. Seventeen digits
tell any two doubles apart, so one of the seventeen grids has a point.
-/
def shortest (bits : Nat) : Decimal :=
  let i := Interval.ofBits bits
  let first := leadingPlace i.value i.denominator
  let hit := (List.range 17).findSome? fun (n : Nat) =>
    let place := first - (n : Int)
    (i.onGrid? place).map fun digits => trim 17 digits place
  hit.getD ⟨0, 0⟩

end Decimal

end SchemaBinding
