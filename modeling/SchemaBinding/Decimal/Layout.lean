import SchemaBinding.Decimal.Shortest

/-!
# Writing decimals

How digits, point and exponent are laid out once the digits are known.
-/

namespace SchemaBinding.Decimal

/-- Which exponents of the first digit are written without an exponent. -/
structure Layout where
  leastPlain : Int
  greatestPlain : Int

def zeros (n : Nat) : String := String.ofList (List.replicate n '0')

/-- All digits around a point, with at least one digit after it. -/
def plain (digits : List Char) (place : Int) : String :=
  if place < 0 then "0." ++ zeros (-place - 1).toNat ++ String.ofList digits
  else
    let whole := place.toNat + 1
    if digits.length ≤ whole then String.ofList digits ++ zeros (whole - digits.length) ++ ".0"
    else String.ofList (digits.take whole) ++ "." ++ String.ofList (digits.drop whole)

/-- One digit before the point, the others after it, then the exponent with its sign. -/
def scientific (digits : List Char) (place : Int) : String :=
  let fraction := digits.drop 1
  String.ofList (digits.take 1)
    ++ (if fraction.isEmpty then "" else "." ++ String.ofList fraction)
    ++ (if place < 0 then "e-" else "e+") ++ toString place.natAbs

def render (layout : Layout) (d : Decimal) : String :=
  let digits := Nat.toDigits 10 d.digits
  let place := d.exponent + digits.length - 1
  if layout.leastPlain ≤ place ∧ place ≤ layout.greatestPlain then plain digits place
  else scientific digits place

end SchemaBinding.Decimal
