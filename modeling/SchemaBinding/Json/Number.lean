import SchemaBinding.Decimal.Layout
import SchemaBinding.Decimal.Binary

/-!
# Numbers of JSON documents

An integer that 64 bits can hold stays an integer, and every other number is a finite double: `1` is
not `1.0`.
-/

namespace SchemaBinding.Json

inductive Number where
  | integer (n : Int) (fits : -9223372036854775808 ≤ n ∧ n ≤ 18446744073709551615)
  | double (x : Float) (finite : x.isFinite = true)

namespace Number

/-! ## Making numbers -/

def ofInt? (n : Int) : Option Number :=
  if fits : -9223372036854775808 ≤ n ∧ n ≤ 18446744073709551615 then some (.integer n fits)
  else none

def ofInt64 (n : Int64) : Number :=
  .integer n.toInt (by
    have least := Int64.le_toInt n
    have greatest := Int64.toInt_lt n
    omega)

def ofInt32 (n : Int32) : Number :=
  .integer n.toInt (by
    have least := Int32.le_toInt n
    have greatest := Int32.toInt_lt n
    omega)

def ofUInt64 (n : UInt64) : Number :=
  .integer n.toNat (by
    have greatest := UInt64.toNat_lt n
    omega)

def ofFloat? (x : Float) : Option Number :=
  if finite : x.isFinite = true then some (.double x finite) else none

/-! ## Reading numbers -/

/-- The integer, if it fits 64 bits with a sign. -/
def toInt64? : Number → Option Int64
  | .integer n _ => if n ≤ 9223372036854775807 then some (Int64.ofInt n) else none
  | .double .. => none

/-- The integer, if it has no sign. -/
def toUInt64? : Number → Option UInt64
  | .integer n _ => if 0 ≤ n then some (UInt64.ofNat n.toNat) else none
  | .double .. => none

def toFloat : Number → Float
  | .integer n _ => Binary.ofInt n
  | .double x _ => x

/-! ## Equality and text -/

/-- Numbers of the two kinds differ, and a zero equals the negative zero. -/
def beq : Number → Number → Bool
  | .integer m _, .integer n _ => m == n
  | .double x _, .double y _ => x == y
  | _, _ => false

instance : BEq Number := ⟨beq⟩

/-- Plain from `0.00001` up to sixteen digits before the point. -/
def layout : Decimal.Layout := ⟨-5, 15⟩

/-- The shortest text that reads back as the finite double. -/
def renderFloat (x : Float) : String :=
  let bits := x.toBits.toNat
  let sign := if bits < 0x8000000000000000 then "" else "-"
  let magnitude := bits % 0x8000000000000000
  sign ++ if magnitude = 0 then "0.0" else (Decimal.shortest magnitude).render layout

def render : Number → String
  | .integer n _ => toString n
  | .double x _ => renderFloat x

end Number

end SchemaBinding.Json
