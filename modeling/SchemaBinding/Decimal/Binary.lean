/-!
# Binary formats

Rounding to the two binary formats of 32 and 64 bits: the nearest number of the format, the even
one on a tie, and infinity beyond its range.
-/

namespace SchemaBinding.Binary

open Float.Model

def ofInt (n : Int) : Float := ⟨Float.Model.ofInt n⟩

/-- The single nearest to a double. -/
def narrow (x : Float) : Float32 :=
  match x.toModel.unpack with
  | .finite sign mantissa exponent _ =>
    ⟨Float32.Model.pack (UnpackedFloat.round Format.binary32 sign mantissa exponent)⟩
  | special => ⟨Float32.Model.pack special⟩

def widen (x : Float32) : Float :=
  match x.toModel.unpack with
  | .finite sign mantissa exponent _ =>
    ⟨Float.Model.pack (UnpackedFloat.round Format.binary64 sign mantissa exponent)⟩
  | special => ⟨Float.Model.pack special⟩

end SchemaBinding.Binary
