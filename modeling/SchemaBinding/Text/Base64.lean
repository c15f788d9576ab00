/-!
# Base 64

Three bytes are four digits of six bits. The digits are the letters, the decimal digits, `+` and
`/`; a last group that is not full is filled up with `=`.
-/

namespace SchemaBinding.Base64

def digit (n : Nat) : Char :=
  if n < 26 then Char.ofNat ('A'.toNat + n)
  else if n < 52 then Char.ofNat ('a'.toNat + (n - 26))
  else if n < 62 then Char.ofNat ('0'.toNat + (n - 52))
  else if n = 62 then '+'
  else '/'

/-- The digits of 24 bits, the highest six first. -/
def group (bits : Nat) : List Char :=
  [bits >>> 18, bits >>> 12, bits >>> 6, bits].map fun n => digit (n % 64)

def encodeChars : List UInt8 → List Char
  | [] => []
  | [a] => (group (a.toNat <<< 16)).take 2 ++ ['=', '=']
  | [a, b] => (group (a.toNat <<< 16 + b.toNat <<< 8)).take 3 ++ ['=']
  | a :: b :: c :: rest =>
    group (a.toNat <<< 16 + b.toNat <<< 8 + c.toNat) ++ encodeChars rest

def encode (data : List UInt8) : String := String.ofList (encodeChars data)

end SchemaBinding.Base64
