import SchemaBinding.Value.Basic
import SchemaBinding.Value.Error

/-!
# Typed access

Each primitive type has a carrier, the type of a program's own data. Reading looks through union
wrappers and never converts.
-/

namespace SchemaBinding

/-- The data a program keeps for a primitive type. -/
def Primitive.Carrier : Primitive → Type
  | .null => Unit
  | .boolean => Bool
  | .int => Int32
  | .long => Int64
  | .float => Float32
  | .double => Float
  | .bytes => List UInt8
  | .string => String

namespace Value

def ofCarrier : (p : Primitive) → p.Carrier → Value
  | .null, _ => .null
  | .boolean, b => .boolean b
  | .int, n => .int n
  | .long, n => .long n
  | .float, x => .float x
  | .double, x => .double x
  | .bytes, data => .bytes data
  | .string, s => .string s

/-- The data of a value without wrappers. -/
def carrier? : (p : Primitive) → Value → Option p.Carrier
  | .null, .null => some ()
  | .boolean, .boolean b => some b
  | .int, .int n => some n
  | .long, .long n => some n
  | .float, .float x => some x
  | .double, .double x => some x
  | .bytes, .bytes data => some data
  | .string, .string s => some s
  | _, _ => none

theorem carrier?_eq_some {p : Primitive} {v : Value} {c : p.Carrier} :
    carrier? p v = some c ↔ v = ofCarrier p c := by
  cases p <;> cases v <;> constructor <;> intro h <;>
    first | (cases h; done) | (cases h; rfl)

/-- Reads a value of a primitive type. -/
def read (p : Primitive) (v : Value) : Except ValueError p.Carrier :=
  match carrier? p v.unwrap with
  | some c => .ok c
  | none => .error (.typeMismatch (.primitive p) v.unwrap.kind)

/-- Reads a value that may be null. -/
def readOptional {α : Type} (readSome : Value → Except ValueError α) (v : Value) :
    Except ValueError (Option α) :=
  match v.unwrap with
  | .null => .ok none
  | other => (readSome other).map some

/-- Reads an array, item by item; the first item that cannot be read decides. -/
def readList {α : Type} (readItem : Value → Except ValueError α) (v : Value) :
    Except ValueError (List α) :=
  match v.unwrap with
  | .array items => items.mapM readItem
  | other => .error (.typeMismatch .array other.kind)

end Value

end SchemaBinding
