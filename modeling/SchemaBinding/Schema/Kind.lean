/-!
# Kinds

The closed set of tags a schema can have: eight primitive types and seven complex ones.
-/

namespace SchemaBinding

inductive Primitive where
  | null
  | boolean
  | int
  | long
  | float
  | double
  | bytes
  | string
deriving DecidableEq, Repr

namespace Primitive

def name : Primitive → String
  | .null => "null"
  | .boolean => "boolean"
  | .int => "int"
  | .long => "long"
  | .float => "float"
  | .double => "double"
  | .bytes => "bytes"
  | .string => "string"

def all : List Primitive := [.null, .boolean, .int, .long, .float, .double, .bytes, .string]

def ofName? (s : String) : Option Primitive := all.find? (·.name == s)

theorem mem_all (p : Primitive) : p ∈ all := by cases p <;> decide

theorem ofName?_name (p : Primitive) : ofName? p.name = some p := by cases p <;> rfl

theorem ofName?_eq_some {s : String} {p : Primitive} : ofName? s = some p ↔ s = p.name := by
  constructor
  · intro h
    have hb : (p.name == s) = true := List.find?_some (p := fun q : Primitive => q.name == s) h
    exact (beq_iff_eq.mp hb).symm
  · rintro rfl
    exact ofName?_name p

end Primitive

inductive Kind where
  | primitive (p : Primitive)
  | record
  | enumeration
  | array
  | map
  | union
  | fixed
  | error
deriving DecidableEq, Repr

namespace Kind

def name : Kind → String
  | .primitive p => p.name
  | .record => "record"
  | .enumeration => "enum"
  | .array => "array"
  | .map => "map"
  | .union => "union"
  | .fixed => "fixed"
  | .error => "error"

def all : List Kind :=
  Primitive.all.map .primitive ++ [.record, .enumeration, .array, .map, .union, .fixed, .error]

def isPrimitive : Kind → Bool
  | .primitive _ => true
  | _ => false

theorem mem_all (k : Kind) : k ∈ all := by
  cases k with
  | primitive p => cases p <;> decide
  | _ => decide

end Kind

end SchemaBinding
