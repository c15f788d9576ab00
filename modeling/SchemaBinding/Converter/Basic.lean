import SchemaBinding.Property.Shape
import SchemaBinding.Value.Accessor
import SchemaBinding.Schema.Basic

/-!
# Converters

A converter turns what a property holds into a value of the schema and back.
-/

namespace SchemaBinding

structure Converter where
  name : String
  kind : Kind
  /-- The shape that its converted values have. -/
  exposed : Shape
  toSchema : Value → Except ValueError Value
  fromSchema : Value → Except ValueError Value

namespace Converter

def outline (c : Converter) : String :=
  Outline.struct "FieldConverter"
    [("name", Outline.string c.name), ("schema_kind", c.kind.outline),
      ("exposed_type", c.exposed.outline)]

/-! ## Enumerations as strings -/

/-- The place of a symbol, if an index can hold it. -/
def symbolIndex (symbols : List String) (symbol : String) : Except ValueError Int32 :=
  match symbols.findIdx? (· == symbol) with
  | some index =>
    if index < 0x80000000 then .ok (Int32.ofNat index) else .error (.unknownSymbol symbol)
  | none => .error (.unknownSymbol symbol)

/-- An enumeration with these symbols becomes the string of its symbol. -/
def enumSymbols (symbols : List String) : Converter where
  name := "enum-symbol"
  kind := .primitive .string
  exposed := .text
  toSchema
    | .enumeration index symbol => do
      if (← symbolIndex symbols symbol) ≠ index then throw (.symbolElsewhere symbol index)
      return .string symbol
    | other => throw (.typeMismatch .enumeration other.kind)
  fromSchema value :=
    match value.unwrap with
    | .string symbol => do return .enumeration (← symbolIndex symbols symbol) symbol
    | other => throw (.typeMismatch (.primitive .string) other.kind)

def ofEnum (e : EnumSchema) : Converter := enumSymbols e.symbols

/-! ## Points in time -/

def timestampName : String := "Timestamp"

/-- The member that holds the milliseconds of a point in time. -/
def millisName : String := "millis"

/-- A record with its milliseconds becomes the number of milliseconds. -/
def timestamp : Converter where
  name := "timestamp-millis"
  kind := .primitive .long
  exposed := .int64
  toSchema value :=
    match value.field? millisName with
    | some (.long millis) => .ok (.long millis)
    | some other => .error (.typeMismatch (.primitive .long) other.kind)
    | none => .error (.missingMember timestampName millisName)
  fromSchema value := do
    let millis ← value.read .long
    return .record [(millisName, .long millis)]

end Converter

end SchemaBinding
