import SchemaBinding.Schema.Kind
import SchemaBinding.Text.Outline

/-!
# Shapes of properties

`Shape.holds` is the table of which shape can hold the values of which kind without conversion.
-/

namespace SchemaBinding

inductive Shape where
  | bool
  | int8
  | int16
  | int32
  | int64
  | uint8
  | uint16
  | uint32
  | uint64
  | float32
  | float64
  | bytes
  | text
  | optional (content : Shape)
  /-- An object that is referred to and may be absent. -/
  | object (name : String)
  /-- A compound value that is held in place. -/
  | compound (name : String)
  | enumeration (name : String)
  | list (item : Shape)
  /-- A container with string keys. -/
  | map (value : Shape)
deriving DecidableEq, Repr

inductive Family where
  | boolean
  | integer
  | float
  | bytes
  | text
  | optional
  | object
  | compound
  | enumeration
  | list
  | map
deriving DecidableEq, Repr

namespace Shape

def family : Shape → Family
  | .bool => .boolean
  | .int8 | .int16 | .int32 | .int64 | .uint8 | .uint16 | .uint32 | .uint64 => .integer
  | .float32 | .float64 => .float
  | .bytes => .bytes
  | .text => .text
  | .optional _ => .optional
  | .object _ => .object
  | .compound _ => .compound
  | .enumeration _ => .enumeration
  | .list _ => .list
  | .map _ => .map

def isReference (s : Shape) : Bool :=
  match s.family with
  | .object | .text | .bytes | .list | .map => true
  | _ => false

/--
Whether a property of this shape can hold the values of a kind as they are. A null fits wherever a
value can be absent, and a union fits everywhere.
-/
def holds (s : Shape) : Kind → Bool
  | .primitive .null => s.family == .optional || s.isReference
  | .primitive .boolean => s == .bool
  | .primitive .int => s == .int32
  | .primitive .long => s == .int64
  | .primitive .float => s == .float32
  | .primitive .double => s == .float64
  | .primitive .bytes | .fixed => s == .bytes
  | .primitive .string => s == .text
  | .record | .error => s.family == .object
  | .enumeration => s.family == .enumeration
  | .array => s.family == .list
  | .map => s.family == .map
  | .union => true

/-! ## Text -/

def display : Shape → String
  | .bool => "bool"
  | .int8 => "i8"
  | .int16 => "i16"
  | .int32 => "i32"
  | .int64 => "i64"
  | .uint8 => "u8"
  | .uint16 => "u16"
  | .uint32 => "u32"
  | .uint64 => "u64"
  | .float32 => "f32"
  | .float64 => "f64"
  | .bytes => "Vec<u8>"
  | .text => "String"
  | .optional content => "Option<" ++ content.display ++ ">"
  | .object name | .compound name | .enumeration name => name
  | .list item => "Vec<" ++ item.display ++ ">"
  | .map value => "Map<String, " ++ value.display ++ ">"

def outline : Shape → String
  | .bool => "Bool"
  | .int8 => "I8"
  | .int16 => "I16"
  | .int32 => "I32"
  | .int64 => "I64"
  | .uint8 => "U8"
  | .uint16 => "U16"
  | .uint32 => "U32"
  | .uint64 => "U64"
  | .float32 => "F32"
  | .float64 => "F64"
  | .bytes => "Bytes"
  | .text => "Text"
  | .optional content => Outline.case "Optional" content.outline
  | .object name => Outline.case "Class" (Outline.string name)
  | .compound name => Outline.case "Struct" (Outline.string name)
  | .enumeration name => Outline.case "Enum" (Outline.string name)
  | .list item => Outline.case "List" item.outline
  | .map value => Outline.case "Map" value.outline

end Shape

def Family.outline : Family → String
  | .boolean => "Boolean"
  | .integer => "Integer"
  | .float => "Float"
  | .bytes => "Bytes"
  | .text => "Text"
  | .optional => "Optional"
  | .object => "Class"
  | .compound => "Struct"
  | .enumeration => "Enum"
  | .list => "List"
  | .map => "Map"

def Kind.outline : Kind → String
  | .primitive .null => "Null"
  | .primitive .boolean => "Boolean"
  | .primitive .int => "Int"
  | .primitive .long => "Long"
  | .primitive .float => "Float"
  | .primitive .double => "Double"
  | .primitive .bytes => "Bytes"
  | .primitive .string => "String"
  | .record => "Record"
  | .enumeration => "Enumeration"
  | .array => "Array"
  | .map => "Map"
  | .union => "Union"
  | .fixed => "Fixed"
  | .error => "Error"

end SchemaBinding
