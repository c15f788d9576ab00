import SchemaBinding.Json.Printer
import SchemaBinding.Schema.Kind
import SchemaBinding.Schema.Name

/-!
# What can be wrong with a schema
-/

namespace SchemaBinding

/-- Why a document is not accepted as a schema. -/
inductive SchemaError where
  | malformedText
  | invalidName (name : String) (fault : NameFault)
  | invalidOrder (text : String)
  | unknownType (name : String)
  | notASchema (found : Json)
  | missingType
  | missingItems
  | missingValues
  | emptyUnion
  | nestedUnion (position : Nat)
  | duplicateBranch (key : String) (position : Nat)
  | missingName (kind : Kind)
  | redefined (fullname : String)
  | missingFields (kind : Kind)
  | duplicateField (field fullname : String)
  | fieldNotObject
  | fieldWithoutName
  | fieldWithoutType (field : String)
  | missingSymbols
  | symbolNotString (found : Json)
  | noSymbols
  | defaultNotSymbol (symbol : String)
  | missingSize

namespace SchemaError

inductive Category where
  | parseError
  | invalidName
  | invalidOrder
  | unsupportedType
  | invalidSchema
deriving DecidableEq, Repr

def category : SchemaError → Category
  | .malformedText => .parseError
  | .invalidName .. => .invalidName
  | .invalidOrder _ => .invalidOrder
  | .unknownType _ => .unsupportedType
  | _ => .invalidSchema

/-- What the message says after the opening words of its category. -/
def reason : SchemaError → String
  | .malformedText => "Invalid JSON"
  | .invalidName name fault => "'" ++ name ++ "': " ++ fault.message
  | .invalidOrder text => "'" ++ text ++ "' (expected ascending, descending or ignore)"
  | .unknownType name => "Unknown type: " ++ name
  | .notASchema found => "Expected string, object, or array, found: " ++ found.render
  | .missingType => "Missing 'type' field"
  | .missingItems => "Array missing 'items' field"
  | .missingValues => "Map missing 'values' field"
  | .emptyUnion => "Union schema cannot be empty"
  | .nestedUnion position =>
    "Union contains nested union at position " ++ toString position ++ " (unions cannot be nested)"
  | .duplicateBranch key position =>
    "Union contains duplicate type '" ++ key ++ "' at position " ++ toString position
  | .missingName kind => kind.name ++ " missing 'name' field"
  | .redefined fullname => "Named type '" ++ fullname ++ "' is defined more than once"
  | .missingFields kind => kind.name ++ " missing 'fields' array"
  | .duplicateField field fullname => "Duplicate field '" ++ field ++ "' in " ++ fullname
  | .fieldNotObject => "Field must be an object"
  | .fieldWithoutName => "Field requires a 'name' attribute"
  | .fieldWithoutType field => "Field '" ++ field ++ "' missing 'type'"
  | .missingSymbols => "Enum missing 'symbols' array"
  | .symbolNotString found => "Enum symbol must be a string: " ++ found.render
  | .noSymbols => "Enum must have at least one symbol"
  | .defaultNotSymbol symbol => "Enum default '" ++ symbol ++ "' is not one of its symbols"
  | .missingSize => "Fixed missing 'size' field"

def message (e : SchemaError) : String :=
  (match e.category with
    | .parseError => "Parse error: "
    | .invalidName => "Invalid name "
    | .invalidOrder => "Invalid field sort order "
    | .unsupportedType => "Unsupported type: "
    | .invalidSchema => "Invalid schema: ") ++ e.reason

end SchemaError

/-! ## Checked names -/

def checkName (text : String) : Except SchemaError Unit :=
  match nameFault? text with
  | none => .ok ()
  | some fault => .error (.invalidName text fault)

def checkFullname (text : String) : Except SchemaError Unit :=
  match fullnameFault? text with
  | none => .ok ()
  | some fault => .error (.invalidName text fault)

def Name.ofString (text : String) : Except SchemaError Name :=
  match h : nameFault? text with
  | none => .ok ⟨text, h⟩
  | some fault => .error (.invalidName text fault)

/-! ## Sort orders -/

inductive SortOrder where
  | ascending
  | descending
  | ignore
deriving DecidableEq, Repr

def SortOrder.name : SortOrder → String
  | .ascending => "ascending"
  | .descending => "descending"
  | .ignore => "ignore"

/-- The order with a name, letter for letter. -/
def SortOrder.ofString : String → Except SchemaError SortOrder
  | "ascending" => .ok .ascending
  | "descending" => .ok .descending
  | "ignore" => .ok .ignore
  | text => .error (.invalidOrder text)

theorem SortOrder.ofString_name (o : SortOrder) : SortOrder.ofString o.name = .ok o := by
  cases o <;> rfl

end SchemaBinding
