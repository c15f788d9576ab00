import SchemaBinding.Sequence
import SchemaBinding.Value.Default
import SchemaBinding.Value.Error

/-!
# What can go wrong with a binding
-/

namespace SchemaBinding

inductive BindingError where
  /-- The property cannot hold values of the kind and no converter helps. -/
  | incompatible (property declaring : String) (kind : Kind)
  | missingProperty (field declaring : String)
  | readOnly (property declaring : String)
  | write (property declaring : String) (cause : ValueError)
  | conversion (property declaring : String) (cause : ValueError)
  /-- The input has no value for a field without a default. -/
  | missingValue (field : String)
  | nonConforming (field : String) (kind found : Kind)
  | notARecord (record : String) (found : Kind)
  | field (name : String) (cause : BindingError)
  | sequence (cause : SequenceError)
  | default (cause : DefaultError)
  /-- Every field that did not bind. -/
  | record (record : String) (errors : List BindingError)

namespace BindingError

mutual

def message : BindingError → String
  | .incompatible property declaring kind =>
    "Property " ++ property ++ " in object " ++ declaring ++ " isn't compatible with schema type "
      ++ kind.name
  | .missingProperty name declaring =>
    "Object " ++ declaring ++ " has no property for field '" ++ name ++ "'"
  | .readOnly property declaring =>
    "Property " ++ property ++ " in object " ++ declaring ++ " is read-only"
  | .write property declaring cause =>
    "Failed to write property " ++ property ++ " in object " ++ declaring ++ ": " ++ cause.message
  | .conversion property declaring cause =>
    "Conversion failed for property " ++ property ++ " in object " ++ declaring ++ ": "
      ++ cause.message
  | .missingValue name => "No value and no default for field '" ++ name ++ "'"
  | .nonConforming name kind found =>
    "Value for field '" ++ name ++ "' does not match schema type " ++ kind.name ++ ", found "
      ++ found.name
  | .notARecord name found => "Expected a record value for " ++ name ++ ", found " ++ found.name
  | .field name cause => "Field '" ++ name ++ "': " ++ cause.message
  | .sequence cause => "Sequence error: " ++ cause.message
  | .default cause => "Schema error: " ++ cause.message
  | .record name errors =>
    "Record " ++ name ++ " has " ++ toString errors.length ++ " incompatible field(s): "
      ++ "; ".intercalate (messages errors)

def messages : List BindingError → List String
  | [] => []
  | e :: es => e.message :: messages es

end

/-- The property or field that the error is about. -/
def property? : BindingError → Option String
  | .incompatible property .. => some property
  | .readOnly property .. => some property
  | .write property .. => some property
  | .conversion property .. => some property
  | .missingProperty name _ => some name
  | .missingValue name => some name
  | .nonConforming name .. => some name
  | .field name _ => some name
  | _ => none

end BindingError

end SchemaBinding
