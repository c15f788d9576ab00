import SchemaBinding.Json.Number
import SchemaBinding.Schema.Kind

/-!
# What can be wrong with a value
-/

namespace SchemaBinding

inductive ValueError where
  | typeMismatch (expected found : Kind)
  /-- A NaN or an infinity where a JSON number is needed. -/
  | notFinite (x : Float)
  | unknownSymbol (symbol : String)
  /-- The symbol is known, but not under this index. -/
  | symbolElsewhere (symbol : String) (index : Int32)
  | missingMember (type member : String)
  | noSetter (property : String)
  /-- A reason given by the program's own setters and converters. -/
  | outOfRange (reason : String)
  /-- A reason given by the program's own setters and converters. -/
  | invalid (reason : String)

namespace ValueError

inductive Category where
  | typeMismatch
  | outOfRange
  | invalid
deriving DecidableEq, Repr

def category : ValueError → Category
  | .typeMismatch .. => .typeMismatch
  | .notFinite _ | .outOfRange _ => .outOfRange
  | _ => .invalid

def specialName (x : Float) : String :=
  if x.isNaN then "NaN" else if x < 0 then "-inf" else "inf"

def reason : ValueError → String
  | .typeMismatch expected found => "expected " ++ expected.name ++ ", found " ++ found.name
  | .notFinite x => specialName x ++ " has no JSON representation"
  | .unknownSymbol symbol => "Unknown enum symbol '" ++ symbol ++ "'"
  | .symbolElsewhere symbol index =>
    "Enum symbol '" ++ symbol ++ "' is not at index " ++ toString index
  | .missingMember type member => type ++ " value has no '" ++ member ++ "' field"
  | .noSetter property => "property " ++ property ++ " has no setter"
  | .outOfRange reason => reason
  | .invalid reason => reason

def message (e : ValueError) : String :=
  (match e.category with
    | .typeMismatch => "Type mismatch: "
    | .outOfRange => "Value out of range: "
    | .invalid => "Invalid value: ") ++ e.reason

end ValueError

end SchemaBinding
