import SchemaBinding.Json.Basic
import SchemaBinding.Text.Base64
import SchemaBinding.Value.Basic
import SchemaBinding.Value.Error

/-!
# Values as JSON

Byte strings become base 64, an enumeration becomes its symbol and a union its content. A number
that is not finite has no JSON form; the first one met, from left to right, is the error.
-/

namespace SchemaBinding.Value

def floatToJson (x : Float) : Except ValueError Json :=
  match Json.Number.ofFloat? x with
  | some n => .ok (.num n)
  | none => .error (.notFinite x)

mutual

def toJson : Value → Except ValueError Json
  | .null => .ok .null
  | .boolean b => .ok (.bool b)
  | .int n => .ok (.num (.ofInt32 n))
  | .long n => .ok (.num (.ofInt64 n))
  | .float x => floatToJson (Binary.widen x)
  | .double x => floatToJson x
  | .bytes data | .fixed data => .ok (.str (Base64.encode data))
  | .string s => .ok (.str s)
  | .record fields => do return .obj (Json.Members.ofList (← entriesToJson fields))
  | .enumeration _ symbol => .ok (.str symbol)
  | .array items => do return .arr (← itemsToJson items)
  | .map entries => do return .obj (Json.Members.ofList (← entriesToJson entries))
  | .union _ content => content.toJson

def itemsToJson : List Value → Except ValueError (List Json)
  | [] => .ok []
  | item :: items => do
    let first ← item.toJson
    return first :: (← itemsToJson items)

def entriesToJson : List (String × Value) → Except ValueError (List (String × Json))
  | [] => .ok []
  | (key, value) :: entries => do
    let first ← value.toJson
    return (key, first) :: (← entriesToJson entries)

end

end SchemaBinding.Value
