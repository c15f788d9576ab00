import SchemaBinding.Json.Printer
import SchemaBinding.Schema.Definitions
import SchemaBinding.Value.Basic

/-!
# Defaults

How a document is read as a value of a schema. A union default belongs to the first branch, and a
record may leave out fields that have defaults.
-/

namespace SchemaBinding

inductive DefaultError where
  | notNumber (n : Json.Number) (p : Primitive)
  | outOfIntRange (n : Int64)
  | wrongSize (expected : UInt64) (found : Nat)
  | unknownSymbol (symbol enumeration : String)
  | missingField (record field : String)
  | noBranches
  | unresolved (fullname : String)
  | mismatch (found : Json) (kind : Kind)
  | notLatin1 (c : Char)
  /-- The default of a type leads back to itself without end. -/
  | endless

namespace DefaultError

def message (e : DefaultError) : String :=
  "Invalid schema: " ++ match e with
    | .notNumber n p => "Cannot convert " ++ n.render ++ " to " ++ p.name
    | .outOfIntRange n => "Value " ++ toString n ++ " out of range for int"
    | .wrongSize expected found =>
      "Fixed default has wrong size: expected " ++ toString expected ++ ", got " ++ toString found
    | .unknownSymbol symbol enumeration =>
      "Unknown enum symbol '" ++ symbol ++ "' for enum '" ++ enumeration ++ "'"
    | .missingField record field =>
      "Record default for '" ++ record ++ "' is missing field '" ++ field ++ "'"
    | .noBranches => "Union has no branches"
    | .unresolved fullname =>
      "Cannot build a default through unresolved reference to '" ++ fullname ++ "'"
    | .mismatch found kind =>
      "Default " ++ found.render ++ " does not match schema type " ++ kind.name
    | .notLatin1 c => "Character '" ++ c.toString ++ "' is outside ISO-8859-1 in a bytes default"
    | .endless => "Default leads back to itself"

end DefaultError

/-! ## Documents without parts -/

/-- The bytes of a text in which every character stands for one byte. -/
def latin1Bytes : List Char → Except DefaultError (List UInt8)
  | [] => .ok []
  | c :: cs =>
    if c.toNat < 256 then (latin1Bytes cs).map (UInt8.ofNat c.toNat :: ·)
    else .error (.notLatin1 c)

namespace Value

def ofPrimitive (p : Primitive) (document : Json) : Except DefaultError Value :=
  match p, document with
  | .null, .null => .ok .null
  | .boolean, .bool b => .ok (.boolean b)
  | .int, .num n =>
    match n.toInt64? with
    | none => .error (.notNumber n .int)
    | some m =>
      if -2147483648 ≤ m.toInt ∧ m.toInt ≤ 2147483647 then .ok (.int (Int32.ofInt m.toInt))
      else .error (.outOfIntRange m)
  | .long, .num n =>
    match n.toInt64? with
    | none => .error (.notNumber n .long)
    | some m => .ok (.long m)
  | .float, .num n => .ok (.float (Binary.narrow n.toFloat))
  | .double, .num n => .ok (.double n.toFloat)
  | .bytes, .str s => (latin1Bytes s.toList).map .bytes
  | .string, .str s => .ok (.string s)
  | p, other => .error (.mismatch other (.primitive p))

def ofSymbol (e : EnumSchema) (document : Json) : Except DefaultError Value :=
  match document with
  | .str s =>
    match e.indexOf? s with
    | some index => .ok (.enumeration (Int32.ofInt index) s)
    | none => .error (.unknownSymbol s e.name)
  | other => .error (.mismatch other .enumeration)

def ofFixed (f : FixedSchema) (document : Json) : Except DefaultError Value :=
  match document with
  | .str s => do
    let data ← latin1Bytes s.toList
    if data.length ≠ f.size.toNat then throw (.wrongSize f.size data.length)
    return .fixed data
  | other => throw (.mismatch other .fixed)

end Value

/-! ## The schema a default belongs to -/

/--
Goes to the first branch of every union, and hands references over. The number counts the unions
gone through.
-/
def Schema.firstBranch (follow : String → Except DefaultError (Nat × Schema)) :
    Schema → Except DefaultError (Nat × Schema)
  | .union [] => .error .noBranches
  | .union (first :: _) => do
    let (unions, base) ← first.firstBranch follow
    return (unions + 1, base)
  | .reference fullname _ => follow fullname
  | schema => .ok (0, schema)

/-- The schema that defaults of a schema belong to, after at most `hops` references. -/
def Definitions.baseWithin (types : Definitions) : Nat → Schema → Except DefaultError (Nat × Schema)
  | 0 => Schema.firstBranch fun fullname =>
    match types.resolve? fullname with
    | none => .error (.unresolved fullname)
    | some _ => .error .endless
  | hops + 1 => Schema.firstBranch fun fullname =>
    match types.resolve? fullname with
    | none => .error (.unresolved fullname)
    | some definition => types.baseWithin hops definition

/--
The schema, neither union nor reference, that defaults of a schema belong to. A chain of references
that is longer than the table has come back to itself.
-/
def Definitions.base (types : Definitions) (schema : Schema) : Except DefaultError (Nat × Schema) :=
  types.baseWithin types.size schema

/-! ## How many defaults there are -/

mutual

def Schema.defaultCount : Schema → Nat
  | .record _ body => body.defaultCount
  | .array items => items.defaultCount
  | .map values => values.defaultCount
  | .union branches => Schema.defaultCountList branches
  | _ => 0

def RecordSchema.defaultCount : RecordSchema → Nat
  | ⟨_, _, fields, _, _⟩ => Field.defaultCountList fields

def Field.defaultCountList : List Field → Nat
  | [] => 0
  | ⟨_, type, _, default, _⟩ :: fields =>
    type.defaultCount + default.toList.length + Field.defaultCountList fields

def Schema.defaultCountList : List Schema → Nat
  | [] => 0
  | branch :: branches => branch.defaultCount + Schema.defaultCountList branches

end

def Definitions.defaultCount (types : Definitions) : Nat :=
  types.entries.foldl (fun count entry => count + entry.2.defaultCount) 0

/-! ## Documents with parts -/

namespace Value

/-- Puts a value under union wrappers, each for the first branch. -/
def wrap : Nat → Value → Value
  | 0, value => value
  | unions + 1, value => .union 0 (wrap unions value)

/-- A document as a value of a schema without parts. -/
def ofPlain (document : Json) : Schema → Except DefaultError Value
  | .primitive p => ofPrimitive p document
  | .enumeration e => ofSymbol e document
  | .fixed f => ofFixed f document
  | other => .error (.mismatch document other.kind)

section

variable (types : Definitions) (fill : Json → Schema → Except DefaultError Value)

/-- The value of a field: the given one, or else its default, which is read by `fill`. -/
def orDefault (record : String) (field : Field) (given : Option (Except DefaultError Value)) :
    Except DefaultError Value :=
  match given, field.default with
  | some value, _ => value
  | none, some default => fill default field.type
  | none, none => .error (.missingField record field.name.text)

mutual

/-- Reads a document as a value of a schema. A field that is left out is read by `fill`. -/
def convert (document : Json) (schema : Schema) : Except DefaultError Value := do
  let (unions, base) ← types.base schema
  wrap unions <$>
    match document with
    | .arr documents =>
      match base with
      | .array items => .array <$> convertItems documents items
      | other => ofPlain (.arr documents) other
    | .obj members =>
      match base with
      | .map values => .map <$> convertEntries members values
      | .record _ body =>
        .record <$> body.fields.mapM fun field =>
          (field.name.text, ·) <$>
            orDefault fill body.name field (convertMember field.name.text members field.type)
      | other => ofPlain (.obj members) other
    | document => ofPlain document base
termination_by structural document

def convertItems (documents : List Json) (schema : Schema) : Except DefaultError (List Value) :=
  match documents with
  | [] => return []
  | document :: rest => do
    let first ← convert document schema
    return first :: (← convertItems rest schema)
termination_by structural documents

def convertEntries (members : List (String × Json)) (schema : Schema) :
    Except DefaultError (List (String × Value)) :=
  match members with
  | [] => return []
  | (key, document) :: rest => do
    let first ← convert document schema
    return (key, first) :: (← convertEntries rest schema)
termination_by structural members

def convertMember (key : String) (members : List (String × Json)) (schema : Schema) :
    Option (Except DefaultError Value) :=
  match members with
  | [] => none
  | (k, document) :: rest =>
    if k = key then some (convert document schema) else convertMember key rest schema
termination_by structural members

end

end

/-- Reads a document with at most `fills` defaults taken inside one another. -/
def ofJsonWithin (types : Definitions) : Nat → Json → Schema → Except DefaultError Value
  | 0 => convert types fun _ _ => .error .endless
  | fills + 1 => convert types (ofJsonWithin types fills)

/--
Reads a document as a value of a schema, with the definitions its references may need. If more
defaults are taken inside one another than there are, one of them leads back to itself.
-/
def ofJson (document : Json) (schema : Schema) (types : Definitions) : Except DefaultError Value :=
  ofJsonWithin types (schema.defaultCount + types.defaultCount) document schema

end Value

end SchemaBinding
