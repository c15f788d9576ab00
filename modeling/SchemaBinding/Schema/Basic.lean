import SchemaBinding.Schema.Error

/-!
# Schemas

A reference carries the kind of the definition it points to.
-/

namespace SchemaBinding

/-- A record and an error have the same parts; an error serves in messages between programs. -/
inductive RecordRole where
  | record
  | error
deriving DecidableEq, Repr

def RecordRole.kind : RecordRole → Kind
  | .record => .record
  | .error => .error

structure EnumSchema where
  name : String
  space : Option String := none
  symbols : List String
  doc : Option String := none
  default : Option String := none
deriving DecidableEq, Repr

structure FixedSchema where
  name : String
  space : Option String := none
  size : UInt64
deriving DecidableEq, Repr

mutual

inductive Schema where
  | primitive (p : Primitive)
  | record (role : RecordRole) (body : RecordSchema)
  | enumeration (body : EnumSchema)
  | array (items : Schema)
  | map (values : Schema)
  | union (branches : List Schema)
  | fixed (body : FixedSchema)
  /-- A definition that stands elsewhere, by full name. -/
  | reference (fullname : String) (kind : Kind)

/-- The parts of a record or an error. `space` is its namespace. -/
structure RecordSchema where
  name : String
  space : Option String := none
  fields : List Field
  doc : Option String := none
  aliases : List String := []

structure Field where
  name : Name
  type : Schema
  /-- The type was defined earlier and is written as a reference to it. -/
  fromRegistry : Bool := false
  /-- `some .null` is a null default, `none` is no default at all. -/
  default : Option Json := none
  order : Option SortOrder := none

end

instance : Inhabited Schema := ⟨.primitive .null⟩

/-! ## Fields -/

/-- A field with a checked name and a checked order; the name is checked first. -/
def Field.ofParts (name : String) (type : Schema) (fromRegistry : Bool) (default : Option Json)
    (order : Option String) : Except SchemaError Field := do
  let name ← Name.ofString name
  let order ← order.mapM SortOrder.ofString
  return { name, type, fromRegistry, default, order }

def Field.hasDefault (f : Field) : Bool := f.default.isSome

/-! ## Full names -/

def fullnameOf (name : String) : Option String → String
  | some space => if space.isEmpty || hasDot name then name else qualify space name
  | none => name

def EnumSchema.fullname (e : EnumSchema) : String := fullnameOf e.name e.space

def FixedSchema.fullname (f : FixedSchema) : String := fullnameOf f.name f.space

def RecordSchema.fullname (r : RecordSchema) : String := fullnameOf r.name r.space

def EnumSchema.indexOf? (e : EnumSchema) (symbol : String) : Option Nat :=
  e.symbols.findIdx? (· == symbol)

def RecordSchema.field? (r : RecordSchema) (name : String) : Option Field :=
  r.fields.find? (·.name.text == name)

namespace Schema

def fullname? : Schema → Option String
  | .record _ body => some body.fullname
  | .enumeration body => some body.fullname
  | .fixed body => some body.fullname
  | .reference fullname _ => some fullname
  | _ => none

/-! ## Kinds -/

def kind : Schema → Kind
  | .primitive p => .primitive p
  | .record role _ => role.kind
  | .enumeration _ => .enumeration
  | .array _ => .array
  | .map _ => .map
  | .union _ => .union
  | .fixed _ => .fixed
  | .reference _ kind => kind

/-- A reference is never primitive, whatever kind it carries. -/
def isPrimitive : Schema → Bool
  | .primitive _ => true
  | _ => false

def isDefinition : Schema → Bool
  | .record .. | .enumeration _ | .fixed _ => true
  | _ => false

def isReference : Schema → Bool
  | .reference .. => true
  | _ => false

def isUnion : Schema → Bool
  | .union _ => true
  | _ => false

def isNullable : Schema → Bool
  | .union branches => branches.any fun
    | .primitive .null => true
    | _ => false
  | _ => false

end Schema

end SchemaBinding
