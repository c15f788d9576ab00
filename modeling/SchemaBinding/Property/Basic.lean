import SchemaBinding.Converter.Basic

/-!
# Properties

A property is a pair of functions on the type `σ` of objects; without a setter it is read-only.
-/

namespace SchemaBinding

structure Property (σ : Type) where
  name : String
  declaring : String
  shape : Shape
  get : σ → Value
  setter : Option (Value → ExceptT ValueError (StateM σ) Unit) := none
  converter : Option Converter := none

namespace Property

variable {σ : Type}

def isWritable (p : Property σ) : Bool := p.setter.isSome

/-- Writes a value; without a setter this fails and leaves the object alone. -/
def set (p : Property σ) (value : Value) : ExceptT ValueError (StateM σ) Unit :=
  match p.setter with
  | some setter => setter value
  | none => throw (.noSetter p.name)

def outline (p : Property σ) : String :=
  Outline.struct "Property"
    [("name", Outline.string p.name), ("declaring_type", Outline.string p.declaring),
      ("runtime_type", p.shape.outline), ("writable", Outline.bool p.isWritable),
      ("converter", Outline.option (fun c => Outline.string c.name) p.converter)]

end Property

/-! ## Sets of properties -/

/-- The properties of a type, each name once, in the order in which they were last added. -/
structure PropertySet (σ : Type) where
  typeName : String
  properties : List (Property σ) := []

namespace PropertySet

variable {σ : Type}

/-- Adds a property in place of one with the same name. -/
def add (s : PropertySet σ) (p : Property σ) : PropertySet σ :=
  { s with properties := s.properties.filter (·.name != p.name) ++ [p] }

def ofList (typeName : String) (properties : List (Property σ)) : PropertySet σ :=
  properties.foldl add { typeName }

def find? (s : PropertySet σ) (name : String) : Option (Property σ) :=
  s.properties.find? (·.name == name)

def size (s : PropertySet σ) : Nat := s.properties.length

def isEmpty (s : PropertySet σ) : Bool := s.properties.isEmpty

end PropertySet

end SchemaBinding
