import SchemaBinding.Converter.Basic
import SchemaBinding.Event

/-!
# The registry of converters

A converter is registered for one shape or for a whole family of shapes; the one for the shape is
preferred.
-/

namespace SchemaBinding

namespace Registry

inductive Key where
  | exact (shape : Shape)
  | family (group : Family)
deriving DecidableEq, Repr

def Key.display : Key → String
  | .exact shape => shape.display
  | .family group => "any " ++ group.outline

end Registry

/-- A converter and what it is for; its own kind belongs to the key. -/
structure Registration where
  key : Registry.Key
  converter : Converter

/-- Registers a string converter for the enumeration with a name. -/
def Registration.enumeration (name : String) (symbols : List String) : Registration :=
  ⟨.exact (.enumeration name), .enumSymbols symbols⟩

structure DuplicateConverter where
  kind : Kind
  key : Registry.Key
deriving DecidableEq, Repr

def DuplicateConverter.message (e : DuplicateConverter) : String :=
  "A converter for schema type " ++ e.kind.name ++ " and runtime type " ++ e.key.display
    ++ " is already registered"

/-- The accepted registrations, the oldest first. -/
structure Registry where
  registrations : List Registration

namespace Registry

def empty : Registry := ⟨[]⟩

def defaults : Registry := ⟨[⟨.exact (.compound Converter.timestampName), .timestamp⟩]⟩

def find? (r : Registry) (kind : Kind) (key : Key) : Option Converter :=
  (r.registrations.find? fun g => g.converter.kind == kind && g.key == key).map (·.converter)

def add (r : Registry) (g : Registration) : Except DuplicateConverter Registry :=
  if (r.find? g.converter.kind g.key).isSome then .error ⟨g.converter.kind, g.key⟩
  else .ok ⟨r.registrations ++ [g]⟩

def addAll (r : Registry) (gs : List Registration) : Except DuplicateConverter Registry :=
  gs.foldlM add r

inductive Match where
  | exact (converter : Converter)
  | family (converter : Converter)

def Match.converter : Match → Converter
  | .exact converter => converter
  | .family converter => converter

/-- The converter for a kind and a shape: by the shape itself, else by its family. -/
def lookup (r : Registry) (kind : Kind) (shape : Shape) : Option Match :=
  match r.find? kind (.exact shape) with
  | some converter => some (.exact converter)
  | none => (r.find? kind (.family shape.family)).map .family

def lookupEvents (kind : Kind) (shape : Shape) : Option Match → List Event
  | some (.exact converter) =>
    [⟨.debug, "Exact converter match",
      [("kind", kind.name), ("runtime_type", shape.display), ("converter", converter.name)]⟩]
  | some (.family converter) =>
    [⟨.debug, "Family converter match",
      [("kind", kind.name), ("runtime_type", shape.display), ("family", shape.family.outline),
        ("converter", converter.name)]⟩]
  | none => []

def size (r : Registry) : Nat := r.registrations.length

def isEmpty (r : Registry) : Bool := r.size == 0

def Key.isExact : Key → Bool
  | .exact _ => true
  | .family _ => false

def outline (r : Registry) : String :=
  let exact := r.registrations.countP (·.key.isExact)
  Outline.struct "ConverterRegistry"
    [("exact", toString exact), ("family", toString (r.size - exact))]

end Registry

end SchemaBinding
