import SchemaBinding.Binding.Error
import SchemaBinding.Converter.Registry
import SchemaBinding.Property.Basic

/-!
# Binding a property

A property is bound to a kind of schema directly or through a converter. Whether that is possible is
decided once, when the binding is made.
-/

namespace SchemaBinding

/-- How a property meets a kind of schema. -/
inductive Route where
  | direct
  | explicit (converter : Converter)
  | registered (found : Registry.Match)

def Route.converter? : Route → Option Converter
  | .direct => none
  | .explicit converter => some converter
  | .registered found => some found.converter

namespace Route

/-- A converter serves the kind it declares, and as an explicit choice any union. -/
def serves (converter : Converter) (kind : Kind) : Bool :=
  (converter.kind == kind || kind == .union) && converter.exposed.holds kind

/-- What the registry has to offer, if it is asked at all. -/
def registryMatch (shape : Shape) (kind : Kind) (explicit : Option Converter)
    (registry : Registry) : Option Registry.Match :=
  if explicit.isNone && !shape.holds kind then registry.lookup kind shape else none

/--
The route from a shape to a kind. An explicit converter is taken or nothing is; without one the
shape itself is tried first, then the registry.
-/
def find? (shape : Shape) (kind : Kind) (explicit : Option Converter) (registry : Registry) :
    Option Route :=
  match explicit with
  | some converter => if serves converter kind then some (.explicit converter) else none
  | none =>
    if shape.holds kind then some .direct
    else (registryMatch shape kind explicit registry).map .registered

end Route

structure Binding (σ : Type) where
  property : Property σ
  kind : Kind
  converter : Option Converter

structure BindingIdentity where
  declaring : String
  property : String
  kind : Kind
deriving DecidableEq, Repr

namespace Binding

variable {σ : Type}

/-! ## Making bindings -/

/-- Binds a property through the given converter, or without one as the property's shape allows. -/
def make (property : Property σ) (kind : Kind) (explicit : Option Converter)
    (registry : Registry) : Except BindingError (Binding σ) :=
  match Route.find? property.shape kind explicit registry with
  | some route => .ok { property, kind, converter := route.converter? }
  | none => .error (.incompatible property.name property.declaring kind)

/-- Binds a property through its own converter, if it has one. -/
def bind (property : Property σ) (kind : Kind) (registry : Registry) :
    Except BindingError (Binding σ) :=
  make property kind property.converter registry

def routeEvent (property : Property σ) (kind : Kind) (route : Route) : Event :=
  let about :=
    [("property", property.name), ("declaring_type", property.declaring), ("kind", kind.name)]
  match route with
  | .direct => ⟨.trace, "Bound property directly", about⟩
  | .explicit converter =>
    ⟨.debug, "Bound property through explicit converter", about ++ [("converter", converter.name)]⟩
  | .registered found =>
    ⟨.debug, "Bound property through default converter",
      about ++ [("converter", found.converter.name)]⟩

/-- What `make` reports: the look-up in the registry, if there was one, and the route taken. -/
def makeEvents (property : Property σ) (kind : Kind) (explicit : Option Converter)
    (registry : Registry) : List Event :=
  Registry.lookupEvents kind property.shape
      (Route.registryMatch property.shape kind explicit registry)
    ++ (Route.find? property.shape kind explicit registry).toList.map (routeEvent property kind)

def bindEvents (property : Property σ) (kind : Kind) (registry : Registry) : List Event :=
  makeEvents property kind property.converter registry

/-! ## Reading and writing -/

def get (b : Binding σ) (object : σ) : Except BindingError Value :=
  match b.converter with
  | some converter =>
    (converter.toSchema (b.property.get object)).mapError
      (.conversion b.property.name b.property.declaring)
  | none => .ok (b.property.get object)

/-- The value that `set` would hand to the property. -/
def fromSchema (b : Binding σ) (value : Value) : Except BindingError Value :=
  if b.property.isWritable then
    match b.converter with
    | some converter =>
      (converter.fromSchema value).mapError (.conversion b.property.name b.property.declaring)
    | none => .ok value
  else .error (.readOnly b.property.name b.property.declaring)

def write (b : Binding σ) (value : Value) : ExceptT BindingError (StateM σ) Unit :=
  (b.property.set value).adapt (.write b.property.name b.property.declaring)

def set (b : Binding σ) (value : Value) : ExceptT BindingError (StateM σ) Unit := do
  let value ← b.fromSchema value
  b.write value

/-! ## What a binding is -/

/-- The shape that readers and writers of the schema deal with. -/
def effectiveShape (b : Binding σ) : Shape :=
  match b.converter with
  | some converter => converter.exposed
  | none => b.property.shape

def isConverted (b : Binding σ) : Bool := b.converter.isSome

def identity (b : Binding σ) : BindingIdentity :=
  ⟨b.property.declaring, b.property.name, b.kind⟩

def beq (a b : Binding σ) : Bool := a.identity == b.identity

instance : BEq (Binding σ) := ⟨beq⟩

def outline (b : Binding σ) : String :=
  Outline.struct "PropertyBinding"
    [("declaring_type", Outline.string b.property.declaring),
      ("property", Outline.string b.property.name), ("kind", b.kind.outline),
      ("converter", Outline.option (fun c => Outline.string c.name) b.converter)]

end Binding

end SchemaBinding
