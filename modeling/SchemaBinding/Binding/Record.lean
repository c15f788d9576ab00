import SchemaBinding.Binding.Basic
import SchemaBinding.Schema.Definitions
import SchemaBinding.Value.Conformance

/-!
# Binding a record

Every field of a record is bound to the property of its name. Either all fields bind, or the error
lists all that do not.
-/

namespace SchemaBinding

structure BindingConfig where
  /-- What arrays are rebuilt as before they reach a property. -/
  sequenceKind : SequenceKind := .list
  /-- Whether a field with a default may do without a property. -/
  allowUnboundDefaults : Bool := false
deriving DecidableEq, Repr

/-- A field and the property bound to it. Only a field with a default can be without one. -/
structure FieldBinding (σ : Type) where
  field : Field
  binding : Option (Binding σ)

structure RecordBinding (σ : Type) where
  /-- The full name of the record. -/
  record : String
  /-- In the order of the schema. -/
  fields : List (FieldBinding σ)
  types : Definitions
  config : BindingConfig

namespace RecordBinding

variable {σ : Type}

/-! ## Making record bindings -/

def bindField (properties : PropertySet σ) (registry : Registry) (config : BindingConfig)
    (field : Field) : Except BindingError (FieldBinding σ) :=
  match properties.find? field.name.text with
  | some property => do
    let binding ← Binding.bind property field.type.kind registry
    return ⟨field, some binding⟩
  | none =>
    if config.allowUnboundDefaults && field.hasDefault then .ok ⟨field, none⟩
    else .error (.missingProperty field.name.text properties.typeName)

/-- The results and the errors of a list of attempts, each in order. -/
def partition {α : Type} : List (Except BindingError α) → List α × List BindingError
  | [] => ([], [])
  | .ok a :: rest => let (results, errors) := partition rest; (a :: results, errors)
  | .error e :: rest => let (results, errors) := partition rest; (results, e :: errors)

def bind (schema : RecordSchema) (properties : PropertySet σ) (registry : Registry)
    (config : BindingConfig) : Except BindingError (RecordBinding σ) :=
  let (fields, errors) := partition (schema.fields.map (bindField properties registry config))
  if errors.isEmpty then
    .ok { record := schema.fullname, fields, types := schema.definitions, config }
  else .error (.record schema.fullname errors)

def bindSchema (schema : Schema) (properties : PropertySet σ) (registry : Registry)
    (config : BindingConfig) : Except BindingError (RecordBinding σ) :=
  match schema with
  | .record _ body => bind body properties registry config
  | other => .error (.notARecord properties.typeName other.kind)

/-! ## What making reports -/

def bindFieldEvents (record : String) (properties : PropertySet σ) (registry : Registry)
    (config : BindingConfig) (field : Field) : List Event :=
  match properties.find? field.name.text with
  | some property => Binding.bindEvents property field.type.kind registry
  | none =>
    if config.allowUnboundDefaults && field.hasDefault then
      [⟨.debug, "Leaving defaulted field unbound",
        [("record", record), ("field", field.name.text)]⟩]
    else []

def bindEvents (schema : RecordSchema) (properties : PropertySet σ) (registry : Registry)
    (config : BindingConfig) : List Event :=
  let (fields, errors) := partition (schema.fields.map (bindField properties registry config))
  let record := ("record", schema.fullname)
  schema.fields.flatMap (bindFieldEvents schema.fullname properties registry config)
    ++ [if errors.isEmpty then
          ⟨.debug, "Bound record", [record, ("fields", toString fields.length)]⟩
        else ⟨.warn, "Record binding failed", [record, ("failed", toString errors.length)]⟩]

def bindSchemaEvents (schema : Schema) (properties : PropertySet σ) (registry : Registry)
    (config : BindingConfig) : List Event :=
  match schema with
  | .record _ body => bindEvents body properties registry config
  | _ => []

/-! ## Looking at a record binding -/

def binding? (r : RecordBinding σ) (name : String) : Option (Binding σ) :=
  (r.fields.find? (·.field.name.text == name)).bind (·.binding)

def size (r : RecordBinding σ) : Nat := r.fields.length

def isEmpty (r : RecordBinding σ) : Bool := r.fields.isEmpty

end RecordBinding

def FieldBinding.outline {σ : Type} (f : FieldBinding σ) : String :=
  Outline.struct "FieldBinding"
    [("field", Outline.string f.field.name.text),
      ("binding", Outline.option Binding.outline f.binding)]

def RecordBinding.outline {σ : Type} (r : RecordBinding σ) : String :=
  Outline.struct "RecordBinding"
    [("record", Outline.string r.record), ("fields", Outline.list FieldBinding.outline r.fields)]

namespace FieldBinding

def defaultValue {σ : Type} (f : FieldBinding σ) (types : Definitions) :
    Except BindingError Value :=
  match f.field.default with
  | some document =>
    (Value.ofJson document f.field.type types).mapError fun e =>
      .field f.field.name.text (.default e)
  | none => .error (.missingValue f.field.name.text)

end FieldBinding

namespace RecordBinding

variable {σ : Type}

/-! ## From an object to a record -/

/-- The value of one field: read from its property, or else its default. -/
def extractField (r : RecordBinding σ) (object : σ) (f : FieldBinding σ) :
    Except BindingError Value := do
  let name := f.field.name.text
  let value ←
    match f.binding with
    | some binding => (binding.get object).mapError (.field name)
    | none => f.defaultValue r.types
  if f.field.type.kind = .array ∨ f.field.type.kind = .map then
    let _ ← (Sequence.runOn value .list Sequence.count).1.mapError fun e =>
      .field name (.sequence e)
  return value

def extract (r : RecordBinding σ) (object : σ) : Except BindingError Value := do
  let values ← r.fields.mapM fun f => do return (f.field.name.text, ← r.extractField object f)
  return .record values

/-! ## From a record to an object -/

/-- The checked and converted value for the property of one field. -/
def resolveField (r : RecordBinding σ) (input : Value) (f : FieldBinding σ)
    (binding : Binding σ) : Except BindingError Value := do
  let name := f.field.name.text
  let value ←
    match input.field? name with
    | some value => .ok value
    | none => f.defaultValue r.types
  unless value.conforms f.field.type r.types do
    throw (.field name (.nonConforming name f.field.type.kind value.kind))
  let value ←
    if f.field.type.kind = .array then
      (Sequence.rebuild r.config.sequenceKind value).mapError fun e => .field name (.sequence e)
    else .ok value
  (binding.fromSchema value).mapError (.field name)

/-- The writes that a list of fields calls for; fields without a property call for none. -/
def resolveFields (r : RecordBinding σ) (input : Value) :
    List (FieldBinding σ) → Except BindingError (List (Binding σ × Value))
  | [] => .ok []
  | f :: fs =>
    match f.binding with
    | none => r.resolveFields input fs
    | some binding => do
      let value ← r.resolveField input f binding
      return (binding, value) :: (← r.resolveFields input fs)

/-- Takes one union wrapper off the input, which then has to be a record. -/
def recordInput (r : RecordBinding σ) (value : Value) : Except BindingError Value :=
  let input :=
    match value with
    | .union _ content => content
    | other => other
  match input with
  | .record fields => .ok (.record fields)
  | other => .error (.notARecord r.record other.kind)

/-- Everything that `populate` will write, in order. Nothing has been written yet. -/
def resolve (r : RecordBinding σ) (value : Value) :
    Except BindingError (List (Binding σ × Value)) := do
  let input ← r.recordInput value
  r.resolveFields input r.fields

/-- Writes resolved values in order, up to the first setter that refuses. -/
def writeAll : List (Binding σ × Value) → ExceptT BindingError (StateM σ) Unit
  | [] => pure ()
  | (binding, value) :: rest => do
    (binding.write value).adapt (.field binding.property.name)
    writeAll rest

/--
Writes a record value into an object. Fields that the record leaves out take their default. All
fields are resolved before the first one is written.
-/
def populate (r : RecordBinding σ) (value : Value) : ExceptT BindingError (StateM σ) Unit := do
  let writes ← r.resolve value
  writeAll writes

/-- What `populate` reports, once everything is resolved. -/
def populateEvents (r : RecordBinding σ) (value : Value) : List Event :=
  match r.resolve value with
  | .ok writes =>
    [⟨.trace, "Writing resolved fields",
      [("record", r.record), ("fields", toString writes.length)]⟩]
  | .error _ => []

/-! ## Populating in a memory

The same steps in the same order, for as long as the program goes on. It stops at the first field
that is to be rebuilt as an array for which there is no room.
-/

def resolveFieldIn (memory : Memory) (r : RecordBinding σ) (input : Value) (f : FieldBinding σ)
    (binding : Binding σ) : ExceptT BindingError Option Value := do
  let name := f.field.name.text
  let value ←
    match input.field? name with
    | some value => pure value
    | none => f.defaultValue r.types
  unless value.conforms f.field.type r.types do
    throw (.field name (.nonConforming name f.field.type.kind value.kind))
  let value ←
    if f.field.type.kind = .array then
      (Sequence.rebuildIn memory r.config.sequenceKind value).adapt fun e =>
        .field name (.sequence e)
    else pure value
  let converted ← (binding.fromSchema value).mapError (BindingError.field name)
  return converted

def resolveFieldsIn (memory : Memory) (r : RecordBinding σ) (input : Value) :
    List (FieldBinding σ) → ExceptT BindingError Option (List (Binding σ × Value))
  | [] => pure []
  | f :: fs =>
    match f.binding with
    | none => r.resolveFieldsIn memory input fs
    | some binding => do
      let value ← r.resolveFieldIn memory input f binding
      return (binding, value) :: (← r.resolveFieldsIn memory input fs)

def resolveIn (memory : Memory) (r : RecordBinding σ) (value : Value) :
    ExceptT BindingError Option (List (Binding σ × Value)) := do
  let input ← r.recordInput value
  r.resolveFieldsIn memory input r.fields

/-- What `populate` gives and the object it leaves; `none` where the program stops. -/
def populateIn (memory : Memory) (r : RecordBinding σ) (value : Value) (object : σ) :
    Option (Except BindingError Unit × σ) := do
  match ← (r.resolveIn memory value).run with
  | .ok writes => return (writeAll writes).run.run object
  | .error e => return (.error e, object)

end RecordBinding

end SchemaBinding
