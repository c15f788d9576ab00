import SchemaBinding.Proofs.Schema.Name
import SchemaBinding.Proofs.Schema.Parts

/-!
# Well-formed schemas

The rules are read in document order, where a record counts from its start.
-/

namespace SchemaBinding

/-- Full names and the kinds they were defined as, the earliest first. -/
abbrev Names := List (String × Kind)

/-! ## The names that a schema defines -/

/-- The name that a schema defines itself, apart from those that its parts define. -/
def Schema.defined? (s : Schema) : Option (String × Kind) :=
  if s.isDefinition then s.fullname?.map fun fullname => (fullname, s.kind) else none

/-- Every name that is defined inside a schema. -/
def Schema.names (s : Schema) : Names := s.parts.filterMap Schema.defined?

namespace Schema

theorem names_record (role : RecordRole) (body : RecordSchema) :
    (record role body).names =
      (body.fullname, role.kind) :: body.fields.flatMap fun field => field.type.names := by
  unfold names
  rw [parts, RecordSchema.parts_eq, List.filterMap_cons, List.filterMap_flatMap]
  rfl

theorem names_union (branches : List Schema) :
    (union branches).names = branches.flatMap names := by
  unfold names
  rw [parts, partsList_eq, List.filterMap_cons, List.filterMap_flatMap]
  rfl

theorem names_array (items : Schema) : (array items).names = items.names := by
  unfold names
  rw [parts, List.filterMap_cons]
  rfl

theorem names_map (values : Schema) : (map values).names = values.names := by
  unfold names
  rw [parts, List.filterMap_cons]
  rfl

end Schema

/-! ## The rules -/

/-- A definition may have this name and namespace. Inside a namespace it needs one of its own. -/
structure Definable (around : Option String) (before : Names) (name : String)
    (space : Option String) : Prop where
  simple : nameFault? name = none
  placed : match space with
    | some space => fullnameFault? space = none
    | none => around = none
  new : fullnameOf name space ∉ before.map (·.1)

/-- A reference finds its definition under its own text, and nothing else stands for that text. -/
structure Known (around : Option String) (before : Names) (fullname : String) (kind : Kind) :
    Prop where
  defined : (fullname, kind) ∈ before
  notPrimitive : Primitive.ofName? fullname = none
  nearest : hasDot fullname = false → ∀ space, around = some space →
    qualify space fullname ∉ before.map (·.1)

structure EnumSchema.WellFormed (e : EnumSchema) : Prop where
  nonempty : e.symbols ≠ []
  symbols : ∀ symbol ∈ e.symbols, nameFault? symbol = none
  default : ∀ symbol, e.default = some symbol → symbol ∈ e.symbols

/-- What tells the branches of a union apart. -/
def Schema.key (s : Schema) : Kind × Option String := (s.kind, s.fullname?)

/-- A union has branches, none of them a union, and no two with one key. -/
structure UnionRules (branches : List Schema) : Prop where
  nonempty : branches ≠ []
  flat : ∀ branch ∈ branches, branch.isUnion = false
  distinct : (branches.map Schema.key).Nodup

mutual

/-- Well-formed inside a namespace and after some definitions. -/
def Schema.WellFormed (around : Option String) (before : Names) : Schema → Prop
  | .primitive _ => True
  | .record role body => body.WellFormed around before role
  | .enumeration body => Definable around before body.name body.space ∧ body.WellFormed
  | .array items => items.WellFormed around before
  | .map values => values.WellFormed around before
  | .union branches => UnionRules branches ∧ Schema.WellFormedList around before branches
  | .fixed body => Definable around before body.name body.space
  | .reference fullname kind => Known around before fullname kind

def RecordSchema.WellFormed (around : Option String) (before : Names) (role : RecordRole) :
    RecordSchema → Prop
  | ⟨name, space, fields, _, _⟩ =>
    Definable around before name space ∧ (fields.map (·.name.text)).Nodup ∧
      Field.WellFormedList space (before ++ [(fullnameOf name space, role.kind)]) fields

/-- Each field comes after the definitions in the fields before it. -/
def Field.WellFormedList (around : Option String) (before : Names) : List Field → Prop
  | [] => True
  | ⟨_, type, fromRegistry, _, _⟩ :: fields =>
    fromRegistry = type.isReference ∧ type.WellFormed around before ∧
      Field.WellFormedList around (before ++ type.names) fields

def Schema.WellFormedList (around : Option String) (before : Names) : List Schema → Prop
  | [] => True
  | branch :: branches =>
    branch.WellFormed around before ∧
      Schema.WellFormedList around (before ++ branch.names) branches

end

theorem Definable.fullname {around : Option String} {before : Names} {name : String}
    {space : Option String} (h : Definable around before name space) :
    fullnameFault? (fullnameOf name space) = none := by
  cases space with
  | none => exact fullnameFault?_of_name h.simple
  | some space =>
    rw [fullnameOf_some h.placed h.simple]
    exact fullnameFault?_qualify h.placed h.simple

end SchemaBinding
