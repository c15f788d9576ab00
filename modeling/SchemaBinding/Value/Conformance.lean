import SchemaBinding.Schema.Definitions
import SchemaBinding.Value.Basic

/-!
# Conformance

A value conforms when it fits an alternative of the schema: a branch of a union, the definition of a
reference, or else the schema itself.
-/

namespace SchemaBinding

/-! ## Alternatives of a schema -/

mutual

/-- Whether a test passes on an alternative of a schema; `follow` decides for a reference. -/
def Schema.anyBranch (test : Schema → Bool) (follow : String → Bool) : Schema → Bool
  | .union branches => Schema.anyBranchList test follow branches
  | .reference fullname _ => follow fullname
  | schema => test schema

def Schema.anyBranchList (test : Schema → Bool) (follow : String → Bool) : List Schema → Bool
  | [] => false
  | branch :: branches =>
    branch.anyBranch test follow || Schema.anyBranchList test follow branches

end

/-- Whether a test passes on an alternative that at most `hops` references lead to. -/
def Definitions.anyWithin (types : Definitions) (test : Schema → Bool) : Nat → Schema → Bool
  | 0 => Schema.anyBranch test fun fullname => (types.resolve? fullname).isNone
  | hops + 1 => Schema.anyBranch test fun fullname =>
    match types.resolve? fullname with
    | none => true
    | some definition => types.anyWithin test hops definition

/--
Whether a test passes on an alternative of a schema. A chain of references that is longer than the
table has come back to itself: a program that follows it never returns, and here it leads to no
alternative. So `conforms` stands for the program on tables in which no name stands for a union.
-/
def Definitions.any (types : Definitions) (test : Schema → Bool) (schema : Schema) : Bool :=
  types.anyWithin test types.size schema

/-! ## Fitting an alternative -/

namespace Value

section

variable (types : Definitions)

mutual

/-- Whether a value fits a schema that is neither a union nor a reference. -/
def fits (value : Value) (schema : Schema) : Bool :=
  match value, schema with
  | .union _ content, schema => content.fits schema
  | .null, .primitive .null => true
  | .boolean _, .primitive .boolean => true
  | .int _, .primitive .int => true
  | .long _, .primitive .long => true
  | .float _, .primitive .float => true
  | .double _, .primitive .double => true
  | .bytes _, .primitive .bytes => true
  | .string _, .primitive .string => true
  | .fixed data, .fixed f => data.length == f.size.toNat
  | .enumeration _ symbol, .enumeration e => (e.indexOf? symbol).isSome
  | .array items, .array schema => allConform items schema
  | .map entries, .map schema => allEntriesConform entries schema
  | .record fields, .record _ body =>
    body.fields.all fun field =>
      (memberConforms? field.name.text fields field.type).getD field.hasDefault
  | _, _ => false
termination_by structural value

def allConform (items : List Value) (schema : Schema) : Bool :=
  match items with
  | [] => true
  | item :: rest => types.any (item.fits ·) schema && allConform rest schema
termination_by structural items

def allEntriesConform (entries : List (String × Value)) (schema : Schema) : Bool :=
  match entries with
  | [] => true
  | (_, value) :: rest => types.any (value.fits ·) schema && allEntriesConform rest schema
termination_by structural entries

/-- Whether the first field with a name conforms, if there is one. -/
def memberConforms? (name : String) (fields : List (String × Value)) (schema : Schema) :
    Option Bool :=
  match fields with
  | [] => none
  | (n, value) :: rest =>
    if n = name then some (types.any (value.fits ·) schema) else memberConforms? name rest schema
termination_by structural fields

end

end

def conforms (value : Value) (schema : Schema) (types : Definitions) : Bool :=
  types.any (value.fits types) schema

theorem allConform_eq (types : Definitions) (items : List Value) (s : Schema) :
    allConform types items s = items.all (·.conforms s types) := by
  induction items with
  | nil => rfl
  | cons item items ih => rw [allConform, ih, List.all_cons, conforms]

theorem allEntriesConform_eq (types : Definitions) (entries : List (String × Value)) (s : Schema) :
    allEntriesConform types entries s = entries.all (·.2.conforms s types) := by
  induction entries with
  | nil => rfl
  | cons entry entries ih => rw [allEntriesConform, ih, List.all_cons, conforms]

end Value

end SchemaBinding
