import SchemaBinding.Schema.Definitions

/-!
# The parts of a schema

Every schema inside a schema, itself included, in document order.
-/

namespace SchemaBinding

mutual

/-- A schema and all schemas inside it, in document order. -/
def Schema.parts : Schema → List Schema
  | .record role body => .record role body :: body.parts
  | .array items => .array items :: items.parts
  | .map values => .map values :: values.parts
  | .union branches => .union branches :: Schema.partsList branches
  | .primitive p => [.primitive p]
  | .enumeration body => [.enumeration body]
  | .fixed body => [.fixed body]
  | .reference fullname kind => [.reference fullname kind]

def RecordSchema.parts : RecordSchema → List Schema
  | ⟨_, _, fields, _, _⟩ => Field.partsList fields

def Field.partsList : List Field → List Schema
  | [] => []
  | ⟨_, type, _, _, _⟩ :: fields => type.parts ++ Field.partsList fields

def Schema.partsList : List Schema → List Schema
  | [] => []
  | branch :: branches => branch.parts ++ Schema.partsList branches

end

theorem Field.partsList_cons (field : Field) (fields : List Field) :
    Field.partsList (field :: fields) = field.type.parts ++ Field.partsList fields := by
  obtain ⟨_, type, _, _, _⟩ := field
  rfl

theorem RecordSchema.parts_eq_partsList (body : RecordSchema) :
    body.parts = Field.partsList body.fields := by
  obtain ⟨_, _, fields, _, _⟩ := body
  rfl

theorem Field.partsList_eq (fields : List Field) :
    Field.partsList fields = fields.flatMap (·.type.parts) := by
  induction fields with
  | nil => rfl
  | cons field fields ih => rw [Field.partsList_cons, ih, List.flatMap_cons]

theorem Schema.partsList_eq (branches : List Schema) :
    Schema.partsList branches = branches.flatMap Schema.parts := by
  induction branches with
  | nil => rfl
  | cons branch branches ih => rw [Schema.partsList, ih, List.flatMap_cons]

theorem RecordSchema.parts_eq (body : RecordSchema) :
    body.parts = body.fields.flatMap (·.type.parts) := by
  rw [RecordSchema.parts_eq_partsList, Field.partsList_eq]

/-! ## Parts of parts -/

mutual

theorem Schema.parts_infix : ∀ (s : Schema) {t : Schema}, t ∈ s.parts → t.parts <:+: s.parts
  | .primitive _, _, mem | .enumeration _, _, mem | .fixed _, _, mem | .reference .., _, mem => by
    obtain rfl := List.mem_singleton.mp mem
    exact List.infix_rfl
  | .array items, t, mem => by
    rcases List.mem_cons.mp mem with rfl | mem
    · exact List.infix_rfl
    · exact List.infix_cons (items.parts_infix mem)
  | .map values, t, mem => by
    rcases List.mem_cons.mp mem with rfl | mem
    · exact List.infix_rfl
    · exact List.infix_cons (values.parts_infix mem)
  | .union branches, t, mem => by
    rcases List.mem_cons.mp mem with rfl | mem
    · exact List.infix_rfl
    · exact List.infix_cons (Schema.partsList_infix branches mem)
  | .record role body, t, mem => by
    rcases List.mem_cons.mp mem with rfl | mem
    · exact List.infix_rfl
    · exact List.infix_cons (body.parts_infix mem)

theorem RecordSchema.parts_infix :
    ∀ (body : RecordSchema) {t : Schema}, t ∈ body.parts → t.parts <:+: body.parts
  | ⟨_, _, fields, _, _⟩, _, mem => Field.partsList_infix fields mem

theorem Field.partsList_infix : ∀ (fields : List Field) {t : Schema},
    t ∈ Field.partsList fields → t.parts <:+: Field.partsList fields
  | [], _, mem => absurd mem List.not_mem_nil
  | ⟨_, type, _, _, _⟩ :: fields, t, mem => by
    rcases List.mem_append.mp mem with mem | mem
    · exact (type.parts_infix mem).trans (List.prefix_append ..).isInfix
    · exact (Field.partsList_infix fields mem).trans (List.suffix_append ..).isInfix

theorem Schema.partsList_infix : ∀ (branches : List Schema) {t : Schema},
    t ∈ Schema.partsList branches → t.parts <:+: Schema.partsList branches
  | [], _, mem => absurd mem List.not_mem_nil
  | branch :: branches, t, mem => by
    rcases List.mem_append.mp mem with mem | mem
    · exact (branch.parts_infix mem).trans (List.prefix_append ..).isInfix
    · exact (Schema.partsList_infix branches mem).trans (List.suffix_append ..).isInfix

end

namespace Schema

/-! ## Rules for every part -/

def Everywhere (P : Schema → Prop) (s : Schema) : Prop := ∀ t ∈ s.parts, P t

variable {P : Schema → Prop}

instance [DecidablePred P] (s : Schema) : Decidable (s.Everywhere P) :=
  inferInstanceAs (Decidable (∀ t ∈ s.parts, P t))

theorem Everywhere.self {s : Schema} (h : s.Everywhere P) : P s :=
  h s (by cases s <;> simp [parts])

theorem everywhere_array {items : Schema} :
    (array items).Everywhere P ↔ P (array items) ∧ items.Everywhere P := by
  unfold Everywhere
  rw [parts, List.forall_mem_cons]

theorem everywhere_map {values : Schema} :
    (map values).Everywhere P ↔ P (map values) ∧ values.Everywhere P := by
  unfold Everywhere
  rw [parts, List.forall_mem_cons]

theorem everywhere_union {branches : List Schema} :
    (union branches).Everywhere P ↔
      P (union branches) ∧ ∀ branch ∈ branches, branch.Everywhere P := by
  unfold Everywhere
  rw [parts, partsList_eq, List.forall_mem_cons, List.forall_mem_flatMap]

theorem everywhere_record {role : RecordRole} {body : RecordSchema} :
    (record role body).Everywhere P ↔
      P (record role body) ∧ ∀ field ∈ body.fields, field.type.Everywhere P := by
  unfold Everywhere
  rw [parts, RecordSchema.parts_eq, List.forall_mem_cons, List.forall_mem_flatMap]

theorem Everywhere.items {items : Schema} (h : (Schema.array items).Everywhere P) :
    items.Everywhere P := (everywhere_array.mp h).2

theorem Everywhere.values {values : Schema} (h : (Schema.map values).Everywhere P) :
    values.Everywhere P := (everywhere_map.mp h).2

theorem Everywhere.branch {branches : List Schema} (h : (Schema.union branches).Everywhere P)
    {branch : Schema} (mem : branch ∈ branches) : branch.Everywhere P :=
  (everywhere_union.mp h).2 branch mem

theorem Everywhere.field {role : RecordRole} {body : RecordSchema}
    (h : (Schema.record role body).Everywhere P) {field : Field} (mem : field ∈ body.fields) :
    field.type.Everywhere P := (everywhere_record.mp h).2 field mem

end Schema

def Definitions.Everywhere (P : Schema → Prop) (d : Definitions) : Prop :=
  ∀ fullname schema, d.find? fullname = some schema → schema.Everywhere P

theorem mem_of_lookup {α : Type} {entries : List (String × α)} {key : String} {a : α}
    (found : entries.lookup key = some a) : (key, a) ∈ entries := by
  obtain ⟨before, after, split, -⟩ := List.lookup_eq_some_iff.mp found
  rw [split]
  exact List.mem_append_cons_self

theorem Definitions.mem_of_find? {d : Definitions} {fullname : String} {schema : Schema}
    (found : d.find? fullname = some schema) : (fullname, schema) ∈ d.entries :=
  mem_of_lookup found

theorem Definitions.everywhere_of_entries {P : Schema → Prop} {d : Definitions}
    (h : ∀ entry ∈ d.entries, entry.2.Everywhere P) : d.Everywhere P :=
  fun fullname schema found => h (fullname, schema) (mem_of_find? found)

theorem Definitions.find?_of_resolve? {d : Definitions} {fullname : String} {schema : Schema}
    (h : d.resolve? fullname = some schema) : d.find? fullname = some schema := by
  obtain ⟨hs, -⟩ := Option.filter_eq_some_iff.mp h
  exact hs

/-! ## Distinct field names -/

/-- The fields of a record have distinct names; other schemas have none. -/
def Schema.FieldsDistinct : Schema → Prop
  | .record _ body => (body.fields.map (·.name.text)).Nodup
  | _ => True

instance : DecidablePred Schema.FieldsDistinct := fun s =>
  match s with
  | .record _ body => inferInstanceAs (Decidable (body.fields.map (·.name.text)).Nodup)
  | .primitive _ | .enumeration _ | .array _ | .map _ | .union _ | .fixed _ | .reference _ _ =>
    isTrue trivial

end SchemaBinding
