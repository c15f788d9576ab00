import SchemaBinding.Proofs.Schema.Parts

/-!
# Tables without unions

A reference leads to a schema that a value can be held against at once.
-/

namespace SchemaBinding

namespace Definitions

def UnionFree (d : Definitions) : Prop :=
  ∀ fullname schema, d.find? fullname = some schema → schema.isUnion = false

variable {d : Definitions} {fullname : String} {schema : Schema}

theorem unionFree_empty : UnionFree .empty := nofun

theorem unionFree_of_entries (h : ∀ entry ∈ d.entries, entry.2.isUnion = false) : d.UnionFree :=
  fun fullname schema found => h (fullname, schema) (mem_of_find? found)

theorem UnionFree.insert (h : d.UnionFree) (notUnion : schema.isUnion = false) :
    (d.insert fullname schema).UnionFree := by
  intro other entry found
  rw [find?_insert] at found
  split at found
  · cases found
    exact notUnion
  · exact h other entry found

theorem UnionFree.resolve? (h : d.UnionFree) (found : d.resolve? fullname = some schema) :
    schema.isUnion = false ∧ schema.isReference = false := by
  refine ⟨h fullname schema (find?_of_resolve? found), ?_⟩
  obtain ⟨-, complete⟩ := Option.filter_eq_some_iff.mp found
  simpa using complete

end Definitions

/-! ## The definitions inside a record -/

open Definitions

mutual

theorem Schema.addDefinitions_unionFree : ∀ (s : Schema) {d : Definitions}, d.UnionFree →
    (s.addDefinitions d).UnionFree
  | .primitive _, _, h => h
  | .reference .., _, h => h
  | .enumeration _, _, h => h.insert rfl
  | .fixed _, _, h => h.insert rfl
  | .array items, _, h => items.addDefinitions_unionFree h
  | .map values, _, h => values.addDefinitions_unionFree h
  | .union branches, _, h => Schema.addDefinitionsList_unionFree branches h
  | .record role body, d, h => by
    rw [Schema.addDefinitions]
    split
    · exact h
    · exact body.addDefinitions_unionFree (h.insert rfl)

theorem RecordSchema.addDefinitions_unionFree : ∀ (body : RecordSchema) {d : Definitions},
    d.UnionFree → (body.addDefinitions d).UnionFree
  | ⟨_, _, fields, _, _⟩, _, h => Field.addDefinitionsList_unionFree fields h

theorem Field.addDefinitionsList_unionFree : ∀ (fields : List Field) {d : Definitions},
    d.UnionFree → (Field.addDefinitionsList fields d).UnionFree
  | [], _, h => h
  | ⟨_, type, _, _, _⟩ :: fields, _, h =>
    Field.addDefinitionsList_unionFree fields (type.addDefinitions_unionFree h)

theorem Schema.addDefinitionsList_unionFree : ∀ (branches : List Schema) {d : Definitions},
    d.UnionFree → (Schema.addDefinitionsList branches d).UnionFree
  | [], _, h => h
  | branch :: branches, _, h =>
    Schema.addDefinitionsList_unionFree branches (branch.addDefinitions_unionFree h)

end

theorem RecordSchema.definitions_unionFree (r : RecordSchema) : r.definitions.UnionFree :=
  r.addDefinitions_unionFree (unionFree_empty.insert rfl)

end SchemaBinding
