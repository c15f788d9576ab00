import SchemaBinding.Proofs.Schema.WellFormed

/-!
# Tables that take in definitions

A table comes out the same however definitions with distinct new names were entered on the way.
-/

namespace SchemaBinding

/-- The full names that are defined among some schemas. -/
def definedNames (parts : List Schema) : List String :=
  (parts.filterMap Schema.defined?).map (·.1)

variable {before between after table : Definitions} {part : Schema} {parts others : List Schema}
  {name : String} {kind : Kind}

theorem definedNames_append (parts others : List Schema) :
    definedNames (parts ++ others) = definedNames parts ++ definedNames others := by
  unfold definedNames
  rw [List.filterMap_append, List.map_append]

theorem definedNames_cons (h : part.defined? = some (name, kind)) (parts : List Schema) :
    definedNames (part :: parts) = name :: definedNames parts := by
  unfold definedNames
  rw [List.filterMap_cons, h, List.map_cons]

theorem definedNames_cons_none (h : part.defined? = none) (parts : List Schema) :
    definedNames (part :: parts) = definedNames parts := by
  unfold definedNames
  rw [List.filterMap_cons, h]

theorem mem_definedNames : name ∈ definedNames parts ↔
    ∃ part ∈ parts, ∃ kind, part.defined? = some (name, kind) := by
  unfold definedNames
  constructor
  · intro h
    obtain ⟨⟨_, kind⟩, mem, rfl⟩ := List.mem_map.mp h
    obtain ⟨part, mem, defined⟩ := List.mem_filterMap.mp mem
    exact ⟨part, mem, kind, defined⟩
  · rintro ⟨part, mem, kind, defined⟩
    exact List.mem_map_of_mem (List.mem_filterMap.mpr ⟨part, mem, defined⟩)

namespace Definitions

/-! ## Complete definitions -/

/-- The table has a complete definition of the name. -/
def Defines (table : Definitions) (name : String) : Prop := table.resolve? name ≠ none

theorem defines_iff : table.Defines name ↔ ∃ definition, table.resolve? name = some definition :=
  Option.ne_none_iff_exists'

theorem defines_of_resolve? {s : Schema} (h : table.resolve? name = some s) : table.Defines name :=
  defines_iff.mpr ⟨s, h⟩

theorem resolve?_insert {other : String} : (table.insert name part).resolve? other =
    if other = name then (some part).filter (fun part => !part.isReference)
    else table.resolve? other := by
  unfold resolve?
  rw [find?_insert]
  split <;> rfl

theorem defines_insert {other : String} (complete : part.isReference = false) :
    (table.insert name part).Defines other ↔ other = name ∨ table.Defines other := by
  unfold Defines
  rw [resolve?_insert]
  by_cases same : other = name <;> simp [same, complete]

theorem defines_insert_reference {other fullname : String} (free : ¬ table.Defines name) :
    (table.insert name (.reference fullname kind)).Defines other ↔ table.Defines other := by
  unfold Defines at free ⊢
  rw [resolve?_insert]
  by_cases same : other = name
  · rw [if_pos same, same, Classical.not_not.mp free]
    rfl
  · rw [if_neg same]

/-- The table has the name, but a reference stands in the place of the definition. -/
def Pending (table : Definitions) (name : String) : Prop :=
  ∃ entry, table.find? name = some entry ∧ entry.isReference = true

/-- The name has a complete definition of the kind. -/
def DefinesAs (table : Definitions) (name : String) (kind : Kind) : Prop :=
  ∃ definition, table.resolve? name = some definition ∧ definition.kind = kind

theorem resolve?_eq_some {s : Schema} :
    table.resolve? name = some s ↔ table.find? name = some s ∧ s.isReference = false := by
  unfold resolve?
  rw [Option.filter_eq_some_iff, Bool.not_eq_true']

theorem resolve?_of_find? {s : Schema} (found : table.find? name = some s)
    (settled : ¬ table.Pending name) : table.resolve? name = some s :=
  resolve?_eq_some.mpr
    ⟨found, Bool.eq_false_iff.mpr fun reference => settled ⟨s, found, reference⟩⟩

theorem not_defines_of_pending (h : table.Pending name) : ¬ table.Defines name := by
  obtain ⟨entry, found, reference⟩ := h
  intro defined
  obtain ⟨s, resolved⟩ := defines_iff.mp defined
  obtain ⟨found', complete⟩ := resolve?_eq_some.mp resolved
  obtain rfl := Option.some.inj (found.symm.trans found')
  rw [reference] at complete
  cases complete

/-! ## Taking in definitions -/

/-- `after` has the definitions among the parts under their names, and is else as `before`. -/
structure Adds (before : Definitions) (parts : List Schema) (after : Definitions) : Prop where
  entered : ∀ part ∈ parts, ∀ name kind, part.defined? = some (name, kind) →
    after.find? name = some part
  kept : ∀ name, name ∉ definedNames parts → after.find? name = before.find? name

/-- The definitions among the parts have distinct names, and none of them is in the table. -/
structure Room (table : Definitions) (parts : List Schema) : Prop where
  distinct : (definedNames parts).Nodup
  free : ∀ name ∈ definedNames parts, table.find? name = none

theorem room_empty (distinct : (definedNames parts).Nodup) : Room .empty parts :=
  ⟨distinct, fun _ _ => rfl⟩

theorem Room.left (h : Room table (parts ++ others)) : Room table parts := by
  obtain ⟨distinct, free⟩ := h
  rw [definedNames_append] at distinct free
  obtain ⟨distinct, -, -⟩ := List.nodup_append.mp distinct
  exact ⟨distinct, fun name mem => free name (List.mem_append_left _ mem)⟩

theorem Room.right (h : Room before (parts ++ others)) (adds : Adds before parts between) :
    Room between others := by
  obtain ⟨distinct, free⟩ := h
  rw [definedNames_append] at distinct free
  obtain ⟨-, distinct, apart⟩ := List.nodup_append.mp distinct
  refine ⟨distinct, fun name mem => ?_⟩
  rw [adds.kept name fun earlier => apart name earlier name mem rfl]
  exact free name (List.mem_append_right _ mem)

theorem Room.tail (h : Room table (part :: parts)) (defined : part.defined? = some (name, kind))
    (schema : Schema) : name ∉ definedNames parts ∧ Room (table.insert name schema) parts := by
  obtain ⟨distinct, free⟩ := h
  rw [definedNames_cons defined] at distinct free
  obtain ⟨new, distinct⟩ := List.nodup_cons.mp distinct
  refine ⟨new, distinct, fun other mem => ?_⟩
  rw [find?_insert, if_neg fun same : other = name => new (same ▸ mem)]
  exact free other (List.mem_cons_of_mem _ mem)

theorem Room.tail_none (h : Room table (part :: parts)) (undefined : part.defined? = none) :
    Room table parts := by
  obtain ⟨distinct, free⟩ := h
  rw [definedNames_cons_none undefined] at distinct free
  exact ⟨distinct, free⟩

theorem adds_nil : Adds table [] table := ⟨nofun, fun _ _ => rfl⟩

theorem Adds.append (first : Adds before parts between) (second : Adds between others after)
    (distinct : (definedNames (parts ++ others)).Nodup) : Adds before (parts ++ others) after := by
  rw [definedNames_append] at distinct
  obtain ⟨-, -, apart⟩ := List.nodup_append.mp distinct
  constructor
  · intro part mem name kind defined
    rcases List.mem_append.mp mem with earlier | later
    · have mem := mem_definedNames.mpr ⟨part, earlier, kind, defined⟩
      rw [second.kept name fun later => apart name mem name later rfl]
      exact first.entered part earlier name kind defined
    · exact second.entered part later name kind defined
  · intro name new
    rw [definedNames_append, List.mem_append, not_or] at new
    rw [second.kept name new.2, first.kept name new.1]

theorem Adds.cons_none (h : Adds before parts after) (undefined : part.defined? = none) :
    Adds before (part :: parts) after := by
  constructor
  · intro other mem name kind defined
    rcases List.mem_cons.mp mem with rfl | mem
    · rw [undefined] at defined
      cases defined
    · exact h.entered other mem name kind defined
  · intro name new
    rw [definedNames_cons_none undefined] at new
    exact h.kept name new

theorem Adds.cons_last {schema : Schema} (h : Adds (before.insert name schema) parts after)
    (defined : part.defined? = some (name, kind)) (new : name ∉ definedNames parts) :
    Adds before (part :: parts) (after.insert name part) := by
  constructor
  · intro other mem name' kind' defined'
    rw [find?_insert]
    rcases List.mem_cons.mp mem with rfl | mem
    · rw [defined] at defined'
      cases defined'
      rw [if_pos rfl]
    · have later := mem_definedNames.mpr ⟨other, mem, kind', defined'⟩
      rw [if_neg fun same : name' = name => new (same ▸ later)]
      exact h.entered other mem name' kind' defined'
  · intro other absent
    rw [definedNames_cons defined, List.mem_cons, not_or] at absent
    rw [find?_insert, if_neg absent.1, h.kept other absent.2, find?_insert, if_neg absent.1]

theorem Adds.cons_first (h : Adds (before.insert name part) parts after)
    (defined : part.defined? = some (name, kind)) (new : name ∉ definedNames parts) :
    Adds before (part :: parts) after := by
  constructor
  · intro other mem name' kind' defined'
    rcases List.mem_cons.mp mem with rfl | mem
    · rw [defined] at defined'
      cases defined'
      rw [h.kept name new, find?_insert, if_pos rfl]
    · exact h.entered other mem name' kind' defined'
  · intro other absent
    rw [definedNames_cons defined, List.mem_cons, not_or] at absent
    rw [h.kept other absent.2, find?_insert, if_neg absent.1]

theorem adds_insert (defined : part.defined? = some (name, kind)) :
    Adds table [part] (table.insert name part) :=
  adds_nil.cons_first defined List.not_mem_nil

theorem Adds.find?_eq_of_ne {after' : Definitions} {part' : Schema} {kind' : Kind} {other : String}
    (h : Adds before (part :: parts) after) (h' : Adds before (part' :: parts) after')
    (defined : part.defined? = some (name, kind)) (defined' : part'.defined? = some (name, kind'))
    (ne : other ≠ name) : after.find? other = after'.find? other := by
  by_cases mem : other ∈ definedNames parts
  · obtain ⟨inner, mem, _, own⟩ := mem_definedNames.mp mem
    rw [h.entered inner (List.mem_cons_of_mem _ mem) other _ own,
      h'.entered inner (List.mem_cons_of_mem _ mem) other _ own]
  · rw [h.kept other, h'.kept other]
    · rw [definedNames_cons defined', List.mem_cons, not_or]
      exact ⟨ne, mem⟩
    · rw [definedNames_cons defined, List.mem_cons, not_or]
      exact ⟨ne, mem⟩

theorem Adds.resolve?_eq {s : Schema} (h : Adds .empty parts after)
    (found : after.find? name = some s) : after.resolve? name = some s := by
  have mem : name ∈ definedNames parts := by
    refine Decidable.of_not_not fun new => ?_
    rw [h.kept name new] at found
    cases found
  obtain ⟨part, mem, kind, defined⟩ := mem_definedNames.mp mem
  obtain rfl := Option.some.inj (found.symm.trans (h.entered part mem name kind defined))
  unfold resolve?
  rw [found]
  cases s <;> first | rfl | cases defined

end Definitions

/-! ## Collecting the definitions of a schema -/

open Definitions

theorem defined?_record (role : RecordRole) (body : RecordSchema) :
    (Schema.record role body).defined? = some (body.fullname, role.kind) := rfl

mutual

theorem Schema.addDefinitions_adds : ∀ (s : Schema) (d : Definitions), d.Room s.parts →
    d.Adds s.parts (s.addDefinitions d)
  | .primitive _, _, _ => adds_nil.cons_none rfl
  | .reference .., _, _ => adds_nil.cons_none rfl
  | .enumeration _, _, _ => adds_insert rfl
  | .fixed _, _, _ => adds_insert rfl
  | .array items, d, room => (items.addDefinitions_adds d (room.tail_none rfl)).cons_none rfl
  | .map values, d, room => (values.addDefinitions_adds d (room.tail_none rfl)).cons_none rfl
  | .union branches, d, room =>
    (Schema.addDefinitionsList_adds branches d (room.tail_none rfl)).cons_none rfl
  | .record role body, d, room => by
    obtain ⟨new, rest⟩ := room.tail (defined?_record role body) (.record role body)
    have mem : body.fullname ∈ definedNames (Schema.record role body).parts :=
      mem_definedNames.mpr ⟨_, List.mem_cons_self, role.kind, rfl⟩
    have free := room.free body.fullname mem
    have absent : ¬ d.contains body.fullname = true := by simp [contains, free]
    rw [Schema.addDefinitions, if_neg absent]
    exact (body.addDefinitions_adds _ rest).cons_first rfl new

theorem RecordSchema.addDefinitions_adds : ∀ (body : RecordSchema) (d : Definitions),
    d.Room body.parts → d.Adds body.parts (body.addDefinitions d)
  | ⟨_, _, fields, _, _⟩, d, room => Field.addDefinitionsList_adds fields d room

theorem Field.addDefinitionsList_adds : ∀ (fields : List Field) (d : Definitions),
    d.Room (Field.partsList fields) →
      d.Adds (Field.partsList fields) (Field.addDefinitionsList fields d)
  | [], _, _ => adds_nil
  | ⟨_, type, _, _, _⟩ :: fields, d, room =>
    have first := type.addDefinitions_adds d room.left
    first.append (Field.addDefinitionsList_adds fields _ (room.right first)) room.distinct

theorem Schema.addDefinitionsList_adds : ∀ (branches : List Schema) (d : Definitions),
    d.Room (Schema.partsList branches) →
      d.Adds (Schema.partsList branches) (Schema.addDefinitionsList branches d)
  | [], _, _ => adds_nil
  | branch :: branches, d, room =>
    have first := branch.addDefinitions_adds d room.left
    first.append (Schema.addDefinitionsList_adds branches _ (room.right first)) room.distinct

end

end SchemaBinding
