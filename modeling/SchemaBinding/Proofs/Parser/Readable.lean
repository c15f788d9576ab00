import SchemaBinding.Proofs.Parser.Keys
import SchemaBinding.Proofs.Parser.Reads

/-!
# Reads of well-formed schemas

A well-formed schema is one that the parser can read without a violation.
-/

namespace SchemaBinding

/-! ## Tables and lists of names -/

namespace Definitions

/-- The table has these names, each under its kind, and no others. -/
def Lists (types : Definitions) (names : Names) : Prop :=
  ∀ fullname kind,
    (types.find? fullname).map Schema.kind = some kind ↔ (fullname, kind) ∈ names

variable {types : Definitions} {names : Names} {fullname : String}

theorem lists_empty : Definitions.empty.Lists [] := by
  intro fullname kind
  simp

theorem Lists.find?_eq_none (h : types.Lists names) (new : fullname ∉ names.map (·.1)) :
    types.find? fullname = none := by
  cases found : types.find? fullname with
  | none => rfl
  | some schema =>
    have listed := (h fullname schema.kind).mp (by rw [found]; rfl)
    exact absurd (List.mem_map_of_mem listed) new

theorem Lists.insert_new (h : types.Lists names) (schema : Schema)
    (new : fullname ∉ names.map (·.1)) :
    (types.insert fullname schema).Lists (names ++ [(fullname, schema.kind)]) := by
  intro other kind
  rw [find?_insert, List.mem_append, List.mem_singleton]
  by_cases same : other = fullname
  · have absent : (fullname, kind) ∉ names := fun mem => new (List.mem_map_of_mem mem)
    rw [if_pos same, same]
    simp [absent, eq_comm]
  · rw [if_neg same, h]
    simp [same]

theorem Lists.insert_again (h : types.Lists names) (schema : Schema)
    (listed : (fullname, schema.kind) ∈ names) : (types.insert fullname schema).Lists names := by
  intro other kind
  rw [find?_insert]
  by_cases same : other = fullname
  · rw [if_pos same, same, ← h, (h _ _).mpr listed]
    rfl
  · rw [if_neg same, h]

end Definitions

namespace Parser

open Step

variable {p : Parser} {before : Names} {name : String} {space : Option String}

/-! ## Names and references -/

theorem enteredName_of_definable (h : Definable p.space before name space) :
    enteredName name space = fullnameOf name space := by
  cases space with
  | none => rfl
  | some space => exact (fullnameOf_some h.placed h.simple).symm

theorem takes_of_definable (h : Definable p.space before name space)
    (listed : p.types.Lists before) : Takes p name space p := by
  have entered := enteredName_of_definable h
  refine ⟨hasDot_of_name h.simple, ?_, ?_⟩
  · rw [entered]
    exact gives_heed (checkFullname_of_fullname h.fullname)
  · rw [entered]
    unfold Definitions.resolve?
    rw [listed.find?_eq_none h.new]
    rfl

theorem finds_of_known {fullname : String} {kind : Kind}
    (known : Known p.space before fullname kind) (listed : p.types.Lists before) :
    Finds p fullname kind where
  notPrimitive := known.notPrimitive
  entry := (listed fullname kind).mpr known.defined
  nearest undotted space around := listed.find?_eq_none (known.nearest undotted space around)

/-! ## Well-formed schemas -/

section

variable {role : RecordRole} {body : RecordSchema} {between : Definitions} {names : Names}

theorem lists_opening (named : Definable p.space before body.name body.space)
    (listed : p.types.Lists before) :
    (p.opening role body).types.Lists (before ++ [(body.fullname, role.kind)]) := by
  change (p.types.insert (enteredName body.name body.space) _).Lists _
  rw [enteredName_of_definable named]
  exact listed.insert_new (.reference body.fullname role.kind) named.new

theorem reads_record_of_fields (named : Definable p.space before body.name body.space)
    (listed : p.types.Lists before) (distinct : (body.fields.map (·.name.text)).Nodup)
    (inside : ReadsFields (p.opening role body) body.fields
      { p.opening role body with types := between })
    (ended : between.Lists (before ++ [(body.fullname, role.kind)] ++ names)) :
    ∃ types, Reads p (.record role body) { p with types } ∧
      types.Lists (before ++ (body.fullname, role.kind) :: names) := by
  have read := Reads.record (takes_of_definable named listed) inside distinct
  refine ⟨between.insert (enteredName body.name body.space) (.record role body), read, ?_⟩
  have started : (body.fullname, role.kind) ∈ before ++ [(body.fullname, role.kind)] ++ names :=
    List.mem_append_left _ (List.mem_append_right _ List.mem_cons_self)
  rw [enteredName_of_definable named, List.append_cons]
  exact ended.insert_again (.record role body) started

end

mutual

theorem reads_of_wellFormed : ∀ (s : Schema) {p : Parser} {before : Names},
    s.WellFormed p.space before → p.types.Lists before →
      ∃ types, Reads p s { p with types } ∧ types.Lists (before ++ s.names)
  -- The table that each part leaves is the one that the next part starts from.
  | .primitive _, p, before, _, listed => by
    refine ⟨p.types, .primitive, ?_⟩
    rwa [← List.append_nil before] at listed
  | .reference _ _, p, before, known, listed => by
    refine ⟨p.types, .reference (finds_of_known known listed), ?_⟩
    rwa [← List.append_nil before] at listed
  | .enumeration e, p, before, ⟨named, rules⟩, listed => by
    have symbols := gives_forM_heed (p := p) fun symbol mem =>
      checkName_of_name (rules.symbols symbol mem)
    refine ⟨_, .enumeration (takes_of_definable named listed) rules.nonempty symbols rules.default,
      ?_⟩
    rw [enteredName_of_definable named]
    exact listed.insert_new (.enumeration e) named.new
  | .fixed f, p, before, named, listed => by
    refine ⟨_, .fixed (takes_of_definable named listed), ?_⟩
    rw [enteredName_of_definable named]
    exact listed.insert_new (.fixed f) named.new
  | .array items, p, before, h, listed => by
    obtain ⟨types, inside, listed⟩ := reads_of_wellFormed items h listed
    rw [Schema.names_array]
    exact ⟨types, .array inside, listed⟩
  | .map values, p, before, h, listed => by
    obtain ⟨types, inside, listed⟩ := reads_of_wellFormed values h listed
    rw [Schema.names_map]
    exact ⟨types, .map inside, listed⟩
  | .union branches, p, before, ⟨rules, h⟩, listed => by
    obtain ⟨types, inside, listed⟩ := readsAll_of_wellFormed branches h listed
    rw [Schema.names_union]
    exact ⟨types, .union rules.nonempty inside (checkBranches_of_rules rules), listed⟩
  | .record role body, p, before, h, listed => recordReads_of_wellFormed body h listed
termination_by structural s => s

theorem recordReads_of_wellFormed {role : RecordRole} :
    ∀ (body : RecordSchema) {p : Parser} {before : Names},
      body.WellFormed p.space before role → p.types.Lists before →
        ∃ types, Reads p (.record role body) { p with types } ∧
          types.Lists (before ++ (Schema.record role body).names)
  | ⟨name, space, items, doc, aliases⟩, p, before, ⟨named, distinct, h⟩, listed => by
    let body : RecordSchema := ⟨name, space, items, doc, aliases⟩
    have opened : (p.opening role body).types.Lists (before ++ [(body.fullname, role.kind)]) :=
      lists_opening named listed
    obtain ⟨between, inside, ended⟩ := readsFields_of_wellFormed items h opened
    rw [Schema.names_record]
    exact reads_record_of_fields named listed distinct inside ended

theorem readsFields_of_wellFormed : ∀ (items : List Field) {p : Parser} {before : Names},
    Field.WellFormedList p.space before items → p.types.Lists before →
      ∃ types, ReadsFields p items { p with types } ∧
        types.Lists (before ++ items.flatMap (·.type.names))
  | [], p, before, _, listed => by
    rw [List.flatMap_nil, List.append_nil]
    exact ⟨p.types, .nil, listed⟩
  | ⟨_, type, _, _, _⟩ :: items, p, before, ⟨flagged, h, others⟩, listed => by
    obtain ⟨between, first, listed⟩ := reads_of_wellFormed type h listed
    obtain ⟨types, rest, listed⟩ :=
      readsFields_of_wellFormed items (p := { p with types := between }) others listed
    rw [List.flatMap_cons, ← List.append_assoc]
    exact ⟨types, .cons flagged first rest, listed⟩

theorem readsAll_of_wellFormed : ∀ (branches : List Schema) {p : Parser} {before : Names},
    Schema.WellFormedList p.space before branches → p.types.Lists before →
      ∃ types, ReadsAll p branches { p with types } ∧
        types.Lists (before ++ branches.flatMap Schema.names)
  | [], p, before, _, listed => by
    rw [List.flatMap_nil, List.append_nil]
    exact ⟨p.types, .nil, listed⟩
  | branch :: branches, p, before, ⟨h, others⟩, listed => by
    obtain ⟨between, first, listed⟩ := reads_of_wellFormed branch h listed
    obtain ⟨types, rest, listed⟩ :=
      readsAll_of_wellFormed branches (p := { p with types := between }) others listed
    rw [List.flatMap_cons, ← List.append_assoc]
    exact ⟨types, .cons first rest, listed⟩

end

end Parser

end SchemaBinding
