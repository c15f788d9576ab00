import SchemaBinding.Proofs.Schema.UnionFree
import SchemaBinding.Value.Conformance

/-!
# Laws of conformance

What it takes to conform to each form of schema.
-/

namespace SchemaBinding

/-! ## Alternatives -/

theorem Schema.anyBranchList_eq (test : Schema → Bool) (follow : String → Bool)
    (branches : List Schema) :
    Schema.anyBranchList test follow branches = branches.any (·.anyBranch test follow) := by
  induction branches with
  | nil => rfl
  | cons branch branches ih => rw [Schema.anyBranchList, ih, List.any_cons]

namespace Definitions

variable (types : Definitions) (test : Schema → Bool)

theorem anyWithin_plain {s : Schema} (notUnion : s.isUnion = false)
    (notReference : s.isReference = false) (hops : Nat) :
    types.anyWithin test hops s = test s := by
  cases s with
  | union => cases notUnion
  | reference => cases notReference
  | _ => cases hops <;> rfl

theorem any_plain {s : Schema} (notUnion : s.isUnion = false)
    (notReference : s.isReference = false) :
    types.any test s = test s :=
  types.anyWithin_plain test notUnion notReference types.size

theorem any_union (branches : List Schema) :
    types.any test (.union branches) = branches.any (types.any test) := by
  unfold any
  cases types.size <;> simp only [anyWithin, Schema.anyBranch, Schema.anyBranchList_eq]

theorem any_absent {name : String} {kind : Kind} (absent : types.resolve? name = none) :
    types.any test (.reference name kind) = true := by
  unfold any
  cases types.size <;> simp [anyWithin, Schema.anyBranch, absent]

theorem any_named {name : String} {kind : Kind} {definition : Schema}
    (found : types.resolve? name = some definition) (notUnion : definition.isUnion = false)
    (notReference : definition.isReference = false) :
    types.any test (.reference name kind) = test definition := by
  unfold any
  cases size : types.size with
  | zero =>
    have empty : types.entries = [] := List.length_eq_zero_iff.mp size
    simp [resolve?, find?, empty] at found
  | succ hops =>
    simp only [anyWithin, Schema.anyBranch, found]
    exact types.anyWithin_plain test notUnion notReference hops

end Definitions

namespace Value

variable {types : Definitions} {v : Value}

/-! ## Sizes of parts -/

theorem sizeOf_lt_of_entry {β : Type} [SizeOf β] {entry : String × β} {entries : List (String × β)}
    (mem : entry ∈ entries) : sizeOf entry.2 < sizeOf entries := by
  obtain ⟨name, value⟩ := entry
  have part := List.sizeOf_lt_of_mem mem
  simp only [Prod.mk.sizeOf_spec] at part ⊢
  omega

theorem sizeOf_lt_union (branch : Int32) (content : Value) :
    sizeOf content < sizeOf (union branch content) := by
  simp only [union.sizeOf_spec]
  omega

theorem sizeOf_lt_array {item : Value} {items : List Value} (mem : item ∈ items) :
    sizeOf item < sizeOf (array items) := by
  have part := List.sizeOf_lt_of_mem mem
  simp only [array.sizeOf_spec]
  omega

theorem sizeOf_lt_map {entry : String × Value} {entries : List (String × Value)}
    (mem : entry ∈ entries) : sizeOf entry.2 < sizeOf (map entries) := by
  have part := sizeOf_lt_of_entry mem
  simp only [map.sizeOf_spec]
  omega

theorem sizeOf_lt_record {name : String} {value : Value} {fields : List (String × Value)}
    (found : (record fields).field? name = some value) : sizeOf value < sizeOf (record fields) := by
  have part : sizeOf value < sizeOf fields := sizeOf_lt_of_entry (mem_of_lookup found)
  simp only [record.sizeOf_spec]
  omega

/-! ## Wrappers -/

theorem fits_unwrap (s : Schema) : v.unwrap.fits types s = v.fits types s := by
  fun_induction unwrap v with
  | case1 branch content ih => rw [ih, fits]
  | case2 => rfl

theorem conforms_unwrap (s : Schema) : v.unwrap.conforms s types = v.conforms s types := by
  have same : v.unwrap.fits types = v.fits types := funext fits_unwrap
  rw [conforms, conforms, same]

theorem conforms_wrapped (branch : Int32) (s : Schema) :
    (union branch v).conforms s types = v.conforms s types := by
  rw [← conforms_unwrap, unwrap_union, conforms_unwrap]

theorem fits_primitive (p : Primitive) :
    v.fits types (.primitive p) = (v.unwrap.kind == .primitive p) := by
  rw [← fits_unwrap]
  cases h : v.unwrap with
  | union branch content => exact absurd h (v.unwrap_ne_union branch content)
  | _ => cases p <;> rfl

/-! ## Unions and references -/

theorem conforms_plain {s : Schema} (notUnion : s.isUnion = false)
    (notReference : s.isReference = false) : v.conforms s types = v.fits types s :=
  types.any_plain _ notUnion notReference

theorem conforms_union (branches : List Schema) :
    v.conforms (.union branches) types = branches.any (v.conforms · types) :=
  types.any_union _ branches

theorem conforms_pair (s t : Schema) :
    v.conforms (.union [s, t]) types = (v.conforms s types || v.conforms t types) := by
  rw [conforms_union, List.any_cons, List.any_cons, List.any_nil, Bool.or_false]

theorem conforms_absent {name : String} {kind : Kind} (absent : types.resolve? name = none) :
    v.conforms (.reference name kind) types = true :=
  types.any_absent _ absent

theorem conforms_named (unionFree : types.UnionFree) {name : String} {kind : Kind}
    {definition : Schema} (found : types.resolve? name = some definition) :
    v.conforms (.reference name kind) types = v.conforms definition types := by
  obtain ⟨notUnion, notReference⟩ := unionFree.resolve? found
  rw [conforms_plain notUnion notReference]
  exact types.any_named _ found notUnion notReference

/-! ## Parts -/

theorem conforms_items (items : List Value) (s : Schema) :
    (array items).conforms (.array s) types = items.all (·.conforms s types) := by
  rw [conforms_plain rfl rfl, fits, allConform_eq]

theorem conforms_entries (entries : List (String × Value)) (s : Schema) :
    (map entries).conforms (.map s) types = entries.all (·.2.conforms s types) := by
  rw [conforms_plain rfl rfl, fits, allEntriesConform_eq]

theorem memberConforms?_eq (types : Definitions) (name : String) (fields : List (String × Value))
    (s : Schema) :
    memberConforms? types name fields s =
      (fields.lookup name).map fun value => value.conforms s types := by
  induction fields with
  | nil => rfl
  | cons member fields ih =>
    obtain ⟨n, value⟩ := member
    rw [memberConforms?]
    by_cases h : n = name
    · rw [if_pos h, h, List.lookup_cons_self]
      rfl
    · rw [if_neg h, List.lookup_cons, beq_false_of_ne (Ne.symm h), ih]

theorem conforms_members (fields : List (String × Value)) (role : RecordRole)
    (body : RecordSchema) :
    (record fields).conforms (.record role body) types = body.fields.all fun field =>
      match (record fields).field? field.name.text with
      | some value => value.conforms field.type types
      | none => field.hasDefault := by
  rw [conforms_plain rfl rfl, fits]
  refine congrArg body.fields.all (funext fun field => ?_)
  rw [memberConforms?_eq, field?]
  cases fields.lookup field.name.text <;> rfl

theorem eq_array_of_conforms {s : Schema} (bare : ∀ branch content, v ≠ union branch content)
    (h : v.conforms (.array s) types = true) : ∃ items, v = array items := by
  rw [conforms_plain rfl rfl] at h
  cases v with
  | array items => exact ⟨items, rfl⟩
  | union branch content => exact absurd rfl (bare branch content)
  | _ => cases h

theorem eq_map_of_conforms {s : Schema} (bare : ∀ branch content, v ≠ union branch content)
    (h : v.conforms (.map s) types = true) : ∃ entries, v = map entries := by
  rw [conforms_plain rfl rfl] at h
  cases v with
  | map entries => exact ⟨entries, rfl⟩
  | union branch content => exact absurd rfl (bare branch content)
  | _ => cases h

end Value

end SchemaBinding
