import SchemaBinding.Proofs.Parser.Steps
import SchemaBinding.Proofs.Schema.Name

/-!
# What a successful read has done

What a read did to the parser can be told from the schema that it gave.
-/

namespace SchemaBinding.Parser

open Step

variable {p q r : Parser} {s : Schema}

/-! ## Names of definitions -/

/-- The name that the parser enters a definition under. -/
def enteredName (name : String) : Option String → String
  | some space => qualify space name
  | none => name

/-- A definition takes its name: the name is checked and no complete definition has it. -/
structure Takes (p : Parser) (name : String) (space : Option String) (q : Parser) : Prop where
  undotted : hasDot name = false
  checked : Gives (heed (checkFullname (enteredName name space))) p () q
  free : q.types.resolve? (enteredName name space) = none

/-- The parser with a schema under the name of a definition. -/
def enter (p : Parser) (name : String) (space : Option String) (schema : Schema) : Parser :=
  { p with types := p.types.insert (enteredName name space) schema }

/-- The parser at the fields of a record. A reference to the record stands in its place. -/
def opening (p : Parser) (role : RecordRole) (body : RecordSchema) : Parser :=
  { p.enter body.name body.space (.reference (enteredName body.name body.space) role.kind) with
    space := body.space }

theorem opening_strict (p : Parser) (role : RecordRole) (body : RecordSchema) :
    (p.opening role body).strict = p.strict := rfl

theorem ofText_undotted (around space? : Option String) (text : String) :
    hasDot (DefinitionName.ofText around space? text).name = false := by
  have undotted := hasDot_splitLast text
  unfold DefinitionName.ofText
  cases parts : splitLast text with
  | mk space name =>
    rw [parts] at undotted
    cases space <;> exact undotted

theorem ofText_fullname (around space? : Option String) (text : String) :
    (DefinitionName.ofText around space? text).fullname =
      enteredName (DefinitionName.ofText around space? text).name
        (DefinitionName.ofText around space? text).space := by
  unfold DefinitionName.ofText enteredName
  rfl

theorem takes_of_definitionName {kind : Kind} {members : Json.Members} {names : DefinitionName}
    (h : Gives (definitionName kind members) p names q) :
    Takes p names.name names.space q ∧ names.fullname = enteredName names.name names.space := by
  obtain ⟨text, -, rfl, checked, free⟩ := gives_definitionName.mp h
  have entered := ofText_fullname p.space (Json.text? "namespace" members) text
  rw [entered] at checked free
  exact ⟨⟨ofText_undotted _ _ _, checked, free⟩, entered⟩

/-! ## References -/

/-- The text of a full name finds the entry of that name, and nothing nearer. -/
structure Finds (p : Parser) (fullname : String) (kind : Kind) : Prop where
  notPrimitive : Primitive.ofName? fullname = none
  entry : (p.types.find? fullname).map Schema.kind = some kind
  nearest : hasDot fullname = false → ∀ space, p.space = some space →
    p.types.find? (qualify space fullname) = none

theorem ofName?_of_dot {text : String} (h : hasDot text = true) :
    Primitive.ofName? text = none := by
  cases found : Primitive.ofName? text with
  | none => rfl
  | some t =>
    rw [Primitive.ofName?_eq_some.mp found] at h
    cases t <;> exact absurd h (by decide)

/-! ## Reads -/

mutual

/-- A read that gives the schema can take the parser from `p` to `q`. -/
inductive Reads : Parser → Schema → Parser → Prop
  | primitive {p : Parser} {t : Primitive} : Reads p (.primitive t) p
  | reference {p : Parser} {fullname : String} {kind : Kind} (finds : Finds p fullname kind) :
      Reads p (.reference fullname kind) p
  | enumeration {p q r : Parser} {e : EnumSchema} (takes : Takes p e.name e.space q)
      (nonempty : e.symbols ≠ [])
      (checked : Gives (e.symbols.forM fun symbol => heed (checkName symbol)) q () r)
      (default : ∀ symbol, e.default = some symbol → symbol ∈ e.symbols) :
      Reads p (.enumeration e) (r.enter e.name e.space (.enumeration e))
  | fixed {p q : Parser} {f : FixedSchema} (takes : Takes p f.name f.space q) :
      Reads p (.fixed f) (q.enter f.name f.space (.fixed f))
  | array {p q : Parser} {items : Schema} (inside : Reads p items q) : Reads p (.array items) q
  | map {p q : Parser} {values : Schema} (inside : Reads p values q) : Reads p (.map values) q
  | union {p q r : Parser} {branches : List Schema} (nonempty : branches ≠ [])
      (inside : ReadsAll p branches q) (checked : Gives (checkBranches 0 [] branches) q () r) :
      Reads p (.union branches) r
  | record {p q r : Parser} {role : RecordRole} {body : RecordSchema}
      (takes : Takes p body.name body.space q)
      (inside : ReadsFields (q.opening role body) body.fields r)
      (distinct : (body.fields.map (·.name.text)).Nodup) :
      Reads p (.record role body)
        (enter { r with space := q.space } body.name body.space (.record role body))

inductive ReadsAll : Parser → List Schema → Parser → Prop
  | nil {p : Parser} : ReadsAll p [] p
  | cons {p q r : Parser} {branch : Schema} {branches : List Schema} (first : Reads p branch q)
      (rest : ReadsAll q branches r) : ReadsAll p (branch :: branches) r

inductive ReadsFields : Parser → List Field → Parser → Prop
  | nil {p : Parser} : ReadsFields p [] p
  | cons {p q r : Parser} {field : Field} {fields : List Field}
      (flagged : field.fromRegistry = field.type.isReference) (first : Reads p field.type q)
      (rest : ReadsFields q fields r) : ReadsFields p (field :: fields) r

end

/-! ## What a read leaves alone -/

/-- The parser stands in the same namespace and is as strict as before. -/
structure SamePlace (p q : Parser) : Prop where
  space : q.space = p.space
  strict : q.strict = p.strict

theorem SamePlace.trans (h : SamePlace p q) (h' : SamePlace q r) : SamePlace p r :=
  ⟨h'.space.trans h.space, h'.strict.trans h.strict⟩

theorem Notes.samePlace (h : Notes p q) : SamePlace p q := by
  obtain ⟨_, rfl⟩ := h
  exact ⟨rfl, rfl⟩

theorem SamePlace.enter {name : String} {space : Option String} {schema : Schema}
    (h : SamePlace p q) : SamePlace p (q.enter name space schema) := ⟨h.space, h.strict⟩

theorem Takes.notes {name : String} {space : Option String} (h : Takes p name space q) :
    Notes p q := notes_of_heed h.checked

mutual

theorem Reads.samePlace {p q : Parser} {s : Schema} : Reads p s q → SamePlace p q
  | .primitive | .reference _ => ⟨rfl, rfl⟩
  | .enumeration takes _ checked _ =>
    have notes := notes_of_forM (fun _ _ _ => notes_of_heed) checked
    (takes.notes.trans notes).samePlace.enter
  | .fixed takes => takes.notes.samePlace.enter
  | .array inside | .map inside => inside.samePlace
  | .union _ inside checked => inside.samePlace.trans (notes_of_checkBranches checked).samePlace
  | .record takes inside _ =>
    ⟨takes.notes.samePlace.space, inside.samePlace.strict.trans takes.notes.samePlace.strict⟩

theorem ReadsAll.samePlace {p q : Parser} {branches : List Schema} :
    ReadsAll p branches q → SamePlace p q
  | .nil => ⟨rfl, rfl⟩
  | .cons first rest => first.samePlace.trans rest.samePlace

theorem ReadsFields.samePlace {p q : Parser} {fields : List Field} :
    ReadsFields p fields q → SamePlace p q
  | .nil => ⟨rfl, rfl⟩
  | .cons _ first rest => first.samePlace.trans rest.samePlace

end

/-! ## What the steps of the parser have done -/

theorem reads_of_reference {name : String} (notPrimitive : Primitive.ofName? name = none)
    (h : Gives (reference name) p s q) : Reads p s q := by
  unfold reference at h
  rw [gives_get_bind] at h
  dsimp only at h
  split at h
  · next found =>
    obtain ⟨rfl, rfl⟩ := gives_pure.mp h
    unfold candidates at found
    split at found
    · next space around undotted =>
      rw [List.findSome?_cons] at found
      split at found
      · next near =>
        -- The name stands for a definition inside the namespace.
        cases found
        obtain ⟨entry, listed, rfl⟩ := Option.map_eq_some_iff.mp near
        have dotted := hasDot_qualify space name
        refine .reference ⟨ofName?_of_dot dotted, by rw [listed]; rfl, fun undotted => ?_⟩
        rw [dotted] at undotted
        cases undotted
      · next absent =>
        rw [List.findSome?_singleton] at found
        obtain ⟨entry, listed, rfl⟩ := Option.map_eq_some_iff.mp found
        refine .reference ⟨notPrimitive, by rw [listed]; rfl, fun _ space' around' => ?_⟩
        rw [around] at around'
        cases around'
        exact Option.map_eq_none_iff.mp absent
    · next plain =>
      rw [List.findSome?_singleton] at found
      obtain ⟨entry, listed, rfl⟩ := Option.map_eq_some_iff.mp found
      refine .reference ⟨notPrimitive, by rw [listed]; rfl, fun undotted space around => ?_⟩
      exact (plain space around undotted).elim
  · exact (not_gives_throw h).elim

theorem reads_of_typeName {name : String} (h : Gives (typeName name) p s q) : Reads p s q := by
  unfold typeName at h
  split at h
  · obtain ⟨rfl, rfl⟩ := gives_pure.mp h
    exact .primitive
  · next notPrimitive => exact reads_of_reference notPrimitive h

theorem reads_of_enumeration {members : Json.Members} (h : Gives (enumeration members) p s q) :
    Reads p s q := by
  obtain ⟨names, p₁, items, symbols, p₂, named, -, -, nonempty, checked, default, rfl, rfl⟩ :=
    gives_enumeration.mp h
  obtain ⟨takes, entered⟩ := takes_of_definitionName named
  rw [entered]
  exact .enumeration takes nonempty checked default

theorem reads_of_fixed {members : Json.Members} (h : Gives (fixed members) p s q) :
    Reads p s q := by
  obtain ⟨names, p₁, size, named, -, rfl, rfl⟩ := gives_fixed.mp h
  obtain ⟨takes, entered⟩ := takes_of_definitionName named
  rw [entered]
  exact .fixed (f := ⟨names.name, names.space, size⟩) takes

theorem reads_of_record {role : RecordRole} {members : Json.Members} {step : ParserM (List Field)}
    (inside : ∀ {p q fs}, Gives step p fs q → ReadsFields p fs q)
    (h : Gives (do
      let names ← beginRecord role members
      let fields ← inSpace names.space step
      endRecord role names members fields) p s q) : Reads p s q := by
  obtain ⟨names, p₁, fields, p₂, named, read, distinct, rfl, rfl⟩ := gives_record.mp h
  obtain ⟨takes, entered⟩ := takes_of_definitionName named
  rw [entered] at read ⊢
  exact @Reads.record p p₁ p₂ role ⟨names.name, names.space, fields, _, _⟩ takes (inside read)
    distinct

theorem ofName?_of_typeWord {text name : String} (h : TypeWord.ofString text = .name name) :
    Primitive.ofName? name = none := by
  unfold TypeWord.ofString at h
  split at h
  · cases h
  · next notPrimitive =>
    split_ifs at h
    cases h
    exact notPrimitive

theorem ofParts_eq_ok {name : String} {type : Schema} {fromRegistry : Bool} {default : Option Json}
    {order : Option String} {f : Field}
    (h : Field.ofParts name type fromRegistry default order = .ok f) :
    f.type = type ∧ f.fromRegistry = fromRegistry := by
  obtain ⟨_, -, h⟩ := Result.bind_eq_ok.mp h
  obtain ⟨_, -, h⟩ := Result.bind_eq_ok.mp h
  cases h
  exact ⟨rfl, rfl⟩

theorem schemas_ne_nil {items : List Json} {branches : List Schema} (nonempty : items ≠ [])
    (h : Gives (schemas items) p branches q) : branches ≠ [] := by
  cases items with
  | nil => exact absurd rfl nonempty
  | cons item items =>
    obtain ⟨_, _, _, -, -, rfl⟩ := gives_schemas_cons.mp h
    exact List.cons_ne_nil _ _

/-! ## The whole parser -/

mutual

theorem reads_of_schema : ∀ (document : Json) {p q : Parser} {s : Schema},
    Gives (schema document) p s q → Reads p s q
  | .str name, _, _, _, h => reads_of_typeName h
  | .arr items, _, _, _, h => by
    obtain ⟨branches, _, nonempty, read, checked, rfl⟩ := gives_union.mp h
    exact .union (schemas_ne_nil nonempty read) (readsAll_of_schemas items read) checked
  | .obj members, _, _, _, h => by
    unfold schema at h
    split at h
    · split at h
      · obtain ⟨rfl, rfl⟩ := gives_pure.mp h
        exact .primitive
      · exact reads_of_record (fun read => readsFields_of_fieldsAt _ members read) h
      · exact reads_of_enumeration h
      · obtain ⟨items, read, rfl⟩ := gives_map.mp h
        exact .array (reads_of_schemaAt members read)
      · obtain ⟨values, read, rfl⟩ := gives_map.mp h
        exact .map (reads_of_schemaAt members read)
      · exact reads_of_fixed h
      · next word => exact reads_of_reference (ofName?_of_typeWord word) h
    · exact reads_of_schemaAt members h
  | .null, _, _, _, h => (not_gives_throw h).elim
  | .bool _, _, _, _, h => (not_gives_throw h).elim
  | .num _, _, _, _, h => (not_gives_throw h).elim
termination_by structural document => document

theorem readsAll_of_schemas : ∀ (items : List Json) {p q : Parser} {branches : List Schema},
    Gives (schemas items) p branches q → ReadsAll p branches q
  | [], _, _, _, h => by
    obtain ⟨rfl, rfl⟩ := gives_pure.mp h
    exact .nil
  | item :: items, _, _, _, h => by
    obtain ⟨_, _, _, first, rest, rfl⟩ := gives_schemas_cons.mp h
    exact .cons (reads_of_schema item first) (readsAll_of_schemas items rest)

theorem reads_of_schemaAt {key : String} {missing : SchemaError} :
    ∀ (members : List (String × Json)) {p q : Parser} {s : Schema},
      Gives (schemaAt key missing members) p s q → Reads p s q
  | [], _, _, _, h => (not_gives_throw h).elim
  | (k, value) :: members, _, _, _, h => by
    unfold schemaAt at h
    split at h
    · exact reads_of_schema value h
    · exact reads_of_schemaAt members h

theorem readsFields_of_fieldsAt (role : RecordRole) :
    ∀ (members : List (String × Json)) {p q : Parser} {fs : List Field},
      Gives (fieldsAt role members) p fs q → ReadsFields p fs q
  | [], _, _, _, h => (not_gives_throw h).elim
  | (k, value) :: members, _, _, _, h => by
    unfold fieldsAt at h
    split at h
    · exact readsFields_of_fieldArray role value h
    · exact readsFields_of_fieldsAt role members h

theorem readsFields_of_fieldArray (role : RecordRole) :
    ∀ (value : Json) {p q : Parser} {fs : List Field},
      Gives (fieldArray role value) p fs q → ReadsFields p fs q
  | .arr items, _, _, _, h => readsFields_of_fields items h
  | .null, _, _, _, h => (not_gives_throw h).elim
  | .bool _, _, _, _, h => (not_gives_throw h).elim
  | .num _, _, _, _, h => (not_gives_throw h).elim
  | .str _, _, _, _, h => (not_gives_throw h).elim
  | .obj _, _, _, _, h => (not_gives_throw h).elim

theorem readsFields_of_fields : ∀ (items : List Json) {p q : Parser} {fs : List Field},
    Gives (fields items) p fs q → ReadsFields p fs q
  | [], _, _, _, h => by
    obtain ⟨rfl, rfl⟩ := gives_pure.mp h
    exact .nil
  | item :: items, _, _, _, h => by
    obtain ⟨_, _, _, first, rest, rfl⟩ := gives_fields_cons.mp h
    obtain ⟨flagged, type⟩ := reads_of_field item first
    exact .cons flagged type (readsFields_of_fields items rest)

theorem reads_of_field : ∀ (item : Json) {p q : Parser} {f : Field}, Gives (field item) p f q →
    f.fromRegistry = f.type.isReference ∧ Reads p f.type q
  | .obj members, _, _, _, h => by
    obtain ⟨name, type, order, -, read, -, parts⟩ := gives_field.mp h
    obtain ⟨rfl, flagged⟩ := ofParts_eq_ok parts
    exact ⟨flagged, reads_of_schemaAt members read⟩
  | .null, _, _, _, h => (not_gives_throw h).elim
  | .bool _, _, _, _, h => (not_gives_throw h).elim
  | .num _, _, _, _, h => (not_gives_throw h).elim
  | .str _, _, _, _, h => (not_gives_throw h).elim
  | .arr _, _, _, _, h => (not_gives_throw h).elim

end

end SchemaBinding.Parser
