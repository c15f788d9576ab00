import SchemaBinding.Proofs.Parser.Written

/-!
# Reading a schema that was read before

A definition without a namespace is read as if it were in the one around it. Nothing else gets lost.
-/

namespace SchemaBinding

/-! ## Definitions in their place -/

def PlacedIn (around space : Option String) : Prop :=
  match space with
  | some space => space ≠ ""
  | none => around = none

instance (around : Option String) : DecidablePred (PlacedIn around)
  | some space => inferInstanceAs (Decidable (space ≠ ""))
  | none => inferInstanceAs (Decidable (around = none))

mutual

/-- Every definition inside a schema has a namespace that its document tells. -/
def Schema.Placed (around : Option String) : Schema → Prop
  | .record _ body => body.Placed around
  | .enumeration body => PlacedIn around body.space
  | .fixed body => PlacedIn around body.space
  | .array items => items.Placed around
  | .map values => values.Placed around
  | .union branches => Schema.PlacedList around branches
  | .primitive _ | .reference .. => True

/-- The namespace of a record is the one around its fields. -/
def RecordSchema.Placed (around : Option String) : RecordSchema → Prop
  | ⟨_, space, fields, _, _⟩ => PlacedIn around space ∧ Field.PlacedList space fields

def Field.PlacedList (around : Option String) : List Field → Prop
  | [] => True
  | ⟨_, type, _, _, _⟩ :: fields => type.Placed around ∧ Field.PlacedList around fields

def Schema.PlacedList (around : Option String) : List Schema → Prop
  | [] => True
  | branch :: branches => branch.Placed around ∧ Schema.PlacedList around branches

end

theorem PlacedIn.ne_empty {around space : Option String} (h : PlacedIn around space) :
    space ≠ some "" := by
  rintro rfl
  exact h rfl

namespace Parser

open Step

variable {p q r : Parser} {members : Json.Members} {name : String} {around space : Option String}

/-! ## Names -/

theorem ofText_of_placed (undotted : hasDot name = false) (placed : PlacedIn around space) :
    DefinitionName.ofText around space name = ⟨name, space, enteredName name space⟩ := by
  unfold DefinitionName.ofText
  rw [splitLast_of_undotted undotted]
  cases space with
  | none =>
    obtain rfl : around = none := placed
    rfl
  | some space =>
    have nonempty : space.isEmpty = false := by simpa using placed.ne_empty
    have kept : ((some space).or around).filter (fun space => !space.isEmpty) = some space := by
      simp [nonempty]
    dsimp only
    rw [kept]
    rfl

theorem placedIn_of_ofText (outside : around ≠ some "") (undotted : hasDot name = false)
    (h : (DefinitionName.ofText around space name).space = space) : PlacedIn around space := by
  unfold DefinitionName.ofText at h
  rw [splitLast_of_undotted undotted] at h
  dsimp only at h
  cases space with
  | none =>
    cases around with
    | none => rfl
    | some around =>
      have empty : around = "" := by simpa using h
      rw [empty] at outside
      exact absurd rfl outside
  | some space =>
    rintro rfl
    cases h

theorem Takes.definitionName {kind : Kind} (takes : Takes p name space q)
    (placed : PlacedIn p.space space) (hname : Json.text? "name" members = some name)
    (hspace : Json.text? "namespace" members = space) :
    Gives (definitionName kind members) p ⟨name, space, enteredName name space⟩ q := by
  have names := ofText_of_placed takes.undotted placed
  rw [← hspace] at names
  exact gives_definitionName.mpr ⟨name, hname, by rw [names, hspace], takes.checked, takes.free⟩

theorem placedIn_of_definitionName {kind : Kind} {names : DefinitionName}
    (outside : p.space ≠ some "") (h : Gives (definitionName kind members) p names q)
    (hname : Json.text? "name" members = some names.name)
    (hspace : Json.text? "namespace" members = names.space) : PlacedIn p.space names.space := by
  obtain ⟨text, given, same, -⟩ := gives_definitionName.mp h
  obtain rfl := Option.some.inj (given.symm.trans hname)
  rw [hspace] at same
  have undotted := ofText_undotted p.space names.space names.name
  rw [same] at undotted
  exact placedIn_of_ofText outside undotted (by rw [same])

/-! ## References -/

theorem Finds.typeName {fullname : String} {kind : Kind} (finds : Finds p fullname kind) :
    Gives (typeName fullname) p (.reference fullname kind) p := by
  obtain ⟨entry, found, rfl⟩ := Option.map_eq_some_iff.mp finds.entry
  have chosen : (candidates p.space fullname).findSome? (fun name =>
      (p.types.find? name).map fun schema => Schema.reference name schema.kind) =
        some (.reference fullname entry.kind) := by
    unfold candidates
    split
    · next space around undotted =>
      rw [List.findSome?_cons, finds.nearest undotted space around, List.findSome?_singleton, found]
      rfl
    · rw [List.findSome?_singleton, found]
      rfl
  unfold Parser.typeName reference
  rw [finds.notPrimitive]
  dsimp only
  rw [gives_get_bind, chosen]
  exact gives_pure.mpr ⟨rfl, rfl⟩

/-! ## What was read is read again -/

theorem Takes.enumeration {e : EnumSchema} (takes : Takes p e.name e.space q)
    (placed : PlacedIn p.space e.space) (nonempty : e.symbols ≠ [])
    (checked : Gives (e.symbols.forM fun symbol => heed (checkName symbol)) q () r)
    (default : ∀ symbol, e.default = some symbol → symbol ∈ e.symbols) :
    Gives (schema (Schema.enumeration e).toJson) p (.enumeration e)
      (r.enter e.name e.space (.enumeration e)) := by
  obtain ⟨members, written, hname, hspace, hdoc, hsymbols, hdefault⟩ := written_enumeration e
  rw [written]
  refine gives_enumeration.mpr ⟨_, q, _, e.symbols, r, takes.definitionName placed hname hspace,
    hsymbols, symbols_map_str _, nonempty, checked, ?_, ?_, rfl⟩
  · rwa [hdefault]
  · rw [hdoc, hdefault]

theorem Takes.fixed {f : FixedSchema} (takes : Takes p f.name f.space q)
    (placed : PlacedIn p.space f.space) :
    Gives (schema (Schema.fixed f).toJson) p (.fixed f) (q.enter f.name f.space (.fixed f)) := by
  obtain ⟨members, written, hname, hspace, hsize⟩ := written_fixed f
  rw [written]
  exact gives_fixed.mpr
    ⟨_, q, f.size, takes.definitionName placed hname hspace, hsize, rfl, rfl⟩

theorem Takes.record {role : RecordRole} {body : RecordSchema}
    (takes : Takes p body.name body.space q) (placed : PlacedIn p.space body.space)
    (inside : Gives (fields (Field.toJsonList body.fields)) (q.opening role body) body.fields r)
    (distinct : (body.fields.map (·.name.text)).Nodup) :
    Gives (schema (Schema.record role body).toJson) p (.record role body)
      (enter { r with space := q.space } body.name body.space (.record role body)) := by
  obtain ⟨members, written, hname, hspace, hdoc, haliases⟩ := written_record role body
  rw [written]
  obtain ⟨name, space, items, doc, aliases⟩ := body
  refine gives_record.mpr ⟨_, q, items, r, takes.definitionName placed hname hspace, inside,
    distinct, ?_, rfl⟩
  rw [hdoc, haliases]

theorem field_of_type {f : Field} (flagged : f.fromRegistry = f.type.isReference)
    (inside : Gives (schema f.type.toJson) p f.type q) : Gives (field f.toJson) p f q := by
  obtain ⟨members, written, hname, htype, horder, hdefault⟩ := written_field f flagged
  rw [written]
  refine gives_field.mpr ⟨f.name.text, f.type, _, hname, by rwa [htype], horder, ?_⟩
  rw [hdefault, ← flagged]
  exact ofParts_of_field f

theorem union_of_branches {branches : List Schema} (nonempty : branches ≠ [])
    (inside : Gives (schemas (Schema.toJsonList branches)) p branches q)
    (checked : Gives (checkBranches 0 [] branches) q () r) :
    Gives (schema (Schema.union branches).toJson) p (.union branches) r := by
  refine gives_union.mpr ⟨branches, q, ?_, inside, checked, rfl⟩
  cases branches with
  | nil => exact absurd rfl nonempty
  | cons => nofun

mutual

theorem Reads.reread {p q : Parser} {s : Schema} :
    Reads p s q → s.Placed p.space → Gives (schema s.toJson) p s q
  | .primitive (t := t), _ => by
    change Gives (typeName t.name) _ _ _
    unfold typeName
    rw [Primitive.ofName?_name]
    exact gives_pure.mpr ⟨rfl, rfl⟩
  | .reference finds, _ => finds.typeName
  | .enumeration takes nonempty checked default, placed =>
    takes.enumeration placed nonempty checked default
  | .fixed takes, placed => takes.fixed placed
  | .array inside, placed => gives_map.mpr ⟨_, inside.reread placed, rfl⟩
  | .map inside, placed => gives_map.mpr ⟨_, inside.reread placed, rfl⟩
  | .union nonempty inside checked, placed =>
    union_of_branches nonempty (inside.reread placed) checked
  | @Reads.record _ _ _ _ ⟨_, _, _, _, _⟩ takes inside distinct, ⟨placed, fields⟩ =>
    takes.record placed (inside.reread fields) distinct

theorem ReadsAll.reread {p q : Parser} {branches : List Schema} :
    ReadsAll p branches q → Schema.PlacedList p.space branches →
      Gives (schemas (Schema.toJsonList branches)) p branches q
  | .nil, _ => gives_pure.mpr ⟨rfl, rfl⟩
  | .cons first rest, ⟨placed, others⟩ => by
    rw [← first.samePlace.space] at others
    exact gives_schemas_cons.mpr ⟨_, _, _, first.reread placed, rest.reread others, rfl⟩

theorem ReadsFields.reread {p q : Parser} {items : List Field} :
    ReadsFields p items q → Field.PlacedList p.space items →
      Gives (fields (Field.toJsonList items)) p items q
  | .nil, _ => gives_pure.mpr ⟨rfl, rfl⟩
  | @ReadsFields.cons _ _ _ ⟨_, _, _, _, _⟩ _ flagged first rest, ⟨placed, others⟩ => by
    rw [← first.samePlace.space] at others
    exact gives_fields_cons.mpr
      ⟨_, _, _, field_of_type flagged (first.reread placed), rest.reread others, rfl⟩

end

/-! ## What is read again was in its place -/

theorem placedIn_of_enumeration {e : EnumSchema} (outside : p.space ≠ some "")
    (h : Gives (schema (Schema.enumeration e).toJson) p (.enumeration e) q) :
    PlacedIn p.space e.space := by
  obtain ⟨members, written, hname, hspace, -⟩ := written_enumeration e
  rw [written] at h
  obtain ⟨names, _, _, _, _, named, -, -, -, -, -, same, -⟩ := gives_enumeration.mp h
  obtain rfl := Schema.enumeration.inj same
  exact placedIn_of_definitionName outside named hname hspace

theorem placedIn_of_fixed {f : FixedSchema} (outside : p.space ≠ some "")
    (h : Gives (schema (Schema.fixed f).toJson) p (.fixed f) q) : PlacedIn p.space f.space := by
  obtain ⟨members, written, hname, hspace, -⟩ := written_fixed f
  rw [written] at h
  obtain ⟨names, _, _, named, -, same, -⟩ := gives_fixed.mp h
  obtain rfl := Schema.fixed.inj same
  exact placedIn_of_definitionName outside named hname hspace

theorem placedIn_of_record {role : RecordRole} {body : RecordSchema} (outside : p.space ≠ some "")
    (h : Gives (schema (Schema.record role body).toJson) p (.record role body) q) :
    PlacedIn p.space body.space ∧ ∃ p' q', p'.space = body.space ∧
      Gives (fields (Field.toJsonList body.fields)) p' body.fields q' := by
  obtain ⟨members, written, hname, hspace, -⟩ := written_record role body
  rw [written] at h
  obtain ⟨names, _, items, _, named, inside, -, same, -⟩ := gives_record.mp h
  obtain ⟨-, rfl⟩ := Schema.record.inj same
  exact ⟨placedIn_of_definitionName outside named hname hspace, _, _, rfl, inside⟩

theorem type_of_field {f : Field} (h : Gives (field f.toJson) p f q) :
    Gives (schema f.type.toJson) p f.type q := by
  obtain ⟨flagged, -⟩ := reads_of_field _ h
  obtain ⟨members, written, -, htype, -⟩ := written_field f flagged
  rw [written] at h
  obtain ⟨_, _, _, -, inside, -, parts⟩ := gives_field.mp h
  obtain ⟨rfl, -⟩ := ofParts_eq_ok parts
  rwa [htype] at inside

mutual

theorem placed_of_reread : ∀ (s : Schema) {p q : Parser}, p.space ≠ some "" →
    Gives (schema s.toJson) p s q → s.Placed p.space
  | .primitive _, _, _ => fun _ _ => trivial
  | .reference .., _, _ => fun _ _ => trivial
  | .enumeration _, _, _ => fun outside h => placedIn_of_enumeration outside h
  | .fixed _, _, _ => fun outside h => placedIn_of_fixed outside h
  | .array items, _, _ => by
    intro outside h
    obtain ⟨_, inside, same⟩ := gives_map.mp h
    rw [Schema.array.inj same] at inside
    exact placed_of_reread items outside inside
  | .map values, _, _ => by
    intro outside h
    obtain ⟨_, inside, same⟩ := gives_map.mp h
    rw [Schema.map.inj same] at inside
    exact placed_of_reread values outside inside
  | .union branches, _, _ => by
    intro outside h
    obtain ⟨_, _, -, inside, -, same⟩ := gives_union.mp h
    rw [Schema.union.inj same] at inside
    exact placedList_of_reread branches outside inside
  | .record _ body, _, _ => fun outside h => recordPlaced_of_reread body outside h
termination_by structural s => s

theorem recordPlaced_of_reread {role : RecordRole} :
    ∀ (body : RecordSchema) {p q : Parser}, p.space ≠ some "" →
      Gives (schema (Schema.record role body).toJson) p (.record role body) q →
        body.Placed p.space
  | ⟨_, space, items, _, _⟩, _, _ => by
    intro outside h
    obtain ⟨placed, _, _, rfl, inside⟩ := placedIn_of_record outside h
    exact ⟨placed, fieldsPlaced_of_reread items placed.ne_empty inside⟩

theorem fieldsPlaced_of_reread : ∀ (items : List Field) {p q : Parser}, p.space ≠ some "" →
    Gives (fields (Field.toJsonList items)) p items q → Field.PlacedList p.space items
  | [], _, _ => fun _ _ => trivial
  | ⟨_, type, _, _, _⟩ :: items, _, _ => by
    intro outside h
    obtain ⟨_, _, r, first, rest, same⟩ := gives_fields_cons.mp h
    rw [(List.cons.inj same).1] at first
    rw [(List.cons.inj same).2] at rest
    have inside := type_of_field first
    have still := (reads_of_schema _ inside).samePlace.space
    have others := fieldsPlaced_of_reread items (still ▸ outside) rest
    rw [still] at others
    exact ⟨placed_of_reread type outside inside, others⟩

theorem placedList_of_reread : ∀ (branches : List Schema) {p q : Parser}, p.space ≠ some "" →
    Gives (schemas (Schema.toJsonList branches)) p branches q →
      Schema.PlacedList p.space branches
  | [], _, _ => fun _ _ => trivial
  | branch :: branches, _, _ => by
    intro outside h
    obtain ⟨_, _, r, first, rest, same⟩ := gives_schemas_cons.mp h
    rw [(List.cons.inj same).1] at first
    rw [(List.cons.inj same).2] at rest
    have still := (reads_of_schema _ first).samePlace.space
    have others := placedList_of_reread branches (still ▸ outside) rest
    rw [still] at others
    exact ⟨placed_of_reread branch outside first, others⟩

end

/-! ## Parsers that start anew -/

/--
A schema that a new parser gave out is given out again for its own document just when every
definition is in its place. The parser then comes to the same names and the same violations too.
-/
theorem reread_iff_placed {strict : Bool} {document : Json} {s : Schema} {p : Parser}
    (accepted : ({ strict } : Parser).parse document = (.ok s, p)) :
    ((({ strict } : Parser).parse s.toJson).1 = .ok s ↔ s.Placed none) ∧
      (s.Placed none → ({ strict } : Parser).parse s.toJson = (.ok s, p)) := by
  have given : Gives (schema document) { strict } s p := accepted
  have again : s.Placed none → Gives (schema s.toJson) { strict } s p :=
    (reads_of_schema document given).reread
  refine ⟨⟨fun reread => ?_, fun placed => congrArg Prod.fst (again placed)⟩, again⟩
  have outside : ({ strict } : Parser).space ≠ some "" := nofun
  exact placed_of_reread s (q := (({ strict } : Parser).parse s.toJson).2) outside
    (Prod.ext reread rfl)

namespace Grove

def document (space : String) : Json :=
  let season := .obj [("type", .str "enum"), ("name", .str "Season"), ("namespace", .str space),
    ("symbols", .arr [.str "SPRING", .str "FALL"])]
  .obj [("type", .str "record"), ("name", .str "Grove"), ("namespace", .str "forest"),
    ("fields", .arr [.obj [("name", .str "phase"), ("type", season)]])]

def schema (space : Option String) : Schema := .record .record
  { name := "Grove"
    space := some "forest"
    fields := [
      { name := ⟨"phase", by decide⟩
        type := .enumeration { name := "Season", space, symbols := ["SPRING", "FALL"] } }] }

end Grove

theorem reread_grove_oak :
    (({ strict := true } : Parser).parse (Grove.document "oak")).1 =
        .ok (Grove.schema (some "oak")) ∧
      (({ strict := true } : Parser).parse (Grove.schema (some "oak")).toJson).1 =
        .ok (Grove.schema (some "oak")) := by
  let p := (({ strict := true } : Parser).parse (Grove.document "oak")).2
  have accepted : ({ strict := true } : Parser).parse (Grove.document "oak") =
      (.ok (Grove.schema (some "oak")), p) := Prod.ext rfl rfl
  have placed : (Grove.schema (some "oak")).Placed none :=
    ⟨by decide, (by decide : PlacedIn (some "forest") (some "oak")), trivial⟩
  exact ⟨congrArg Prod.fst accepted, (reread_iff_placed accepted).1.mpr placed⟩

/-- An empty namespace takes a definition out of the one around it, until it is read again. -/
theorem reread_grove_empty :
    (({ strict := true } : Parser).parse (Grove.document "")).1 = .ok (Grove.schema none) ∧
      (({ strict := true } : Parser).parse (Grove.schema none).toJson).1 =
        .ok (Grove.schema (some "forest")) ∧
      Grove.schema none ≠ Grove.schema (some "forest") :=
  ⟨rfl, rfl, nofun⟩

end Parser

end SchemaBinding
