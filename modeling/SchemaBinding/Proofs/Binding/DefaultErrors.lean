import SchemaBinding.Proofs.Binding.Extract
import SchemaBinding.Proofs.Binding.Writes
import SchemaBinding.Schema.Parser

/-!
# Defaults that cannot be read

A default that cannot be read is found when it is needed, and not when its record is bound.
-/

namespace SchemaBinding

variable {σ : Type}

def BindingError.IsDefault (e : BindingError) : Prop :=
  ∃ name cause, e = .field name (.default cause)

/-- The field has a default, and this is the error of reading it. -/
def Field.DefaultFails (field : Field) (types : Definitions) (e : BindingError) : Prop :=
  ∃ document cause, field.default = some document ∧
    Value.ofJson document field.type types = .error cause ∧
      e = .field field.name.text (.default cause)

/-- Other documents in place of the defaults; what had no default has none. -/
def RecordSchema.withDefaults (body : RecordSchema) (documents : Field → Json) : RecordSchema :=
  { body with
    fields := body.fields.map fun field =>
      { field with default := field.default.map fun _ => documents field } }

namespace RecordBinding

variable {r : RecordBinding σ} {f : FieldBinding σ} {x y : σ} {e : BindingError}
  {input value : Value}

/-! ## Reading one default -/

theorem defaultFails_of_defaultValue (h : f.defaultValue r.types = .error e)
    (isDefault : e.IsDefault) : f.field.DefaultFails r.types e := by
  unfold FieldBinding.defaultValue at h
  split at h
  · next document has =>
    obtain ⟨cause, refused, rfl⟩ := Result.mapError_eq_error.mp h
    exact ⟨document, cause, has, refused, rfl⟩
  · obtain ⟨name, cause, rfl⟩ := isDefault
    cases h

theorem not_read_of_defaultFails (fails : f.field.DefaultFails r.types e) {document : Json}
    (has : f.field.default = some document) :
    Value.ofJson document f.field.type r.types ≠ .ok value := by
  obtain ⟨document', cause, has', refused, -⟩ := fails
  obtain rfl := Option.some.inj (has.symm.trans has')
  simp [refused]

/-! ## Extracting -/

theorem defaultFails_of_extractField (h : r.extractField x f = .error e)
    (isDefault : e.IsDefault) : f.binding = none ∧ f.field.DefaultFails r.types e := by
  rw [extractField_eq] at h
  rcases Result.bind_eq_error.mp h with failed | ⟨value, -, h⟩
  · unfold source at failed
    split at failed
    · next b bound =>
      -- What a converter refuses is an error of its own.
      obtain ⟨inner, refused, rfl⟩ := Result.mapError_eq_error.mp failed
      obtain ⟨name, cause, same⟩ := isDefault
      cases same
      unfold Binding.get at refused
      split at refused
      · obtain ⟨_, -, other⟩ := Result.mapError_eq_error.mp refused
        cases other
      · cases refused
    · next unbound => exact ⟨unbound, defaultFails_of_defaultValue failed isDefault⟩
  · obtain ⟨name, cause, rfl⟩ := isDefault
    split at h
    · rcases Result.bind_eq_error.mp h with counted | ⟨_, -, h⟩
      · obtain ⟨_, -, other⟩ := Result.mapError_eq_error.mp counted
        cases other
      · cases h
    · cases h

theorem defaultFails_of_extract (h : r.extract x = .error e) (isDefault : e.IsDefault) :
    ∃ f ∈ r.fields, f.binding = none ∧ f.field.DefaultFails r.types e := by
  unfold extract at h
  rcases Result.bind_eq_error.mp h with failed | ⟨_, -, h⟩
  · obtain ⟨f, mem, failed⟩ := Result.error_of_mapM failed
    rcases Result.bind_eq_error.mp failed with own | ⟨_, -, h⟩
    · exact ⟨f, mem, defaultFails_of_extractField own isDefault⟩
    · cases h
  · cases h

theorem extract_fails (mem : f ∈ r.fields) (unbound : f.binding = none)
    (fails : f.field.DefaultFails r.types e) (x : σ) : ∃ e', r.extract x = .error e' := by
  cases extracted : r.extract x with
  | error e' => exact ⟨e', rfl⟩
  | ok record =>
    obtain ⟨entries, rows, rfl⟩ := extract_eq_ok.mp extracted
    obtain ⟨i, inside, rfl⟩ := List.getElem_of_mem mem
    have place : i < entries.length := rows.length_eq ▸ inside
    obtain ⟨-, shows, -⟩ := rows.get inside place
    cases shows with
    | bound bound => simp [unbound] at bound
    | unbound _ default =>
      obtain ⟨document, cause, has, refused, -⟩ := fails
      simp [FieldBinding.defaultValue, has, refused, Except.mapError] at default

/-! ## Populating -/

theorem defaultFails_of_populate (h : (r.populate value).run.run x = (.error e, y))
    (isDefault : e.IsDefault) :
    y = x ∧ ∃ input, r.recordInput value = .ok input ∧
      ∃ f ∈ r.fields, f.binding ≠ none ∧ input.field? f.field.name.text = none ∧
        f.field.DefaultFails r.types e := by
  obtain ⟨name, cause, rfl⟩ := isDefault
  rcases populate_eq_error h with ⟨-, same, ⟨_, other⟩ | ⟨input, given, first⟩⟩ | ⟨write, -⟩
  · cases other
  · refine ⟨same, input, given, ?_⟩
    obtain ⟨split, -, bound, fault⟩ := first
    cases fault with
    | badDefault absent has refused =>
      exact ⟨_, split ▸ List.mem_append_cons_self, by simp [bound], absent, _, _, has, refused, rfl⟩
  · obtain ⟨_, _, _, _, other⟩ := write
    cases other

theorem populate_fails (mem : f ∈ r.fields) (bound : f.binding ≠ none)
    (fails : f.field.DefaultFails r.types e) (given : r.recordInput value = .ok input)
    (absent : input.field? f.field.name.text = none) (x : σ) :
    ∃ e', (r.populate value).run.run x = (.error e', x) := by
  obtain ⟨b, bound⟩ := Option.ne_none_iff_exists'.mp bound
  refine populate_stuck given mem bound (fun v resolves => ?_) x
  obtain ⟨value, supplied, -⟩ := resolves
  cases supplied with
  | given given => simp [absent] at given
  | default _ has read => exact absurd read (not_read_of_defaultFails fails has)

/-! ## Binding -/

section

variable {role : RecordRole} {body : RecordSchema} {properties : PropertySet σ}
  {registry : Registry} {config : BindingConfig}

theorem isOk_bind_withDefaults (body : RecordSchema) (properties : PropertySet σ)
    (registry : Registry) (config : BindingConfig) (documents : Field → Json) :
    (bind (body.withDefaults documents) properties registry config).isOk =
      (bind body properties registry config).isOk := by
  rw [Bool.eq_iff_iff, isOk_bind, isOk_bind]
  unfold RecordSchema.withDefaults
  simp [canBind, Field.hasDefault]

/--
A record binding reports a default that cannot be read only where it is needed, and then nothing is
written. Each default that cannot be read comes up: without a property no object can be extracted,
and with one no record can do without the field. Binding is the same whatever the defaults are.
-/
theorem default_errors (made : bindSchema (.record role body) properties registry config = .ok r) :
    (∀ x e, r.extract x = .error e → e.IsDefault →
      ∃ field ∈ body.fields, properties.find? field.name.text = none ∧
        field.DefaultFails body.definitions e) ∧
    (∀ value x y e, (r.populate value).run.run x = (.error e, y) → e.IsDefault →
      y = x ∧ ∃ input, r.recordInput value = .ok input ∧
        ∃ field ∈ body.fields, properties.find? field.name.text ≠ none ∧
          input.field? field.name.text = none ∧ field.DefaultFails body.definitions e) ∧
    (∀ field ∈ body.fields, ∀ e, field.DefaultFails body.definitions e →
      (properties.find? field.name.text = none → ∀ x, ∃ e', r.extract x = .error e') ∧
      (properties.find? field.name.text ≠ none →
        ∀ value input x, r.recordInput value = .ok input → input.field? field.name.text = none →
          ∃ e', (r.populate value).run.run x = (.error e', x))) ∧
    ∀ documents,
      (bindSchema (.record role (body.withDefaults documents)) properties registry config).isOk := by
  have made : bind body properties registry config = .ok r := made
  have types := types_of_bind made
  refine ⟨?_, ?_, ?_, ?_⟩
  · intro x e failed isDefault
    obtain ⟨f, mem, unbound, fails⟩ := defaultFails_of_extract failed isDefault
    obtain ⟨field, memField, enters⟩ := enters_of_bind made mem
    rw [enters.own, types] at fails
    exact ⟨field, memField, enters.unbound_iff.mp unbound, fails⟩
  · intro value x y e failed isDefault
    obtain ⟨same, input, given, f, mem, bound, absent, fails⟩ :=
      defaultFails_of_populate failed isDefault
    obtain ⟨field, memField, enters⟩ := enters_of_bind made mem
    rw [enters.own] at absent fails
    rw [types] at fails
    exact ⟨same, input, given, field, memField, mt enters.unbound_iff.mpr bound, absent, fails⟩
  · intro field memField e fails
    obtain ⟨f, mem, enters⟩ := entry_of_bind made memField
    rw [← types, ← enters.own] at fails
    refine ⟨fun unbound x => ?_, fun bound value input x given absent => ?_⟩
    · exact extract_fails mem (enters.unbound_iff.mpr unbound) fails x
    · rw [← enters.own] at absent
      exact populate_fails mem (mt enters.unbound_iff.mp bound) fails given absent x
  · intro documents
    have same := isOk_bind_withDefaults body properties registry config documents
    rw [made] at same
    exact same

end

/-! ### A tag on a tree -/

namespace Tag

def document : Json :=
  .obj [("type", .str "record"), ("name", .str "Tag"), ("namespace", .str "forest"),
    ("fields", .arr [
      .obj [("name", .str "label"), ("type", .str "string"), ("default", .num (.ofUInt64 7))],
      .obj [("name", .str "rings"), ("type", .str "int"), ("default", .str "many")]])]

theorem label_wellFormed : nameFault? "label" = none := by decide

theorem rings_wellFormed : nameFault? "rings" = none := by decide

def label : Field where
  name := ⟨"label", label_wellFormed⟩
  type := .primitive .string
  default := some (.num (.ofUInt64 7))

def rings : Field where
  name := ⟨"rings", rings_wellFormed⟩
  type := .primitive .int
  default := some (.str "many")

def body : RecordSchema where
  name := "Tag"
  space := some "forest"
  fields := [label, rings]

def labelProperty : Property String where
  name := "label"
  declaring := "Tag"
  shape := .text
  get := .string
  setter := some fun
    | .string label => set label
    | other => throw (.typeMismatch (.primitive .string) other.kind)

def properties : PropertySet String := ⟨"Tag", [labelProperty]⟩

def config : BindingConfig := { allowUnboundDefaults := true }

def binding : RecordBinding String where
  record := "forest.Tag"
  fields := [⟨label, some ⟨labelProperty, .primitive .string, none⟩⟩, ⟨rings, none⟩]
  types := body.definitions
  config := config

def labelError : BindingError :=
  .field "label" (.default (.mismatch (.num (.ofUInt64 7)) (.primitive .string)))

def ringsError : BindingError :=
  .field "rings" (.default (.mismatch (.str "many") (.primitive .int)))

end Tag

theorem default_errors_tag :
    bindSchema (.record .record Tag.body) Tag.properties .empty Tag.config = .ok Tag.binding ∧
      (∀ x, ∃ e, Tag.binding.extract x = .error e) ∧
      ∀ value input x, Tag.binding.recordInput value = .ok input → input.field? "label" = none →
        ∃ e, (Tag.binding.populate value).run.run x = (.error e, x) := by
  have made : bindSchema (.record .record Tag.body) Tag.properties .empty Tag.config =
      .ok Tag.binding := rfl
  have badLabel : Tag.label.DefaultFails Tag.body.definitions Tag.labelError :=
    ⟨_, _, rfl, rfl, rfl⟩
  have badRings : Tag.rings.DefaultFails Tag.body.definitions Tag.ringsError :=
    ⟨_, _, rfl, rfl, rfl⟩
  obtain ⟨-, -, comesUp, -⟩ := default_errors made
  refine ⟨made, (comesUp Tag.rings (by simp [Tag.body]) _ badRings).1 rfl, ?_⟩
  exact (comesUp Tag.label (by simp [Tag.body]) _ badLabel).2 nofun

/-- A strict parser accepts the tag and it is bound; both defaults fail only afterwards. -/
theorem default_errors_late_tag :
    (({ strict := true } : Parser).parse Tag.document).1 = .ok (.record .record Tag.body) ∧
      bindSchema (.record .record Tag.body) Tag.properties .empty Tag.config = .ok Tag.binding ∧
      Tag.binding.extract "oak" = .error Tag.ringsError ∧
      (Tag.binding.populate (.record [])).run.run "oak" = (.error Tag.labelError, "oak") :=
  ⟨rfl, rfl, rfl, rfl⟩

end RecordBinding

end SchemaBinding
