import SchemaBinding.Binding.Record
import SchemaBinding.Proofs.Binding.Making

/-!
# Binding all fields of a record

A record is bound when each of its fields can be.
-/

namespace SchemaBinding

theorem PropertySet.name_of_find? {σ : Type} {properties : PropertySet σ} {name : String}
    {property : Property σ} (h : properties.find? name = some property) : property.name = name := by
  unfold PropertySet.find? at h
  have named := List.find?_some h
  exact beq_iff_eq.mp named

namespace RecordBinding

variable {σ : Type} {properties : PropertySet σ} {registry : Registry} {config : BindingConfig}
  {field : Field} {f : FieldBinding σ} {e : BindingError}

/-! ## One field -/

/-- A field can be bound to the property of its name or, if there is none, be left to its default. -/
def canBind (properties : PropertySet σ) (registry : Registry) (config : BindingConfig)
    (field : Field) : Bool :=
  match properties.find? field.name.text with
  | some property => (Binding.bind property field.type.kind registry).isOk
  | none => field.hasDefault && config.allowUnboundDefaults

/-- The entry has the field, and the property of its name for its kind, if there is one. -/
structure Enters (properties : PropertySet σ) (field : Field) (f : FieldBinding σ) : Prop where
  own : f.field = field
  property : f.binding.map (·.property) = properties.find? field.name.text
  kind : ∀ b, f.binding = some b → b.kind = field.type.kind

theorem Enters.name {b : Binding σ} (h : Enters properties field f) (bound : f.binding = some b) :
    b.property.name = field.name.text := by
  have same := h.property
  rw [bound] at same
  exact PropertySet.name_of_find? same.symm

theorem Enters.unbound_iff (h : Enters properties field f) :
    f.binding = none ↔ properties.find? field.name.text = none := by
  rw [← h.property, Option.map_eq_none_iff]

theorem enters_of_bindField (h : bindField properties registry config field = .ok f) :
    Enters properties field f := by
  unfold bindField at h
  split at h
  · next property found =>
    obtain ⟨b, bound, h⟩ := Result.bind_eq_ok.mp h
    obtain ⟨own, same⟩ := Binding.of_bind bound
    cases h
    refine ⟨rfl, ?_, ?_⟩
    · rw [found, Option.map_some, own]
    · intro b' entry
      cases entry
      exact same
  · next absent =>
    split at h
    · cases h
      refine ⟨rfl, absent.symm, ?_⟩
      intro b none
      cases none
    · cases h

theorem property?_of_bindField (h : bindField properties registry config field = .error e) :
    e.property? = some field.name.text := by
  unfold bindField at h
  split at h
  · next property found =>
    rcases Result.bind_eq_error.mp h with unbound | ⟨_, -, h⟩
    · obtain rfl := Binding.bind_eq_error unbound
      exact congrArg some (PropertySet.name_of_find? found)
    · cases h
  · split at h
    · cases h
    · cases h
      rfl

theorem isOk_bindField : (bindField properties registry config field).isOk =
    canBind properties registry config field := by
  unfold bindField canBind
  cases properties.find? field.name.text with
  | some property =>
    dsimp only
    cases Binding.bind property field.type.kind registry <;> rfl
  | none =>
    dsimp only
    rw [Bool.and_comm]
    cases field.hasDefault && config.allowUnboundDefaults <;> rfl

/-! ## All fields -/

section Partition

variable {α β γ : Type} {attempt : α → Except BindingError β} {items : List α}

theorem partition_map_cons_ok {item : α} {b : β} (h : attempt item = .ok b) :
    partition ((item :: items).map attempt) =
      (b :: (partition (items.map attempt)).1, (partition (items.map attempt)).2) := by
  rw [List.map_cons, h, partition]

theorem partition_map_cons_error {item : α} (h : attempt item = .error e) :
    partition ((item :: items).map attempt) =
      ((partition (items.map attempt)).1, e :: (partition (items.map attempt)).2) := by
  rw [List.map_cons, h, partition]

theorem partition_map_ok {result : α → β} (h : ∀ item ∈ items, attempt item = .ok (result item)) :
    partition (items.map attempt) = (items.map result, []) := by
  induction items with
  | nil => rfl
  | cons item items ih =>
    obtain ⟨first, rest⟩ := List.forall_mem_cons.mp h
    rw [partition_map_cons_ok first, ih rest, List.map_cons]

theorem partition_errors_eq_nil : (partition (items.map attempt)).2 = [] ↔
    ∀ item ∈ items, (attempt item).isOk = true := by
  induction items with
  | nil => exact ⟨fun _ => nofun, fun _ => rfl⟩
  | cons item items ih =>
    rw [List.forall_mem_cons, ← ih]
    cases outcome : attempt item with
    | ok b =>
      rw [partition_map_cons_ok outcome]
      exact (and_iff_right rfl).symm
    | error e =>
      rw [partition_map_cons_error outcome]
      exact ⟨nofun, fun ⟨made, _⟩ => nomatch made⟩

theorem partition_results (h : ∀ item ∈ items, (attempt item).isOk = true) :
    List.Forall₂ (fun item b => attempt item = .ok b) items (partition (items.map attempt)).1 := by
  induction items with
  | nil => exact .nil
  | cons item items ih =>
    obtain ⟨first, rest⟩ := List.forall_mem_cons.mp h
    obtain ⟨b, made⟩ := Result.isOk_eq_true.mp first
    rw [partition_map_cons_ok made]
    exact .cons made (ih rest)

theorem partition_errors {subject : BindingError → γ} {name : α → γ}
    (h : ∀ item e, attempt item = .error e → subject e = name item) :
    (partition (items.map attempt)).2.map subject =
      (items.filter fun item => !(attempt item).isOk).map name := by
  induction items with
  | nil => rfl
  | cons item items ih =>
    cases outcome : attempt item with
    | ok b =>
      have made : (!(attempt item).isOk) = false := by rw [outcome]; rfl
      rw [partition_map_cons_ok outcome, List.filter_cons, made]
      exact ih
    | error e =>
      have failed : (!(attempt item).isOk) = true := by rw [outcome]; rfl
      rw [partition_map_cons_error outcome, List.filter_cons, failed, if_pos rfl, List.map_cons,
        List.map_cons, h item e outcome, ih]

end Partition

theorem bind_eq (schema : RecordSchema) (properties : PropertySet σ) (registry : Registry)
    (config : BindingConfig) :
    bind schema properties registry config =
      if (∀ field ∈ schema.fields, canBind properties registry config field = true) then
        .ok
          { record := schema.fullname
            fields := (partition (schema.fields.map (bindField properties registry config))).1
            types := schema.definitions, config }
      else
        .error (.record schema.fullname
          (partition (schema.fields.map (bindField properties registry config))).2) := by
  have complete : (partition (schema.fields.map (bindField properties registry config))).2 = [] ↔
      ∀ field ∈ schema.fields, canBind properties registry config field = true := by
    simp only [partition_errors_eq_nil, isOk_bindField]
  unfold bind
  dsimp only
  simp only [List.isEmpty_iff, complete]

section Outcome

variable {schema : RecordSchema} {r : RecordBinding σ}

theorem isOk_bind : (bind schema properties registry config).isOk = true ↔
    ∀ field ∈ schema.fields, canBind properties registry config field = true := by
  rw [bind_eq]
  split
  · next all => exact ⟨fun _ => all, fun _ => rfl⟩
  · next some => exact ⟨nofun, fun all => absurd all some⟩

theorem forall₂_of_bind (h : bind schema properties registry config = .ok r) :
    r.record = schema.fullname ∧ List.Forall₂ (Enters properties) schema.fields r.fields := by
  rw [bind_eq] at h
  split at h
  · next all =>
    cases h
    simp only [← isOk_bindField] at all
    exact ⟨rfl, (partition_results all).imp fun _ _ => enters_of_bindField⟩
  · cases h

theorem enters_of_bind (h : bind schema properties registry config = .ok r)
    (mem : f ∈ r.fields) : ∃ field ∈ schema.fields, Enters properties field f := by
  obtain ⟨-, all⟩ := forall₂_of_bind h
  obtain ⟨i, inside, rfl⟩ := List.getElem_of_mem mem
  have place : i < schema.fields.length := all.length_eq ▸ inside
  exact ⟨_, List.getElem_mem place, all.get place inside⟩

theorem entry_of_bind (h : bind schema properties registry config = .ok r)
    (mem : field ∈ schema.fields) : ∃ f ∈ r.fields, Enters properties field f := by
  obtain ⟨-, all⟩ := forall₂_of_bind h
  obtain ⟨i, inside, rfl⟩ := List.getElem_of_mem mem
  have place : i < r.fields.length := all.length_eq ▸ inside
  exact ⟨_, List.getElem_mem place, all.get inside place⟩

theorem types_of_bind (h : bind schema properties registry config = .ok r) :
    r.types = schema.definitions := by
  rw [bind_eq] at h
  split at h
  · cases h
    rfl
  · cases h

theorem errors_of_bind (h : bind schema properties registry config = .error e) :
    ∃ errors, e = .record schema.fullname errors ∧
      errors.map (·.property?) =
        (schema.fields.filter fun field => !canBind properties registry config field).map
          fun field => some field.name.text := by
  rw [bind_eq] at h
  split at h
  · cases h
  · cases h
    simp only [← isOk_bindField]
    exact ⟨_, rfl, partition_errors fun _ _ => property?_of_bindField⟩

end Outcome

/--
A record is bound exactly when each of its fields can be, and then the entries are those of the
fields, in order. Else the error lists one error for each field that cannot be bound, in order, and
each is about its field.
-/
theorem bind_all_or_nothing (schema : RecordSchema) (properties : PropertySet σ)
    (registry : Registry) (config : BindingConfig) :
    ((bind schema properties registry config).isOk = true ↔
        ∀ field ∈ schema.fields, canBind properties registry config field = true) ∧
      (∀ r, bind schema properties registry config = .ok r →
        r.record = schema.fullname ∧ List.Forall₂ (Enters properties) schema.fields r.fields) ∧
      ∀ e, bind schema properties registry config = .error e →
        ∃ errors, e = .record schema.fullname errors ∧
          errors.map (·.property?) =
            (schema.fields.filter fun field => !canBind properties registry config field).map
              fun field => some field.name.text :=
  ⟨isOk_bind, fun _ => forall₂_of_bind, fun _ => errors_of_bind⟩

end RecordBinding

end SchemaBinding
