import SchemaBinding.Binding.Record
import SchemaBinding.Proofs.Sequence
import SchemaBinding.Proofs.Value.Default

/-!
# Resolving fields

Either all bound fields pass six checks and there is a plan of what to write, or the earliest
failure is the error.
-/

namespace SchemaBinding

namespace Binding

variable {σ : Type}

/-! ## Converting and writing one value -/

/-- What the converter of a binding makes of a value; without one the value stays as it is. -/
def Converts (b : Binding σ) (value converted : Value) : Prop :=
  match b.converter with
  | some converter => converter.fromSchema value = .ok converted
  | none => converted = value

theorem fromSchema_eq_ok {b : Binding σ} {value converted : Value} :
    b.fromSchema value = .ok converted ↔
      b.property.isWritable = true ∧ b.Converts value converted := by
  unfold fromSchema Converts
  by_cases writable : b.property.isWritable = true
  · rw [if_pos writable]
    cases b.converter with
    | some converter => simp only [Result.mapError_eq_ok, writable, true_and]
    | none => simp [writable, eq_comm]
  · simp [writable]

end Binding

def BindingError.IsWrite (e : BindingError) : Prop :=
  ∃ name property declaring cause, e = .field name (.write property declaring cause)

namespace RecordBinding

variable {σ : Type}

/-! ## What becomes of one field -/

section

variable (r : RecordBinding σ) (input : Value) (f : FieldBinding σ)

/-- The value that a field is to take: the one of the input, or else its default. -/
inductive Supplies : Value → Prop
  | given {value : Value} (h : input.field? f.field.name.text = some value) : Supplies value
  | default {document : Json} {value : Value} (absent : input.field? f.field.name.text = none)
      (has : f.field.default = some document)
      (read : Value.ofJson document f.field.type r.types = .ok value) : Supplies value

/-- A value conforms to the type of a field, and is an array if that is one. -/
structure Passes (value : Value) : Prop where
  conforms : value.conforms f.field.type r.types = true
  isArray : f.field.type.kind = .array → ∃ items, value = .array items

/-- A field passes all checks, and `converted` is to be written to its property. -/
def Resolves (b : Binding σ) (converted : Value) : Prop :=
  ∃ value, r.Supplies input f value ∧ r.Passes f value ∧ b.property.isWritable = true ∧
    b.Converts value converted

/-- A field fails a check, and the checks before that one do not stop it. -/
inductive Fault (b : Binding σ) : BindingError → Prop
  | missing (absent : input.field? f.field.name.text = none) (none : f.field.default = none) :
      Fault b (.missingValue f.field.name.text)
  | badDefault {document : Json} {e : DefaultError}
      (absent : input.field? f.field.name.text = none) (has : f.field.default = some document)
      (refused : Value.ofJson document f.field.type r.types = .error e) :
      Fault b (.field f.field.name.text (.default e))
  | nonConforming {value : Value} (supplied : r.Supplies input f value)
      (h : value.conforms f.field.type r.types = false) :
      Fault b (.field f.field.name.text
        (.nonConforming f.field.name.text f.field.type.kind value.kind))
  | notArray {value : Value} (supplied : r.Supplies input f value)
      (conforms : value.conforms f.field.type r.types = true) (array : f.field.type.kind = .array)
      (h : ∀ items, value ≠ .array items) :
      Fault b (.field f.field.name.text (.sequence ⟨"iterate", value.kind⟩))
  | readOnly {value : Value} (supplied : r.Supplies input f value) (passes : r.Passes f value)
      (h : b.property.isWritable = false) :
      Fault b (.field f.field.name.text (.readOnly b.property.name b.property.declaring))
  | refused {value : Value} {converter : Converter} {cause : ValueError}
      (supplied : r.Supplies input f value) (passes : r.Passes f value)
      (writable : b.property.isWritable = true) (has : b.converter = some converter)
      (h : converter.fromSchema value = .error cause) :
      Fault b (.field f.field.name.text
        (.conversion b.property.name b.property.declaring cause))

def supply : Except BindingError Value :=
  match input.field? f.field.name.text with
  | some value => .ok value
  | none => f.defaultValue r.types

def check (b : Binding σ) (value : Value) : Except BindingError Value :=
  let name := f.field.name.text
  if value.conforms f.field.type r.types then
    if f.field.type.kind = .array then do
      let rebuilt ← (Sequence.rebuild r.config.sequenceKind value).mapError fun e =>
        .field name (.sequence e)
      (b.fromSchema rebuilt).mapError (.field name)
    else (b.fromSchema value).mapError (.field name)
  else .error (.field name (.nonConforming name f.field.type.kind value.kind))

end

variable {r : RecordBinding σ} {input : Value} {f : FieldBinding σ} {b : Binding σ}

theorem resolveField_eq : r.resolveField input f b = r.supply input f >>= r.check f b := by
  unfold resolveField supply
  dsimp only
  cases input.field? f.field.name.text <;> rfl

theorem supply_eq_ok {value : Value} :
    r.supply input f = .ok value ↔ r.Supplies input f value := by
  unfold supply FieldBinding.defaultValue
  constructor
  · intro h
    split at h
    · next found => cases h; exact .given found
    · next absent =>
      split at h
      · next has => exact .default absent has (Result.mapError_eq_ok.mp h)
      · cases h
  · intro h
    cases h with
    | given found => rw [found]
    | default absent has read =>
      rw [absent, has]
      exact Result.mapError_eq_ok.mpr read

theorem Supplies.unique {value value' : Value} (h : r.Supplies input f value)
    (h' : r.Supplies input f value') : value = value' :=
  Except.ok.inj ((supply_eq_ok.mpr h).symm.trans (supply_eq_ok.mpr h'))

theorem fault_of_supply {e : BindingError} (h : r.supply input f = .error e) :
    r.Fault input f b e := by
  unfold supply FieldBinding.defaultValue at h
  split at h
  · cases h
  · next absent =>
    split at h
    · next has =>
      obtain ⟨cause, refused, rfl⟩ := Result.mapError_eq_error.mp h
      exact .badDefault absent has refused
    · next none => cases h; exact .missing absent none

theorem check_of_passes {value : Value} (passes : r.Passes f value) :
    r.check f b value = (b.fromSchema value).mapError (.field f.field.name.text) := by
  unfold check
  rw [if_pos passes.conforms]
  split
  · next array =>
    obtain ⟨items, rfl⟩ := passes.isArray array
    rw [Sequence.rebuild_array]
    rfl
  · rfl

theorem check_of_not_passes {value : Value} (fails : ¬ r.Passes f value)
    (supplied : r.Supplies input f value) :
    ∃ e, r.check f b value = .error e ∧ r.Fault input f b e := by
  unfold check
  by_cases conforms : value.conforms f.field.type r.types = true
  · rw [if_pos conforms]
    by_cases array : f.field.type.kind = .array
    · rw [if_pos array]
      have other : ∀ items, value ≠ .array items := fun items h =>
        fails ⟨conforms, fun _ => ⟨items, h⟩⟩
      rw [Sequence.rebuild_other _ other]
      exact ⟨_, rfl, .notArray supplied conforms array other⟩
    · exact absurd ⟨conforms, fun h => absurd h array⟩ fails
  · rw [if_neg conforms]
    exact ⟨_, rfl, .nonConforming supplied (Bool.eq_false_iff.mpr conforms)⟩

theorem fault_of_fromSchema {value : Value} {e : BindingError}
    (supplied : r.Supplies input f value) (passes : r.Passes f value)
    (h : (b.fromSchema value).mapError (.field f.field.name.text) = .error e) :
    r.Fault input f b e := by
  obtain ⟨inner, failed, rfl⟩ := Result.mapError_eq_error.mp h
  unfold Binding.fromSchema at failed
  split at failed
  · next writable =>
    split at failed
    · next has =>
      obtain ⟨cause, refused, rfl⟩ := Result.mapError_eq_error.mp failed
      exact .refused supplied passes writable has refused
    · cases failed
  · next readOnly =>
    cases failed
    exact .readOnly supplied passes (Bool.eq_false_iff.mpr readOnly)

theorem resolveField_eq_ok {converted : Value} :
    r.resolveField input f b = .ok converted ↔ r.Resolves input f b converted := by
  rw [resolveField_eq, Result.bind_eq_ok]
  constructor
  · rintro ⟨value, hs, hc⟩
    have supplied := supply_eq_ok.mp hs
    by_cases passes : r.Passes f value
    · rw [check_of_passes passes, Result.mapError_eq_ok] at hc
      exact ⟨value, supplied, passes, Binding.fromSchema_eq_ok.mp hc⟩
    · obtain ⟨e, he, -⟩ := check_of_not_passes (b := b) passes supplied
      rw [he] at hc
      cases hc
  · rintro ⟨value, supplied, passes, converts⟩
    refine ⟨value, supply_eq_ok.mpr supplied, ?_⟩
    rw [check_of_passes passes, Result.mapError_eq_ok]
    exact Binding.fromSchema_eq_ok.mpr converts

theorem Resolves.unique {v v' : Value} (h : r.Resolves input f b v) (h' : r.Resolves input f b v') :
    v = v' :=
  Except.ok.inj ((resolveField_eq_ok.mpr h).symm.trans (resolveField_eq_ok.mpr h'))

theorem fault_of_resolveField {e : BindingError} (h : r.resolveField input f b = .error e) :
    r.Fault input f b e := by
  rw [resolveField_eq] at h
  rcases Result.bind_eq_error.mp h with hs | ⟨value, hs, hc⟩
  · exact fault_of_supply hs
  · have supplied := supply_eq_ok.mp hs
    by_cases passes : r.Passes f value
    · rw [check_of_passes passes] at hc
      exact fault_of_fromSchema supplied passes hc
    · obtain ⟨e', he, fault⟩ := check_of_not_passes (b := b) passes supplied
      rw [he] at hc
      cases hc
      exact fault

theorem Fault.not_write {e : BindingError} (h : r.Fault input f b e) : ¬ e.IsWrite := by
  rintro ⟨name, property, declaring, cause, rfl⟩
  nomatch h

/-! ## All fields before the first write -/

/-- Every bound field resolves, and these are the writes that the fields call for, in order. -/
inductive Planned (r : RecordBinding σ) (input : Value) :
    List (FieldBinding σ) → List (Binding σ × Value) → Prop
  | nil : Planned r input [] []
  | unbound {f : FieldBinding σ} {fs : List (FieldBinding σ)} {writes : List (Binding σ × Value)}
      (none : f.binding = none) (rest : Planned r input fs writes) :
      Planned r input (f :: fs) writes
  | bound {f : FieldBinding σ} {fs : List (FieldBinding σ)} {b : Binding σ} {value : Value}
      {writes : List (Binding σ × Value)} (some : f.binding = some b)
      (resolves : r.Resolves input f b value) (rest : Planned r input fs writes) :
      Planned r input (f :: fs) ((b, value) :: writes)

theorem planned_of_resolveFields {fs : List (FieldBinding σ)} {writes : List (Binding σ × Value)}
    (h : r.resolveFields input fs = .ok writes) : r.Planned input fs writes := by
  induction fs generalizing writes with
  | nil => cases h; exact .nil
  | cons f fs ih =>
    unfold resolveFields at h
    split at h
    · next unbound => exact .unbound unbound (ih h)
    · next bound =>
      obtain ⟨value, hv, h⟩ := Result.bind_eq_ok.mp h
      obtain ⟨rest, hr, h⟩ := Result.bind_eq_ok.mp h
      cases h
      exact .bound bound (resolveField_eq_ok.mp hv) (ih hr)

/-- The earliest bound field that does not resolve, and its error. -/
inductive FirstFault (r : RecordBinding σ) (input : Value) (fs : List (FieldBinding σ))
    (e : BindingError) : Prop
  | mk {before : List (FieldBinding σ)} {f : FieldBinding σ} {after : List (FieldBinding σ)}
      {writes : List (Binding σ × Value)} {b : Binding σ} (split : fs = before ++ f :: after)
      (resolved : r.Planned input before writes) (bound : f.binding = some b)
      (fault : r.Fault input f b e)

theorem FirstFault.not_write {fs : List (FieldBinding σ)} {e : BindingError}
    (h : r.FirstFault input fs e) : ¬ e.IsWrite := by
  obtain ⟨-, -, -, fault⟩ := h
  exact fault.not_write

theorem firstFault_of_resolveFields {fs : List (FieldBinding σ)} {e : BindingError}
    (h : r.resolveFields input fs = .error e) : r.FirstFault input fs e := by
  induction fs with
  | nil => cases h
  | cons f fs ih =>
    unfold resolveFields at h
    split at h
    · next unbound =>
      obtain ⟨rfl, resolved, bound, fault⟩ := ih h
      exact ⟨rfl, .unbound unbound resolved, bound, fault⟩
    · next b bound =>
      rcases Result.bind_eq_error.mp h with hf | ⟨value, hv, h⟩
      · exact ⟨rfl, .nil, bound, fault_of_resolveField hf⟩
      · rcases Result.bind_eq_error.mp h with hr | ⟨rest, -, h⟩
        · obtain ⟨rfl, resolved, bound', fault⟩ := ih hr
          exact ⟨rfl, .bound bound (resolveField_eq_ok.mp hv) resolved, bound', fault⟩
        · cases h

theorem resolveFields_of_planned {fs : List (FieldBinding σ)} {writes : List (Binding σ × Value)}
    (h : r.Planned input fs writes) : r.resolveFields input fs = .ok writes := by
  induction h with
  | nil => rfl
  | unbound none rest ih =>
    unfold resolveFields
    rw [none]
    exact ih
  | bound some resolves rest ih =>
    unfold resolveFields
    rw [some]
    exact Result.bind_eq_ok.mpr
      ⟨_, resolveField_eq_ok.mpr resolves, Result.bind_eq_ok.mpr ⟨_, ih, rfl⟩⟩

theorem Planned.resolveFields_error {before after : List (FieldBinding σ)}
    {writes : List (Binding σ × Value)} {e : BindingError} (h : r.Planned input before writes)
    (bound : f.binding = some b) (failed : r.resolveField input f b = .error e) :
    r.resolveFields input (before ++ f :: after) = .error e := by
  induction h with
  | nil =>
    rw [List.nil_append, resolveFields, bound]
    exact Result.bind_eq_error.mpr (.inl failed)
  | unbound none rest ih =>
    rw [List.cons_append, resolveFields, none]
    exact ih
  | bound some resolves rest ih =>
    rw [List.cons_append, resolveFields, some]
    exact Result.bind_eq_error.mpr
      (.inr ⟨_, resolveField_eq_ok.mpr resolves, Result.bind_eq_error.mpr (.inl ih)⟩)

theorem Planned.split {fs : List (FieldBinding σ)} {done later : List (Binding σ × Value)}
    {b : Binding σ} {v : Value} (h : r.Planned input fs (done ++ (b, v) :: later)) :
    ∃ before f after, fs = before ++ f :: after ∧ f.binding = some b ∧
      r.Planned input before done ∧ r.Resolves input f b v ∧ r.Planned input after later := by
  generalize all : done ++ (b, v) :: later = writes at h
  induction h generalizing done with
  | nil => simp at all
  | @unbound f fs writes none rest ih =>
    obtain ⟨before, f', after, rfl, bound, resolved, resolves, planned⟩ := ih all
    exact ⟨f :: before, f', after, rfl, bound, .unbound none resolved, resolves, planned⟩
  | @bound f fs b' v' writes some first rest ih =>
    cases done with
    | nil =>
      cases all
      exact ⟨[], f, fs, rfl, some, .nil, first, rest⟩
    | cons head done =>
      obtain ⟨rfl, tail⟩ := List.cons.inj all
      obtain ⟨before, f', after, rfl, bound, resolved, resolves, planned⟩ := ih tail
      exact ⟨f :: before, f', after, rfl, bound, .bound some first resolved, resolves, planned⟩

end RecordBinding

end SchemaBinding
