import SchemaBinding.Binding.Record
import SchemaBinding.Proofs.Sequence

/-!
# Extracting a record

What a record shows of an object depends on what the bound properties read.
-/

namespace SchemaBinding

variable {σ : Type}

/-! ## One field -/

/-- What the converter of a binding makes of the content of the property. -/
def Binding.Presents (b : Binding σ) (content value : Value) : Prop :=
  match b.converter with
  | some converter => converter.toSchema content = .ok value
  | none => value = content

theorem Binding.get_eq_ok {b : Binding σ} {x : σ} {value : Value} :
    b.get x = .ok value ↔ b.Presents (b.property.get x) value := by
  unfold get Presents
  cases b.converter with
  | some converter => exact Result.mapError_eq_ok
  | none => simp [eq_comm]

namespace RecordBinding

variable {r : RecordBinding σ} {x y : σ} {f : FieldBinding σ} {value record : Value}

/-- The value of a field: what its property holds, or else its default. -/
inductive Shows (r : RecordBinding σ) (x : σ) (f : FieldBinding σ) : Value → Prop
  | bound {b : Binding σ} {value : Value} (bound : f.binding = some b)
      (presents : b.Presents (b.property.get x) value) : Shows r x f value
  | unbound {value : Value} (unbound : f.binding = none)
      (default : f.defaultValue r.types = .ok value) : Shows r x f value

/-- The value of a field, which has to be a sequence if the field is one. -/
structure Extracts (r : RecordBinding σ) (x : σ) (f : FieldBinding σ) (value : Value) : Prop where
  shows : r.Shows x f value
  sequence : f.field.type.kind = .array ∨ f.field.type.kind = .map → value.IsSequence

def source (r : RecordBinding σ) (x : σ) (f : FieldBinding σ) : Except BindingError Value :=
  match f.binding with
  | some binding => (binding.get x).mapError (.field f.field.name.text)
  | none => f.defaultValue r.types

theorem source_eq_ok : r.source x f = .ok value ↔ r.Shows x f value := by
  unfold source
  constructor
  · intro h
    split at h
    · next bound => exact .bound bound (Binding.get_eq_ok.mp (Result.mapError_eq_ok.mp h))
    · next unbound => exact .unbound unbound h
  · rintro (⟨bound, presents⟩ | ⟨unbound, default⟩)
    · rw [bound]
      exact Result.mapError_eq_ok.mpr (Binding.get_eq_ok.mpr presents)
    · rw [unbound]
      exact default

theorem extractField_eq : r.extractField x f = do
    let value ← r.source x f
    if f.field.type.kind = .array ∨ f.field.type.kind = .map then
      let _ ← (Sequence.runOn value .list Sequence.count).1.mapError fun e =>
        .field f.field.name.text (.sequence e)
    return value := by
  unfold extractField source
  cases f.binding <;> rfl

theorem extractField_eq_ok : r.extractField x f = .ok value ↔ r.Extracts x f value := by
  rw [extractField_eq, Result.bind_eq_ok]
  constructor
  · rintro ⟨value', shown, h⟩
    split at h
    · next isSequence =>
      obtain ⟨n, counted, h⟩ := Result.bind_eq_ok.mp h
      cases h
      have counts := Result.mapError_eq_ok.mp counted
      have isOk := Sequence.isOk_count.mp (Result.isOk_eq_true.mpr ⟨n, counts⟩)
      exact ⟨source_eq_ok.mp shown, fun _ => isOk⟩
    · next other =>
      cases h
      exact ⟨source_eq_ok.mp shown, fun isSequence => absurd isSequence other⟩
  · rintro ⟨shows, sequence⟩
    refine ⟨value, source_eq_ok.mpr shows, ?_⟩
    split
    · next isSequence =>
      obtain ⟨n, counts⟩ := Result.isOk_eq_true.mp (Sequence.isOk_count.mpr (sequence isSequence))
      exact Result.bind_eq_ok.mpr ⟨n, Result.mapError_eq_ok.mpr counts, rfl⟩
    · rfl

/-! ## All fields -/

theorem extract_eq_ok : r.extract x = .ok record ↔
    ∃ entries, List.Forall₂ (fun f entry => entry.1 = f.field.name.text ∧ r.Extracts x f entry.2)
      r.fields entries ∧ record = .record entries := by
  unfold extract
  rw [Result.bind_eq_ok]
  have each : ∀ f entry, (do return (f.field.name.text, ← r.extractField x f)) =
      (.ok entry : Except BindingError (String × Value)) ↔
        entry.1 = f.field.name.text ∧ r.Extracts x f entry.2 := by
    rintro f ⟨name, value⟩
    rw [← extractField_eq_ok, Result.bind_eq_ok]
    constructor
    · rintro ⟨value, extracted, h⟩
      cases h
      exact ⟨rfl, extracted⟩
    · rintro ⟨rfl, extracted⟩
      exact ⟨value, extracted, rfl⟩
  simp only [Result.mapM_eq_ok, each]
  constructor
  · rintro ⟨entries, rows, h⟩
    cases h
    exact ⟨entries, rows, rfl⟩
  · rintro ⟨entries, rows, rfl⟩
    exact ⟨entries, rows, rfl⟩

theorem extract_of_forall {P : FieldBinding σ → Value → Prop}
    (each : ∀ f ∈ r.fields, ∃ value, r.Extracts x f value ∧ P f value) :
    ∃ entries, r.extract x = .ok (.record entries) ∧
      List.Forall₂ (fun f entry => entry.1 = f.field.name.text ∧ P f entry.2) r.fields entries := by
  have rows : ∀ fs : List (FieldBinding σ),
      (∀ f ∈ fs, ∃ value, r.Extracts x f value ∧ P f value) →
        ∃ entries, List.Forall₂ (fun f (entry : String × Value) =>
          entry.1 = f.field.name.text ∧ r.Extracts x f entry.2 ∧ P f entry.2) fs entries := by
    intro fs
    induction fs with
    | nil => exact fun _ => ⟨[], .nil⟩
    | cons f fs ih =>
      intro each
      obtain ⟨⟨value, first⟩, others⟩ := List.forall_mem_cons.mp each
      obtain ⟨entries, rows⟩ := ih others
      exact ⟨(f.field.name.text, value) :: entries, .cons ⟨rfl, first⟩ rows⟩
  obtain ⟨entries, rows⟩ := rows r.fields each
  refine ⟨entries, extract_eq_ok.mpr ⟨entries, ?_, rfl⟩, ?_⟩
  · exact rows.imp fun f entry h => ⟨h.1, h.2.1⟩
  · exact rows.imp fun f entry h => ⟨h.1, h.2.2⟩

theorem Shows.congr (same : ∀ b, f.binding = some b → b.property.get y = b.property.get x)
    (h : r.Shows x f value) : r.Shows y f value := by
  cases h with
  | bound bound presents => exact .bound bound (by rwa [same _ bound])
  | unbound unbound default => exact .unbound unbound default

theorem extract_congr
    (same : ∀ f ∈ r.fields, ∀ b, f.binding = some b → b.property.get y = b.property.get x)
    (h : r.extract x = .ok record) : r.extract y = .ok record := by
  obtain ⟨entries, rows, rfl⟩ := extract_eq_ok.mp h
  refine extract_eq_ok.mpr ⟨entries, ?_, rfl⟩
  refine ((List.forall₂_and_left _ _).mpr ⟨same, rows⟩).imp ?_
  rintro f entry ⟨same, name, shows, sequence⟩
  exact ⟨name, shows.congr same, sequence⟩

end RecordBinding

end SchemaBinding
