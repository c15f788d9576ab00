import SchemaBinding.Proofs.Binding.Populate

/-!
# Setting fields one by one

Populating an object comes to the same as setting its properties one after the other.
-/

namespace SchemaBinding

open Step

variable {σ : Type}

theorem Binding.gives_set {b : Binding σ} {value : Value} {x y : σ} :
    Gives (b.set value) x () y ↔
      ∃ converted, b.fromSchema value = .ok converted ∧
        (b.property.set converted).run.run x = (.ok (), y) := by
  unfold Binding.set
  rw [gives_bind]
  constructor
  · rintro ⟨converted, _, lifted, h⟩
    obtain ⟨converts, rfl⟩ := gives_lift.mp lifted
    exact ⟨converted, converts, gives_adapt.mp h⟩
  · rintro ⟨converted, converts, stored⟩
    exact ⟨converted, x, gives_lift.mpr ⟨converts, rfl⟩, gives_adapt.mpr stored⟩

namespace RecordBinding

variable {r : RecordBinding σ} {input : Value} {f : FieldBinding σ} {fs : List (FieldBinding σ)}

/-- Sets the bound fields in order, each to its value in the input or else to its default. -/
def setEach (r : RecordBinding σ) (input : Value) : List (FieldBinding σ) → Step BindingError σ Unit
  | [] => pure ()
  | f :: fs =>
    match f.binding with
    | none => r.setEach input fs
    | some binding => do
      let value ← r.supply input f
      binding.set value
      r.setEach input fs

/-- A field that is bound is to take a value, and the value passes the checks. -/
def Ready (r : RecordBinding σ) (input : Value) (f : FieldBinding σ) : Prop :=
  ∀ b, f.binding = some b → ∃ value, r.Supplies input f value ∧ r.Passes f value

/-! ## One field -/

theorem gives_setEach_unbound (unbound : f.binding = none) {x y : σ} :
    Gives (r.setEach input (f :: fs)) x () y ↔ Gives (r.setEach input fs) x () y := by
  rw [setEach, unbound]

theorem gives_setEach_bound {b : Binding σ} (bound : f.binding = some b) {x y : σ} :
    Gives (r.setEach input (f :: fs)) x () y ↔
      ∃ value x', r.Supplies input f value ∧ Gives (b.set value) x () x' ∧
        Gives (r.setEach input fs) x' () y := by
  rw [setEach, bound]
  dsimp only
  rw [gives_bind]
  constructor
  · rintro ⟨value, _, lifted, h⟩
    obtain ⟨supplied, rfl⟩ := gives_lift.mp lifted
    obtain ⟨_, x', first, rest⟩ := gives_bind.mp h
    exact ⟨value, x', supply_eq_ok.mp supplied, first, rest⟩
  · rintro ⟨value, x', supplied, first, rest⟩
    exact ⟨value, x, gives_lift.mpr ⟨supply_eq_ok.mpr supplied, rfl⟩,
      gives_bind.mpr ⟨(), x', first, rest⟩⟩

theorem resolves_and_stored {b : Binding σ} (bound : f.binding = some b) {x y : σ} :
    (∃ converted, r.Resolves input f b converted ∧
      (b.property.set converted).run.run x = (.ok (), y)) ↔
    r.Ready input f ∧ ∃ value, r.Supplies input f value ∧ Gives (b.set value) x () y := by
  constructor
  · rintro ⟨converted, ⟨value, supplied, passes, converts⟩, stored⟩
    refine ⟨fun _ _ => ⟨value, supplied, passes⟩, value, supplied, ?_⟩
    exact Binding.gives_set.mpr ⟨converted, Binding.fromSchema_eq_ok.mpr converts, stored⟩
  · rintro ⟨ready, value, supplied, set⟩
    obtain ⟨value', supplied', passes⟩ := ready b bound
    obtain rfl := supplied.unique supplied'
    obtain ⟨converted, converts, stored⟩ := Binding.gives_set.mp set
    exact ⟨converted, ⟨value, supplied, passes, Binding.fromSchema_eq_ok.mp converts⟩, stored⟩

/-! ## All fields -/

theorem planned_cons_unbound (unbound : f.binding = none) {writes : List (Binding σ × Value)} :
    r.Planned input (f :: fs) writes ↔ r.Planned input fs writes := by
  constructor
  · intro h
    cases h with
    | unbound _ rest => exact rest
    | bound bound => simp [unbound] at bound
  · exact .unbound unbound

theorem planned_cons_bound {b : Binding σ} (bound : f.binding = some b)
    {writes : List (Binding σ × Value)} :
    r.Planned input (f :: fs) writes ↔
      ∃ converted rest, r.Resolves input f b converted ∧ r.Planned input fs rest ∧
        (b, converted) :: rest = writes := by
  constructor
  · intro h
    cases h with
    | unbound unbound => simp [unbound] at bound
    | bound bound' resolves rest =>
      obtain rfl := Option.some.inj (bound.symm.trans bound')
      exact ⟨_, _, resolves, rest, rfl⟩
  · rintro ⟨converted, rest, resolves, planned, rfl⟩
    exact .bound bound resolves planned

theorem planned_written_iff {x y : σ} :
    (∃ writes, r.Planned input fs writes ∧ Written writes x y) ↔
      (∀ f ∈ fs, r.Ready input f) ∧ Gives (r.setEach input fs) x () y := by
  -- A conversion does not look at the object, so it does not matter that the plan makes it before
  -- the writes of the earlier fields.
  induction fs generalizing x with
  | nil =>
    constructor
    · rintro ⟨writes, planned, written⟩
      cases planned
      cases written
      exact ⟨List.forall_mem_nil _, gives_pure.mpr ⟨rfl, rfl⟩⟩
    · rintro ⟨-, h⟩
      obtain ⟨-, rfl⟩ := gives_pure.mp h
      exact ⟨[], .nil, .nil⟩
  | cons f fs ih =>
    rw [List.forall_mem_cons]
    cases bound : f.binding with
    | none =>
      have ready : r.Ready input f := fun b some => by simp [bound] at some
      simp only [planned_cons_unbound bound, gives_setEach_unbound bound, ih, ready, true_and]
    | some b =>
      constructor
      · rintro ⟨_, planned, written⟩
        obtain ⟨converted, rest, resolves, others, rfl⟩ := (planned_cons_bound bound).mp planned
        cases written with
        | @cons _ _ _ _ x' _ stored written =>
          obtain ⟨ready, value, supplied, first⟩ :=
            (resolves_and_stored bound).mp ⟨converted, resolves, stored⟩
          obtain ⟨allReady, later⟩ := ih.mp ⟨rest, others, written⟩
          exact ⟨⟨ready, allReady⟩,
            (gives_setEach_bound bound).mpr ⟨value, x', supplied, first, later⟩⟩
      · rintro ⟨⟨ready, allReady⟩, h⟩
        obtain ⟨value, x', supplied, first, later⟩ := (gives_setEach_bound bound).mp h
        obtain ⟨converted, resolves, stored⟩ :=
          (resolves_and_stored bound).mpr ⟨ready, value, supplied, first⟩
        obtain ⟨rest, others, written⟩ := ih.mpr ⟨allReady, later⟩
        exact ⟨_, (planned_cons_bound bound).mpr ⟨converted, rest, resolves, others, rfl⟩,
          .cons stored written⟩

/--
An object is populated just when every bound field has a value that passes its checks and setting
the fields one by one succeeds, and then the object comes out the same.
-/
theorem populate_iff_setEach (r : RecordBinding σ) (value : Value) (x y : σ) :
    (r.populate value).run.run x = (.ok (), y) ↔
      ∃ input, r.recordInput value = .ok input ∧ (∀ f ∈ r.fields, r.Ready input f) ∧
        (r.setEach input r.fields).run.run x = (.ok (), y) := by
  rw [populate_eq_ok]
  constructor
  · rintro ⟨input, writes, hi, planned, written⟩
    exact ⟨input, hi, planned_written_iff.mp ⟨writes, planned, written⟩⟩
  · rintro ⟨input, hi, ready⟩
    obtain ⟨writes, planned, written⟩ := planned_written_iff.mpr ready
    exact ⟨input, writes, hi, planned, written⟩

end RecordBinding

end SchemaBinding
