import SchemaBinding.Proofs.Binding.Populate

/-!
# What the writes leave behind

Properties that read back what they stored and leave each other alone read in the end what was
written.
-/

namespace SchemaBinding

variable {σ : Type}

namespace Property

/-- The property stores the value, whatever the object is like. -/
def Accepts (p : Property σ) (v : Value) : Prop := ∀ x, ∃ y, (p.set v).run.run x = (.ok (), y)

/-- Where the property has stored the value, it reads as that value. -/
def ReadsBack (p : Property σ) (v : Value) : Prop :=
  ∀ ⦃x y : σ⦄, (p.set v).run.run x = (.ok (), y) → p.get y = v

/-- Whatever the property stores, the other one reads as before. -/
def Spares (p other : Property σ) : Prop :=
  ∀ ⦃v : Value⦄ ⦃x y : σ⦄, (p.set v).run.run x = (.ok (), y) → other.get y = other.get x

end Property

namespace RecordBinding

variable {r : RecordBinding σ} {input : Value} {b : Binding σ} {fs : List (FieldBinding σ)}
  {writes : List (Binding σ × Value)} {x y : σ}

/-! ## One write after the other -/

theorem written_of_accepts (accepts : ∀ w ∈ writes, w.1.property.Accepts w.2) (x : σ) :
    ∃ y, Written writes x y := by
  induction writes generalizing x with
  | nil => exact ⟨x, .nil⟩
  | cons w writes ih =>
    obtain ⟨first, others⟩ := List.forall_mem_cons.mp accepts
    obtain ⟨x', stored⟩ := first x
    obtain ⟨y, written⟩ := ih others x'
    exact ⟨y, .cons stored written⟩

theorem Written.get_eq {p : Property σ} (h : Written writes x y)
    (apart : ∀ w ∈ writes, w.1.property.Spares p) : p.get y = p.get x := by
  induction h with
  | nil => rfl
  | cons stored _ ih =>
    obtain ⟨first, others⟩ := List.forall_mem_cons.mp apart
    rw [ih others, first stored]

theorem Written.reads (h : Written writes x y)
    (apart : writes.Pairwise fun earlier later => later.1.property.Spares earlier.1.property)
    (back : ∀ w ∈ writes, w.1.property.ReadsBack w.2) : ∀ w ∈ writes, w.1.property.get y = w.2 := by
  induction h with
  | nil => intro w mem; cases mem
  | @cons b v writes x x' y stored written ih =>
    obtain ⟨spared, apart⟩ := List.pairwise_cons.mp apart
    obtain ⟨first, others⟩ := List.forall_mem_cons.mp back
    have kept : b.property.get y = b.property.get x' := written.get_eq spared
    have read : b.property.get x' = v := first stored
    exact List.forall_mem_cons.mpr ⟨kept.trans read, ih apart others⟩

/-! ## The writes of a plan -/

theorem Planned.field_of_mem (h : r.Planned input fs writes) {v : Value} (mem : (b, v) ∈ writes) :
    ∃ f ∈ fs, f.binding = some b ∧ r.Resolves input f b v := by
  obtain ⟨done, later, rfl⟩ := List.append_of_mem mem
  obtain ⟨before, f, after, rfl, bound, -, resolves, -⟩ := h.split
  exact ⟨f, List.mem_append_cons_self, bound, resolves⟩

theorem Planned.write_of_mem (h : r.Planned input fs writes) {f : FieldBinding σ} (mem : f ∈ fs)
    (bound : f.binding = some b) : ∃ v, (b, v) ∈ writes ∧ r.Resolves input f b v := by
  induction h with
  | nil => cases mem
  | unbound none _ ih =>
    rcases List.mem_cons.mp mem with rfl | mem
    · rw [bound] at none
      cases none
    · exact ih mem
  | bound first resolves _ ih =>
    rcases List.mem_cons.mp mem with rfl | mem
    · obtain rfl := Option.some.inj (bound.symm.trans first)
      exact ⟨_, List.mem_cons_self, resolves⟩
    · obtain ⟨v, mem, resolves⟩ := ih mem
      exact ⟨v, List.mem_cons_of_mem _ mem, resolves⟩

theorem populate_stuck {value : Value} {f : FieldBinding σ} (given : r.recordInput value = .ok input)
    (mem : f ∈ r.fields) (bound : f.binding = some b) (stuck : ∀ v, ¬ r.Resolves input f b v)
    (x : σ) : ∃ e, (r.populate value).run.run x = (.error e, x) := by
  rw [populate_run]
  cases resolved : r.resolve value with
  | error e => exact ⟨e, rfl⟩
  | ok writes =>
    obtain ⟨input', given', plan⟩ := Result.bind_eq_ok.mp resolved
    obtain rfl := Except.ok.inj (given.symm.trans given')
    obtain ⟨v, -, resolves⟩ := (planned_of_resolveFields plan).write_of_mem mem bound
    exact absurd resolves (stuck v)

theorem Planned.bindings (h : r.Planned input fs writes) :
    writes.map (·.1) = fs.filterMap (·.binding) := by
  induction h with
  | nil => rfl
  | unbound none _ ih => rw [List.filterMap_cons, none, ih]
  | bound some _ _ ih => rw [List.filterMap_cons, some, List.map_cons, ih]

/-! ## Whole records -/

/-- What the property of one field stores does not change what that of another field reads. -/
def Independent (r : RecordBinding σ) : Prop :=
  (r.fields.filterMap (·.binding)).Pairwise fun b c =>
    b.property.Spares c.property ∧ c.property.Spares b.property

theorem Planned.reads (planned : r.Planned input r.fields writes) (written : Written writes x y)
    (independent : r.Independent)
    (back : ∀ f ∈ r.fields, ∀ b v, f.binding = some b → r.Resolves input f b v →
      b.property.ReadsBack v)
    {f : FieldBinding σ} (mem : f ∈ r.fields) (bound : f.binding = some b) :
    r.Resolves input f b (b.property.get y) := by
  have apart : writes.Pairwise fun earlier later =>
      later.1.property.Spares earlier.1.property := by
    unfold Independent at independent
    rw [← planned.bindings, List.pairwise_map] at independent
    exact independent.imp And.right
  have reads := written.reads apart fun w mem => by
    obtain ⟨g, memG, boundG, resolves⟩ := planned.field_of_mem mem
    exact back g memG _ _ boundG resolves
  obtain ⟨v, mem, resolves⟩ := planned.write_of_mem mem bound
  have read : b.property.get y = v := reads _ mem
  rw [read]
  exact resolves

end RecordBinding

end SchemaBinding
