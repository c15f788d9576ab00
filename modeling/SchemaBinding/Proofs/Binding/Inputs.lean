import SchemaBinding.Proofs.Binding.Populate

/-!
# What populating sees of its input

A record is seen through the values that it gives the bound fields and nothing else.
-/

namespace SchemaBinding

/-! ## Entries of a record -/

namespace Value

variable {entries entries' before after : List (String × Value)} {name n : String} {v : Value}

theorem field?_perm (distinct : (entries.map (·.1)).Nodup) (perm : entries'.Perm entries) :
    (record entries').field? name = (record entries).field? name := by
  have distinct' : (entries'.map (·.1)).Nodup := (perm.map _).nodup_iff.mpr distinct
  ext v
  change entries'.lookup name = some v ↔ entries.lookup name = some v
  rw [lookup_eq_some distinct', lookup_eq_some distinct, perm.mem_iff]

theorem field?_insert :
    (record (before ++ (name, v) :: after)).field? n =
      if n = name then (before.lookup n).or (some v) else (record (before ++ after)).field? n := by
  unfold field?
  simp only [List.lookup_append]
  split
  · next same => rw [same, List.lookup_cons_self]
  · next other => rw [List.lookup_cons, beq_false_of_ne other]

end Value

namespace RecordBinding

variable {σ : Type} {r : RecordBinding σ} {f : FieldBinding σ} {fs : List (FieldBinding σ)}
  {input other brief full : Value}

/-! ## Inputs that say the same -/

/-- The one input leaves a field to its default, and the other spells that default out. -/
structure SpellsOut (r : RecordBinding σ) (f : FieldBinding σ) (brief full : Value) : Prop where
  absent : brief.field? f.field.name.text = none
  given : ∃ value, f.defaultValue r.types = .ok value ∧
    full.field? f.field.name.text = some value

/-- Two inputs hold the same for a field, but for a default that one of them may spell out. -/
def SaysSame (r : RecordBinding σ) (f : FieldBinding σ) (input other : Value) : Prop :=
  input.field? f.field.name.text = other.field? f.field.name.text ∨
    r.SpellsOut f input other ∨ r.SpellsOut f other input

theorem SpellsOut.supply (h : r.SpellsOut f brief full) : r.supply brief f = r.supply full f := by
  obtain ⟨value, default, given⟩ := h.given
  unfold RecordBinding.supply
  rw [h.absent, given]
  exact default

theorem SaysSame.supply (h : r.SaysSame f input other) : r.supply input f = r.supply other f := by
  rcases h with same | spelled | left
  · unfold RecordBinding.supply
    rw [same]
  · exact spelled.supply
  · exact left.supply.symm

/-! ## Both phases -/

theorem resolveFields_congr
    (same : ∀ f ∈ fs, f.binding ≠ none → r.supply input f = r.supply other f) :
    r.resolveFields input fs = r.resolveFields other fs := by
  induction fs with
  | nil => rfl
  | cons f fs ih =>
    obtain ⟨own, others⟩ := List.forall_mem_cons.mp same
    unfold resolveFields
    split
    · exact ih others
    · next b bound =>
      rw [resolveField_eq, resolveField_eq, own (by simp [bound]), ih others]

theorem populate_congr {entries entries' : List (String × Value)}
    (same : ∀ f ∈ r.fields, f.binding ≠ none →
      r.SaysSame f (.record entries) (.record entries')) :
    r.populate (.record entries) = r.populate (.record entries') := by
  have plans : r.resolve (.record entries) = r.resolve (.record entries') :=
    resolveFields_congr fun f mem bound => (same f mem bound).supply
  unfold populate
  rw [plans]

/--
Records that say the same of all bound fields populate every object in the same way, errors and what
they leave behind included. So the order of the entries has no effect, as their names are distinct,
nor has an entry that no bound field asks for, nor one that spells out a default.
-/
theorem populate_sees_bound (r : RecordBinding σ) :
    (∀ entries entries',
      (∀ f ∈ r.fields, f.binding ≠ none → r.SaysSame f (.record entries) (.record entries')) →
        r.populate (.record entries) = r.populate (.record entries')) ∧
    (∀ entries entries', (entries.map (·.1)).Nodup → entries'.Perm entries →
      r.populate (.record entries') = r.populate (.record entries)) ∧
    (∀ before name v after,
      (∀ f ∈ r.fields, f.binding ≠ none → f.field.name.text ≠ name) →
        r.populate (.record (before ++ (name, v) :: after)) =
          r.populate (.record (before ++ after))) ∧
    ∀ before name v after, (before ++ after).lookup name = none →
      (∀ f ∈ r.fields, f.binding ≠ none → f.field.name.text = name →
        f.defaultValue r.types = .ok v) →
      r.populate (.record (before ++ (name, v) :: after)) =
        r.populate (.record (before ++ after)) := by
  refine ⟨fun entries entries' => populate_congr, ?_, ?_, ?_⟩
  · intro entries entries' distinct perm
    exact populate_congr fun f _ _ => .inl (Value.field?_perm distinct perm)
  · intro before name v after unasked
    refine populate_congr fun f mem bound => .inl ?_
    rw [Value.field?_insert, if_neg (unasked f mem bound)]
  · intro before name v after absent default
    refine populate_congr fun f mem bound => ?_
    by_cases own : f.field.name.text = name
    · -- The field sees the new entry, since no other one has its name.
      have earlier : before.lookup f.field.name.text = none := by
        rw [own]
        rw [List.lookup_append, Option.or_eq_none_iff] at absent
        exact absent.1
      have shown : (Value.record (before ++ (name, v) :: after)).field? f.field.name.text =
          some v := by
        rw [Value.field?_insert, if_pos own, earlier, Option.none_or]
      exact .inr (.inr ⟨by rw [own]; exact absent, v, default f mem bound own, shown⟩)
    · refine .inl ?_
      rw [Value.field?_insert, if_neg own]

theorem populate_sees_bound_range :
    Range.binding.populate (.record [("note", .null), ("high", .long 9), ("low", .long 2)]) =
        Range.binding.populate (.record [("low", .long 2)]) ∧
      Range.binding.populate (.record [("high", .long 5), ("low", .long 12)]) =
        Range.binding.populate (.record [("low", .long 12), ("high", .long 5)]) := by
  obtain ⟨-, order, extra, spelled⟩ := populate_sees_bound Range.binding
  have unasked : ∀ f ∈ Range.binding.fields, f.field.name.text ≠ "note" := by decide
  have default : ∀ f ∈ Range.binding.fields, f.field.name.text = "high" →
      f.defaultValue Range.binding.types = .ok (.long 9) := by
    intro f mem own
    rcases List.mem_cons.mp mem with rfl | mem
    · exact absurd own (by decide)
    · rcases List.mem_singleton.mp mem with rfl
      rfl
  constructor
  · calc
      _ = Range.binding.populate (.record [("high", .long 9), ("low", .long 2)]) :=
        extra [] "note" .null _ fun f mem _ => unasked f mem
      _ = _ := spelled [] "high" (.long 9) [("low", .long 2)] rfl fun f mem _ => default f mem
  · exact order _ _ (by decide) (.swap _ _ _)

end RecordBinding

end SchemaBinding
