import SchemaBinding.Proofs.Binding.Populate

/-!
# The kind of sequence does not show

Where there is room for the arrays, the kind that they are rebuilt as has no part in any result.
-/

namespace SchemaBinding

theorem Sequence.rebuild_kind (kind kind' : SequenceKind) (value : Value) :
    rebuild kind value = rebuild kind' value := by
  by_cases array : ∃ items, value = .array items
  · obtain ⟨items, rfl⟩ := array
    rw [rebuild_array, rebuild_array]
  · have other : ∀ items, value ≠ .array items := fun items h => array ⟨items, h⟩
    rw [rebuild_other kind other, rebuild_other kind' other]

namespace RecordBinding

variable {σ : Type} {memory : Memory} {r : RecordBinding σ} {kind : SequenceKind}
  {f : FieldBinding σ} {b : Binding σ} {input value : Value}

/-! ## Where a program stops -/

/-- A field gets as far as being rebuilt as an array. -/
def MakesArray (r : RecordBinding σ) (input : Value) (f : FieldBinding σ) : Prop :=
  f.field.type.kind = .array ∧ ∃ value, r.Supplies input f value ∧ r.Passes f value

/-- Some bound field is rebuilt as an array, once the fields before it are resolved. -/
inductive ReachesArray (r : RecordBinding σ) (input : Value) (fs : List (FieldBinding σ)) : Prop
  | mk {before : List (FieldBinding σ)} {f : FieldBinding σ} {after : List (FieldBinding σ)}
      {writes : List (Binding σ × Value)} {b : Binding σ} (split : fs = before ++ f :: after)
      (resolved : r.Planned input before writes) (bound : f.binding = some b)
      (makes : r.MakesArray input f)

/-- `check` in a memory. -/
def checkIn (memory : Memory) (r : RecordBinding σ) (f : FieldBinding σ) (b : Binding σ)
    (value : Value) : ExceptT BindingError Option Value :=
  let name := f.field.name.text
  if value.conforms f.field.type r.types then
    if f.field.type.kind = .array then do
      let rebuilt ← (Sequence.rebuildIn memory r.config.sequenceKind value).adapt fun e =>
        .field name (.sequence e)
      (b.fromSchema rebuilt).mapError (BindingError.field name)
    else liftM ((b.fromSchema value).mapError (BindingError.field name))
  else throw (.field name (.nonConforming name f.field.type.kind value.kind))

theorem resolveFieldIn_eq :
    r.resolveFieldIn memory input f b =
      (liftM (r.supply input f) : ExceptT BindingError Option Value) >>= r.checkIn memory f b := by
  unfold resolveFieldIn supply
  dsimp only
  cases input.field? f.field.name.text <;> rfl

theorem checkIn_of_goesOn
    (goesOn : r.config.sequenceKind.fits memory = true ∨
      ¬ (f.field.type.kind = .array ∧ r.Passes f value)) :
    (r.checkIn memory f b value).run = some (r.check f b value) := by
  unfold checkIn check
  dsimp only
  split
  · next conforms =>
    split
    · next array =>
      have rebuilt : (Sequence.rebuildIn memory r.config.sequenceKind value).run =
          some (Sequence.rebuild r.config.sequenceKind value) := by
        rcases goesOn with fits | fails
        · exact Sequence.rebuildIn_of_fits fits value
        · exact Sequence.rebuildIn_other fun items h =>
            fails ⟨array, conforms, fun _ => ⟨items, h⟩⟩
      refine Attempt.run_bind ?_ fun _ _ => Attempt.run_lift _
      rw [Attempt.run_adapt, rebuilt]
      rfl
    · exact Attempt.run_lift _
  · rfl

theorem checkIn_stops (fits : r.config.sequenceKind.fits memory = false)
    (array : f.field.type.kind = .array) (passes : r.Passes f value) :
    (r.checkIn memory f b value).run = none := by
  obtain ⟨items, rfl⟩ := passes.isArray array
  unfold checkIn
  dsimp only
  rw [if_pos passes.conforms, if_pos array]
  apply Attempt.run_bind_of_none
  rw [Attempt.run_adapt, Sequence.rebuildIn_array_of_not_fits fits]
  rfl

theorem resolveFieldIn_of_goesOn
    (goesOn : r.config.sequenceKind.fits memory = true ∨ ¬ r.MakesArray input f) :
    (r.resolveFieldIn memory input f b).run = some (r.resolveField input f b) := by
  rw [resolveFieldIn_eq, resolveField_eq]
  refine Attempt.run_bind (Attempt.run_lift _) fun value supplied => checkIn_of_goesOn ?_
  exact goesOn.imp_right fun never array =>
    never ⟨array.1, value, supply_eq_ok.mp supplied, array.2⟩

theorem resolveFieldIn_stops (fits : r.config.sequenceKind.fits memory = false)
    (makes : r.MakesArray input f) : (r.resolveFieldIn memory input f b).run = none := by
  obtain ⟨array, value, supplied, passes⟩ := makes
  have ran : (liftM (r.supply input f) : ExceptT BindingError Option Value).run =
      some (.ok value) := by
    rw [Attempt.run_lift, supply_eq_ok.mpr supplied]
  rw [resolveFieldIn_eq, Attempt.run_bind_of_ok ran]
  exact checkIn_stops fits array passes

theorem resolveFieldsIn_of_goesOn {fs : List (FieldBinding σ)}
    (goesOn : r.config.sequenceKind.fits memory = true ∨ ¬ r.ReachesArray input fs) :
    (r.resolveFieldsIn memory input fs).run = some (r.resolveFields input fs) := by
  induction fs with
  | nil => rfl
  | cons f fs ih =>
    unfold resolveFieldsIn resolveFields
    cases bound : f.binding with
    | none =>
      refine ih (goesOn.imp_right fun never reaches => never ?_)
      obtain ⟨rfl, resolved, bound', makes⟩ := reaches
      exact ⟨rfl, .unbound bound resolved, bound', makes⟩
    | some b =>
      have first : r.config.sequenceKind.fits memory = true ∨ ¬ r.MakesArray input f :=
        goesOn.imp_right fun never makes => never ⟨rfl, .nil, bound, makes⟩
      refine Attempt.run_bind (resolveFieldIn_of_goesOn first) fun value resolved => ?_
      refine Attempt.run_bind (ih (goesOn.imp_right fun never reaches => never ?_)) fun _ _ => rfl
      obtain ⟨rfl, resolved', bound', makes⟩ := reaches
      exact ⟨rfl, .bound bound (resolveField_eq_ok.mp resolved) resolved', bound', makes⟩

theorem resolveFieldsIn_stops {fs : List (FieldBinding σ)}
    (fits : r.config.sequenceKind.fits memory = false) (reaches : r.ReachesArray input fs) :
    (r.resolveFieldsIn memory input fs).run = none := by
  obtain ⟨rfl, resolved, bound, makes⟩ := reaches
  induction resolved with
  | nil =>
    rw [List.nil_append, resolveFieldsIn, bound]
    exact Attempt.run_bind_of_none (resolveFieldIn_stops fits makes)
  | unbound none rest ih =>
    rw [List.cons_append, resolveFieldsIn, none]
    exact ih
  | @bound g fs b value writes some resolves rest ih =>
    rw [List.cons_append, resolveFieldsIn, some]
    -- A field on the way may be an array itself. Then the program stops there already.
    by_cases earlier : r.MakesArray input g
    · exact Attempt.run_bind_of_none (resolveFieldIn_stops fits earlier)
    · have ran : (r.resolveFieldIn memory input g b).run = .some (.ok value) := by
        rw [resolveFieldIn_of_goesOn (.inr earlier), resolveField_eq_ok.mpr resolves]
      change (r.resolveFieldIn memory input g b >>= _).run = _
      rw [Attempt.run_bind_of_ok ran]
      exact Attempt.run_bind_of_none ih

theorem populateIn_of_goesOn
    (goesOn : r.config.sequenceKind.fits memory = true ∨
      ∀ input, r.recordInput value = .ok input → ¬ r.ReachesArray input r.fields) (x : σ) :
    r.populateIn memory value x = some ((r.populate value).run.run x) := by
  have resolved : (r.resolveIn memory value).run = some (r.resolve value) :=
    Attempt.run_bind (Attempt.run_lift _) fun input record =>
      resolveFieldsIn_of_goesOn (goesOn.imp_right fun never => never input record)
  unfold populateIn
  rw [resolved, populate_run]
  cases r.resolve value <;> rfl

/-- The program stops just where there is no room and an array is to be made. -/
theorem populateIn_eq_none {x : σ} :
    r.populateIn memory value x = none ↔
      r.config.sequenceKind.fits memory = false ∧
        ∃ input, r.recordInput value = .ok input ∧ r.ReachesArray input r.fields := by
  constructor
  · intro stops
    by_contra goesOn
    rw [not_and_or, Bool.not_eq_false] at goesOn
    have ran : r.populateIn memory value x = some ((r.populate value).run.run x) :=
      populateIn_of_goesOn (goesOn.imp_right fun never input record reaches =>
        never ⟨input, record, reaches⟩) x
    rw [stops] at ran
    cases ran
  · rintro ⟨fits, input, record, reaches⟩
    have ran : (liftM (r.recordInput value) : ExceptT BindingError Option Value).run =
        some (.ok input) := by
      rw [Attempt.run_lift, record]
    have stops : (r.resolveIn memory value).run = none := by
      change ((liftM (r.recordInput value) : ExceptT BindingError Option Value) >>= _).run = _
      rw [Attempt.run_bind_of_ok ran]
      exact resolveFieldsIn_stops fits reaches
    unfold populateIn
    rw [stops]
    rfl

/-! ## Making bindings -/

/-- The same binding of a record, told to rebuild arrays as another kind of sequence. -/
def withKind (r : RecordBinding σ) (kind : SequenceKind) : RecordBinding σ :=
  { r with config := { r.config with sequenceKind := kind } }

theorem bindSchema_withKind (schema : Schema) (properties : PropertySet σ) (registry : Registry)
    (config : BindingConfig) (kind : SequenceKind) :
    bindSchema schema properties registry { config with sequenceKind := kind } =
      (bindSchema schema properties registry config).map (·.withKind kind) := by
  cases schema with
  | record role body =>
    change bind body properties registry _ = (bind body properties registry config).map _
    have fields : bindField properties registry { config with sequenceKind := kind } =
        bindField properties registry config := rfl
    unfold bind
    rw [fields]
    dsimp only
    split <;> rfl
  | _ => rfl

/-! ## Using them -/

theorem check_withKind : (r.withKind kind).check f b value = r.check f b value := by
  unfold check
  rw [Sequence.rebuild_kind _ r.config.sequenceKind]
  rfl

theorem resolveField_withKind :
    (r.withKind kind).resolveField input f b = r.resolveField input f b := by
  have supply : (r.withKind kind).supply input f = r.supply input f := rfl
  have check : (r.withKind kind).check f b = r.check f b := funext fun _ => check_withKind
  rw [resolveField_eq, resolveField_eq, supply, check]

theorem resolveFields_withKind (fs : List (FieldBinding σ)) :
    (r.withKind kind).resolveFields input fs = r.resolveFields input fs := by
  induction fs with
  | nil => rfl
  | cons f fs ih =>
    unfold resolveFields
    rw [ih]
    split
    · rfl
    · rw [resolveField_withKind]

theorem resolve_withKind : (r.withKind kind).resolve value = r.resolve value := by
  have fields (input : Value) : (r.withKind kind).resolveFields input r.fields =
      r.resolveFields input r.fields := resolveFields_withKind r.fields
  change (r.recordInput value >>= fun input => (r.withKind kind).resolveFields input r.fields) = _
  simp only [fields]
  rfl

theorem populateIn_withKind (fits : kind.fits memory = true) (x : σ) :
    (r.withKind kind).populateIn memory value x = some ((r.populate value).run.run x) := by
  rw [populateIn_of_goesOn (.inl fits), populate_run, populate_run, resolve_withKind]

/-- Nobody who uses two bindings in a memory can tell them apart. -/
structure SameUse (memory : Memory) (r r' : RecordBinding σ) : Prop where
  /-- The same record is read out of an object, or the same error is given. -/
  extract : ∀ object, r.extract object = r'.extract object
  /-- Neither stops; the same result is given, and the object is left in the same state. -/
  populate : ∀ value object, ∃ outcome,
    r.populateIn memory value object = some outcome ∧
      r'.populateIn memory value object = some outcome
  events : ∀ value, r.populateEvents value = r'.populateEvents value

theorem sameUse_withKind {kind' : SequenceKind} (fits : kind.fits memory = true)
    (fits' : kind'.fits memory = true) : (r.withKind kind).SameUse memory (r.withKind kind') where
  extract _ := rfl
  populate _ object := ⟨_, populateIn_withKind fits object, populateIn_withKind fits' object⟩
  events value := by
    unfold populateEvents
    rw [resolve_withKind, resolve_withKind]
    rfl

/--
In a memory with room for two kinds of sequences, an array is rebuilt as the array of the same
items. So two configurations that differ in the kind alone bind the same schemas, fail to bind the
others with the same error, and give bindings that read and write every object in the same way,
errors included.
-/
theorem sequenceKind_unseen (memory : Memory) (kind kind' : SequenceKind)
    (fits : kind.fits memory = true) (fits' : kind'.fits memory = true) :
    (∀ items, (Sequence.rebuildIn memory kind (.array items)).run = some (.ok (.array items))) ∧
    ∀ (schema : Schema) (properties : PropertySet σ) (registry : Registry) (config : BindingConfig),
      match bindSchema schema properties registry { config with sequenceKind := kind },
        bindSchema schema properties registry { config with sequenceKind := kind' } with
      | .ok r, .ok r' => r.SameUse memory r'
      | .error e, .error e' => e = e'
      | _, _ => False := by
  constructor
  · intro items
    rw [Sequence.rebuildIn_of_fits fits, Sequence.rebuild_array]
  · intro schema properties registry config
    rw [bindSchema_withKind _ _ _ config kind, bindSchema_withKind _ _ _ config kind']
    cases bindSchema schema properties registry config with
    | ok r => exact sameUse_withKind fits fits'
    | error e => rfl

namespace Trunk

def schema : Schema := .record .record
  { name := "Trunk"
    fields := [{ name := ⟨"layers", by decide⟩, type := .array (.primitive .int) }] }

/-- The object is what its one property holds. -/
def properties : PropertySet Value := .ofList "Trunk"
  [{ name := "layers", declaring := "Trunk", shape := .list .int32, get := id, setter := some set }]

/-- Room for as many values as 47 bits can address, at 32 bytes each. -/
def machine : Memory := ⟨0x40000000000, by decide⟩

def layers : Value := .array [.int 3, .int 5]

/-- What comes of giving its layers to a trunk without any. -/
def grown (memory : Memory) (kind : SequenceKind) :
    Except BindingError (Option (Except BindingError Unit × Value)) := do
  let r ← bindSchema schema properties .empty { sequenceKind := kind }
  return r.populateIn memory (.record [("layers", layers)]) (.array [])

end Trunk

theorem sequenceKind_unseen_trunk :
    (Sequence.rebuildIn Trunk.machine (.preallocated 1000) Trunk.layers).run =
      some (.ok Trunk.layers) ∧
    ∃ r r', bindSchema Trunk.schema Trunk.properties .empty
        { sequenceKind := .preallocated 1000 } = .ok r ∧
      bindSchema Trunk.schema Trunk.properties .empty { sequenceKind := .list } = .ok r' ∧
      r.SameUse Trunk.machine r' := by
  obtain ⟨rebuilt, same⟩ :=
    sequenceKind_unseen Trunk.machine (.preallocated 1000) .list (by decide) (by decide)
  exact ⟨rebuilt _, _, _, rfl, rfl, same Trunk.schema Trunk.properties .empty {}⟩

/-- A capacity for which there is no room shows, and the largest one shows in every memory. -/
theorem sequenceKind_seen_trunk :
    Trunk.grown Trunk.machine .list = .ok (some (.ok (), Trunk.layers)) ∧
    Trunk.grown Trunk.machine (.preallocated 0x200000000000000) = .ok none ∧
    ∀ memory, Trunk.grown memory .list = .ok (some (.ok (), Trunk.layers)) ∧
      Trunk.grown memory (.preallocated 0xFFFFFFFFFFFFFFFF) = .ok none := by
  refine ⟨rfl, rfl, fun memory => ⟨rfl, ?_⟩⟩
  have fits : (SequenceKind.preallocated 0xFFFFFFFFFFFFFFFF).fits memory = false := by
    have bounded := memory.bounded
    rw [SequenceKind.fits, decide_eq_false_iff_not]
    omega
  refine congrArg Except.ok (populateIn_eq_none.mpr ⟨fits, _, rfl, ?_⟩)
  exact ⟨(List.nil_append _).symm, .nil, rfl, rfl, _, .given rfl, rfl, fun _ => ⟨_, rfl⟩⟩

end RecordBinding

end SchemaBinding
