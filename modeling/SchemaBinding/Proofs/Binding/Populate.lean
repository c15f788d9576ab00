import SchemaBinding.Proofs.Binding.Completeness
import SchemaBinding.Proofs.Binding.Resolve

/-!
# Populating an object

Nothing is written before all fields are resolved.
-/

namespace SchemaBinding

/-- A setter that refuses a value stores nothing. -/
def Property.RejectsCleanly {σ : Type} (p : Property σ) : Prop :=
  ∀ ⦃v : Value⦄ ⦃x : σ⦄ ⦃cause : ValueError⦄ ⦃y : σ⦄,
    (p.set v).run.run x = (.error cause, y) → y = x

namespace RecordBinding

variable {σ : Type} {r : RecordBinding σ} {input : Value} {b : Binding σ}

/-! ## The writes -/

/-- All writes succeed, one after the other, and take the object from one state to another. -/
inductive Written : List (Binding σ × Value) → σ → σ → Prop
  | nil {x : σ} : Written [] x x
  | cons {b : Binding σ} {v : Value} {writes : List (Binding σ × Value)} {x x' y : σ}
      (first : (b.property.set v).run.run x = (.ok (), x')) (rest : Written writes x' y) :
      Written ((b, v) :: writes) x y

theorem writeAll_cons (b : Binding σ) (v : Value) (writes : List (Binding σ × Value)) (x : σ) :
    (writeAll ((b, v) :: writes)).run.run x =
      match (b.property.set v).run.run x with
      | (.ok _, x') => (writeAll writes).run.run x'
      | (.error cause, x') =>
        (.error (.field b.property.name (.write b.property.name b.property.declaring cause)),
          x') := by
  rw [writeAll, Binding.write, Step.run_bind, Step.run_adapt, Step.run_adapt]
  obtain ⟨result, x'⟩ := (b.property.set v).run.run x
  cases result <;> rfl

theorem writeAll_eq_ok {writes : List (Binding σ × Value)} {x y : σ} :
    (writeAll writes).run.run x = (.ok (), y) ↔ Written writes x y := by
  induction writes generalizing x with
  | nil =>
    constructor
    · intro h
      cases h
      exact .nil
    · intro h
      cases h
      rfl
  | cons write writes ih =>
    rw [writeAll_cons]
    constructor
    · intro h
      split at h
      · next first => exact .cons first (ih.mp h)
      · cases h
    · intro h
      cases h with
      | cons first rest =>
        rw [first]
        exact ih.mpr rest

theorem writeAll_eq_error {writes : List (Binding σ × Value)} {x y : σ} {e : BindingError}
    (h : (writeAll writes).run.run x = (.error e, y)) :
    ∃ done b v later x' cause, writes = done ++ (b, v) :: later ∧ Written done x x' ∧
      (b.property.set v).run.run x' = (.error cause, y) ∧
      e = .field b.property.name (.write b.property.name b.property.declaring cause) := by
  induction writes generalizing x with
  | nil => cases h
  | cons write writes ih =>
    obtain ⟨b, v⟩ := write
    rw [writeAll_cons] at h
    split at h
    · next first =>
      obtain ⟨done, b', v', later, x', cause, rfl, written, refused, rfl⟩ := ih h
      exact ⟨(b, v) :: done, b', v', later, x', cause, rfl, .cons first written, refused, rfl⟩
    · next cause x' refused =>
      cases h
      exact ⟨[], b, v, writes, x, cause, rfl, .nil, refused, rfl⟩

/-! ## Populating -/

theorem recordInput_eq_error {r : RecordBinding σ} {value : Value} {e : BindingError}
    (h : r.recordInput value = .error e) : ∃ found, e = .notARecord r.record found := by
  unfold recordInput at h
  dsimp only at h
  split at h
  · cases h
  · cases h
    exact ⟨_, rfl⟩

theorem populate_run (r : RecordBinding σ) (value : Value) (x : σ) :
    (r.populate value).run.run x =
      match r.resolve value with
      | .ok writes => (writeAll writes).run.run x
      | .error e => (.error e, x) := by
  have resolved : (liftM (r.resolve value) : Step BindingError σ _).run.run x =
      (r.resolve value, x) := Step.run_lift _ _
  change ((liftM (r.resolve value) : Step BindingError σ _) >>= writeAll).run.run x = _
  rw [Step.run_bind, resolved]
  cases r.resolve value <;> rfl

theorem bind_names {schema : RecordSchema} {properties : PropertySet σ} {registry : Registry}
    {config : BindingConfig} {r : RecordBinding σ}
    (h : bind schema properties registry config = .ok r)
    {f : FieldBinding σ} (mem : f ∈ r.fields) {b : Binding σ} (bound : f.binding = some b) :
    b.property.name = f.field.name.text := by
  obtain ⟨field, -, enters⟩ := enters_of_bind h mem
  rw [enters.own]
  exact enters.name bound

/-- A setter refuses the value, after the setters of the fields before it have stored theirs. -/
inductive Refusal (r : RecordBinding σ) (input : Value) (f : FieldBinding σ) (b : Binding σ)
    (done : List (Binding σ × Value)) (x y : σ) : BindingError → Prop
  | mk {before after : List (FieldBinding σ)} {v : Value} {later : List (Binding σ × Value)}
      {x' : σ} {cause : ValueError} (split : r.fields = before ++ f :: after)
      (bound : f.binding = some b) (resolved : r.Planned input before done)
      (resolves : r.Resolves input f b v) (planned : r.Planned input after later)
      (written : Written done x x') (refused : (b.property.set v).run.run x' = (.error cause, y)) :
      Refusal r input f b done x y
        (.field b.property.name (.write b.property.name b.property.declaring cause))

theorem Refusal.written_of_rejectsCleanly {f : FieldBinding σ}
    {done : List (Binding σ × Value)} {x y : σ} {e : BindingError}
    (h : r.Refusal input f b done x y e) (clean : b.property.RejectsCleanly) :
    Written done x y := by
  obtain ⟨-, -, -, -, -, written, refused⟩ := h
  rw [clean refused]
  exact written

theorem Refusal.mem {f : FieldBinding σ} {done : List (Binding σ × Value)} {x y : σ}
    {e : BindingError} (h : r.Refusal input f b done x y e) : f ∈ r.fields := by
  obtain ⟨split, -, -, -, -, -, -⟩ := h
  rw [split]
  exact List.mem_append_cons_self

theorem Refusal.isBound {f : FieldBinding σ} {done : List (Binding σ × Value)} {x y : σ}
    {e : BindingError} (h : r.Refusal input f b done x y e) : f.binding = some b := by
  obtain ⟨-, bound, -, -, -, -, -⟩ := h
  exact bound

theorem populate_eq_error {value : Value} {x y : σ} {e : BindingError}
    (h : (r.populate value).run.run x = (.error e, y)) :
    (¬ e.IsWrite ∧ y = x ∧ ((∃ found, e = .notARecord r.record found) ∨
      ∃ input, r.recordInput value = .ok input ∧ r.FirstFault input r.fields e)) ∨
    (e.IsWrite ∧ ∃ input f b done, r.recordInput value = .ok input ∧
      r.Refusal input f b done x y e) := by
  rw [populate_run] at h
  cases resolved : r.resolve value with
  | error cause =>
    rw [resolved] at h
    cases h
    left
    rcases Result.bind_eq_error.mp resolved with hi | ⟨input, hi, hf⟩
    · obtain ⟨found, rfl⟩ := recordInput_eq_error hi
      exact ⟨nofun, rfl, .inl ⟨found, rfl⟩⟩
    · have first := firstFault_of_resolveFields hf
      exact ⟨first.not_write, rfl, .inr ⟨input, hi, first⟩⟩
  | ok writes =>
    rw [resolved] at h
    right
    obtain ⟨input, hi, hf⟩ := Result.bind_eq_ok.mp resolved
    obtain ⟨done, b, v, later, x', cause, rfl, written, refused, rfl⟩ := writeAll_eq_error h
    obtain ⟨before, f, after, split, bound, resolved, resolves, planned⟩ :=
      (planned_of_resolveFields hf).split
    exact ⟨⟨_, _, _, _, rfl⟩, input, f, b, done, hi,
      .mk split bound resolved resolves planned written refused⟩

theorem populate_eq_ok {value : Value} {x y : σ} :
    (r.populate value).run.run x = (.ok (), y) ↔
      ∃ input writes, r.recordInput value = .ok input ∧ r.Planned input r.fields writes ∧
        Written writes x y := by
  rw [populate_run]
  constructor
  · intro h
    cases resolved : r.resolve value with
    | error cause =>
      rw [resolved] at h
      cases h
    | ok writes =>
      rw [resolved] at h
      obtain ⟨input, hi, hf⟩ := Result.bind_eq_ok.mp resolved
      exact ⟨input, writes, hi, planned_of_resolveFields hf, writeAll_eq_ok.mp h⟩
  · rintro ⟨input, writes, hi, planned, written⟩
    have resolved : r.resolve value = .ok writes :=
      Result.bind_eq_ok.mpr ⟨input, hi, resolveFields_of_planned planned⟩
    rw [resolved]
    exact writeAll_eq_ok.mpr written

/--
An error that no setter raised leaves the object alone and is that of the earliest field to fail a
check. If a setter refuses, all fields had passed, and only the fields before it were written.
-/
theorem populate_atomic (r : RecordBinding σ) (value : Value) (x y : σ) :
    (∀ e, (r.populate value).run.run x = (.error e, y) →
      (¬ e.IsWrite → y = x ∧ ((∃ found, e = .notARecord r.record found) ∨
        ∃ input, r.recordInput value = .ok input ∧ r.FirstFault input r.fields e)) ∧
      (e.IsWrite → ∃ input f b done, r.recordInput value = .ok input ∧
        r.Refusal input f b done x y e ∧ (b.property.RejectsCleanly → Written done x y) ∧
        ∀ schema properties registry config, bind schema properties registry config = .ok r →
          b.property.name = f.field.name.text)) ∧
    ((r.populate value).run.run x = (.ok (), y) ↔
      ∃ input writes, r.recordInput value = .ok input ∧ r.Planned input r.fields writes ∧
        Written writes x y) := by
  refine ⟨fun e h => ?_, populate_eq_ok⟩
  rcases populate_eq_error h with ⟨check, same, cause⟩ | ⟨write, input, f, b, done, hi, refusal⟩
  · exact ⟨fun _ => ⟨same, cause⟩, fun write => absurd write check⟩
  · refine ⟨fun check => absurd write check, fun _ => ⟨input, f, b, done, hi, refusal, ?_, ?_⟩⟩
    · exact refusal.written_of_rejectsCleanly
    · intro schema properties registry config made
      exact bind_names made refusal.mem refusal.isBound

/-! ### A range of numbers -/

namespace Range

def low : Property (Int64 × Int64) where
  name := "low"
  declaring := "Range"
  shape := .int64
  get := fun range => .long range.1
  setter := some fun
    | .long n => modify fun range => (n, range.2)
    | other => throw (.typeMismatch (.primitive .long) other.kind)

def raise (n : Int64) : Step ValueError (Int64 × Int64) Unit := do
  let range ← get
  if n < range.1 then throw (.outOfRange "below the lower end") else set (range.1, n)

def high : Property (Int64 × Int64) where
  name := "high"
  declaring := "Range"
  shape := .int64
  get := fun range => .long range.2
  setter := some fun
    | .long n => raise n
    | other => throw (.typeMismatch (.primitive .long) other.kind)

def schema : RecordSchema where
  name := "Range"
  fields := [{ name := ⟨"low", by decide⟩, type := .primitive .long },
    { name := ⟨"high", by decide⟩, type := .primitive .long, default := some (.num (.ofUInt64 9)) }]

def binding : RecordBinding (Int64 × Int64) where
  record := "Range"
  fields := List.zipWith (fun field property => ⟨field, some ⟨property, .primitive .long, none⟩⟩)
    schema.fields [low, high]
  types := schema.definitions
  config := {}

theorem bind_schema : bind schema ⟨"Range", [low, high]⟩ .empty {} = .ok binding := rfl

theorem low_rejectsCleanly : low.RejectsCleanly := by
  intro v x cause y refused
  cases v <;> cases refused <;> rfl

theorem high_rejectsCleanly : high.RejectsCleanly := by
  intro v x cause y refused
  cases v with
  | long n =>
    change (raise n).run.run x = _ at refused
    rw [raise, Step.run_get_bind] at refused
    split at refused
    · cases refused
      rfl
    · cases refused
  | _ => cases refused; rfl

theorem binding_rejectsCleanly {f : FieldBinding (Int64 × Int64)} {b : Binding (Int64 × Int64)}
    (mem : f ∈ binding.fields) (bound : f.binding = some b) : b.property.RejectsCleanly := by
  rcases List.mem_cons.mp mem with rfl | mem
  · cases bound
    exact low_rejectsCleanly
  · rcases List.mem_singleton.mp mem with rfl
    cases bound
    exact high_rejectsCleanly

end Range

theorem populate_range :
    ((Range.binding.populate (.record [("high", .long 5)])).run.run (3, 7) =
        (.error (.missingValue "low"), (3, 7)) ∧
      ∃ input, Range.binding.recordInput (.record [("high", .long 5)]) = .ok input ∧
        Range.binding.FirstFault input Range.binding.fields (.missingValue "low")) ∧
    (Range.binding.populate (.record [("low", .long 20)])).run.run (3, 7) =
        (.error (.field "high" (.write "high" "Range" (.outOfRange "below the lower end"))),
          (20, 7)) ∧
      ∃ input f b done, Range.binding.recordInput (.record [("low", .long 20)]) = .ok input ∧
        Range.binding.Refusal input f b done (3, 7) (20, 7)
          (.field "high" (.write "high" "Range" (.outOfRange "below the lower end"))) ∧
        Written done (3, 7) (20, 7) ∧ b.property.name = f.field.name.text := by
  have early : (Range.binding.populate (.record [("high", .long 5)])).run.run (3, 7) =
      (.error (.missingValue "low"), (3, 7)) := rfl
  have late : (Range.binding.populate (.record [("low", .long 20)])).run.run (3, 7) =
      (.error (.field "high" (.write "high" "Range" (.outOfRange "below the lower end"))),
        (20, 7)) := rfl
  have check : ¬ (BindingError.missingValue "low").IsWrite := by
    rintro ⟨_, _, _, _, other⟩
    cases other
  refine ⟨⟨early, ?_⟩, late, ?_⟩
  · obtain ⟨-, ⟨_, other⟩ | first⟩ := ((populate_atomic ..).1 _ early).1 check
    · cases other
    · exact first
  · obtain ⟨input, f, b, done, hi, refusal, written, named⟩ :=
      ((populate_atomic ..).1 _ late).2 ⟨_, _, _, _, rfl⟩
    have clean := Range.binding_rejectsCleanly refusal.mem refusal.isBound
    exact ⟨input, f, b, done, hi, refusal, written clean, named _ _ _ _ Range.bind_schema⟩

/-! ## Fields filled from their default -/

theorem Supplies.given_of_not_conforms {r : RecordBinding σ} {input value : Value}
    {f : FieldBinding σ} (definitions : r.types.Everywhere Schema.FieldsDistinct)
    (distinct : f.field.type.Everywhere Schema.FieldsDistinct) (h : r.Supplies input f value)
    (fails : value.conforms f.field.type r.types = false) :
    input.field? f.field.name.text = some value := by
  cases h with
  | given h => exact h
  | default absent has read =>
    have conforms := Value.ofJson_conforms definitions distinct read
    rw [conforms] at fails
    cases fails

theorem FirstFault.given_of_nonConforming {r : RecordBinding σ} {input : Value}
    {field name : String} {kind found : Kind}
    (definitions : r.types.Everywhere Schema.FieldsDistinct)
    (distinct : ∀ f ∈ r.fields, f.field.type.Everywhere Schema.FieldsDistinct)
    (h : r.FirstFault input r.fields (.field field (.nonConforming name kind found))) :
    ∃ f given, f ∈ r.fields ∧ f.field.name.text = field ∧ input.field? field = some given ∧
      given.conforms f.field.type r.types = false := by
  obtain ⟨split, -, bound, fault⟩ := h
  cases fault with
  | @nonConforming given supplied fails =>
    have mem := split ▸ List.mem_append_cons_self
    exact ⟨_, given, mem, rfl,
      supplied.given_of_not_conforms definitions (distinct _ mem) fails, fails⟩

/--
A document that is read as a value of a schema conforms to the schema. So whenever a field does not
conform, the input gave its value.
-/
theorem default_conforms (types : Definitions)
    (definitions : types.Everywhere Schema.FieldsDistinct) :
    (∀ document s value, s.Everywhere Schema.FieldsDistinct →
      Value.ofJson document s types = .ok value → value.conforms s types = true) ∧
    ∀ (r : RecordBinding σ) (value : Value) (x y : σ) (field name : String) (kind found : Kind),
      r.types = types → (∀ f ∈ r.fields, f.field.type.Everywhere Schema.FieldsDistinct) →
      (r.populate value).run.run x = (.error (.field field (.nonConforming name kind found)), y) →
      ∃ input f given, r.recordInput value = .ok input ∧ f ∈ r.fields ∧ f.field.name.text = field ∧
        input.field? field = some given ∧ given.conforms f.field.type types = false := by
  refine ⟨fun _ _ _ distinct read => Value.ofJson_conforms definitions distinct read, ?_⟩
  rintro r value x y field name kind found rfl distinct h
  rcases populate_eq_error h with ⟨-, -, ⟨_, other⟩ | ⟨input, hi, first⟩⟩ | ⟨write, -⟩
  · cases other
  · obtain ⟨f, given, fails⟩ := first.given_of_nonConforming definitions distinct
    exact ⟨input, f, given, hi, fails⟩
  · obtain ⟨_, _, _, _, other⟩ := write
    cases other

namespace Chain

/-- Links with a length of one unless they say otherwise, each with a link after it or without. -/
def types : Definitions := ⟨[("Link", .record .record
  { name := "Link"
    fields := [{ name := ⟨"length", by decide⟩, type := .primitive .long
                 default := some (.num (.ofUInt64 1)) },
      { name := ⟨"next", by decide⟩
        type := .union [.primitive .null, .reference "Link" .record]
        default := some .null }] })]⟩

def links : Schema := .union [.array (.reference "Link" .record), .primitive .null]

def document : Json := .arr [.obj [], .obj [("length", .num (.ofUInt64 3))]]

def value : Value :=
  .union 0 (.array [.record [("length", .long 1), ("next", .union 0 .null)],
    .record [("length", .long 3), ("next", .union 0 .null)]])

theorem types_distinct : types.Everywhere Schema.FieldsDistinct :=
  Definitions.everywhere_of_entries (by decide)

theorem links_distinct : links.Everywhere Schema.FieldsDistinct := by decide

def binding : RecordBinding Value where
  record := "Chain"
  fields := [⟨{ name := ⟨"links", by decide⟩, type := links, default := some document }, some
    { property :=
        { name := "links"
          declaring := "Chain"
          shape := .list (.object "Link")
          get := id
          setter := some fun value => set value }
      kind := .union
      converter := none }⟩]
  types := types
  config := {}

end Chain

theorem default_conforms_chain :
    Value.ofJson Chain.document Chain.links Chain.types = .ok Chain.value ∧
    Chain.value.conforms Chain.links Chain.types = true ∧
    ∃ input f given, Chain.binding.recordInput (.record [("links", .long 1)]) = .ok input ∧
      f ∈ Chain.binding.fields ∧ f.field.name.text = "links" ∧
      input.field? "links" = some given ∧ given.conforms f.field.type Chain.types = false := by
  have read : Value.ofJson Chain.document Chain.links Chain.types = .ok Chain.value := rfl
  have fails : (Chain.binding.populate (.record [("links", .long 1)])).run.run .null =
      (.error (.field "links" (.nonConforming "links" .union (.primitive .long))), .null) := rfl
  have distinct : ∀ f ∈ Chain.binding.fields, f.field.type.Everywhere Schema.FieldsDistinct := by
    intro f mem
    rcases List.mem_singleton.mp mem with rfl
    exact Chain.links_distinct
  obtain ⟨conforms, given⟩ := default_conforms (σ := Value) Chain.types Chain.types_distinct
  exact ⟨read, conforms _ _ _ Chain.links_distinct read,
    given Chain.binding _ _ _ _ _ _ _ rfl distinct fails⟩

end RecordBinding

end SchemaBinding
