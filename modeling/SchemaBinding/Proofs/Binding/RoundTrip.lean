import SchemaBinding.Proofs.Binding.Extract
import SchemaBinding.Proofs.Binding.Writes
import SchemaBinding.Proofs.Value.Access

/-!
# Out of an object and into another

What is extracted from one object goes into another, and what was written into one is extracted
again.
-/

namespace SchemaBinding

variable {σ : Type}

/-- The type of a field of a sequence kind is the type of a sequence, and no reference to one. -/
structure Field.SequenceTyped (field : Field) : Prop where
  array : field.type.kind = .array → ∃ items, field.type = .array items
  map : field.type.kind = .map → ∃ values, field.type = .map values

/--
What the property reads from one object it stores into any other and reads again. A converter gives
back the content that it has presented.
-/
structure Binding.Restores (b : Binding σ) : Prop where
  writable : b.property.isWritable = true
  accepts : ∀ x, b.property.Accepts (b.property.get x)
  readsBack : ∀ x, b.property.ReadsBack (b.property.get x)
  converts : ∀ converter, b.converter = some converter → ∀ x value,
    converter.toSchema (b.property.get x) = .ok value →
      converter.fromSchema value = .ok (b.property.get x)

theorem Binding.Restores.converts_of_presents {b : Binding σ} (h : b.Restores) {x : σ}
    {value : Value} (presents : b.Presents (b.property.get x) value) :
    b.Converts value (b.property.get x) := by
  unfold Presents at presents
  unfold Converts
  cases has : b.converter with
  | some converter =>
    rw [has] at presents
    exact h.converts converter has x value presents
  | none =>
    rw [has] at presents
    exact presents.symm

namespace RecordBinding

variable {r : RecordBinding σ} {input value record : Value} {f : FieldBinding σ} {b : Binding σ}
  {fs : List (FieldBinding σ)} {x y : σ}

/-! ## From an object into another -/

theorem planned_of_resolves (content : Binding σ → Value)
    (h : ∀ f ∈ fs, ∀ b, f.binding = some b → r.Resolves input f b (content b)) :
    ∃ writes, r.Planned input fs writes := by
  induction fs with
  | nil => exact ⟨[], .nil⟩
  | cons f fs ih =>
    obtain ⟨first, others⟩ := List.forall_mem_cons.mp h
    obtain ⟨writes, planned⟩ := ih others
    cases bound : f.binding with
    | none => exact ⟨writes, .unbound bound planned⟩
    | some b => exact ⟨_, .bound bound (first b bound) planned⟩

theorem Extracts.resolves (h : r.Extracts x f value) (bound : f.binding = some b)
    (restores : b.Restores) (supplied : r.Supplies input f value)
    (conforms : value.conforms f.field.type r.types = true)
    (array : f.field.type.kind = .array → ∃ items, f.field.type = .array items) :
    r.Resolves input f b (b.property.get x) := by
  obtain ⟨shows, sequence⟩ := h
  refine ⟨value, supplied, ⟨conforms, fun kind => ?_⟩, restores.writable, ?_⟩
  · obtain ⟨items, type⟩ := array kind
    rw [type] at conforms
    exact Value.eq_array_of_conforms (sequence (.inl kind)).bare conforms
  · cases shows with
    | bound same presents =>
      obtain rfl := Option.some.inj (bound.symm.trans same)
      exact restores.converts_of_presents presents
    | unbound unbound =>
      rw [bound] at unbound
      cases unbound

/--
What was extracted from one object and conforms can be written into every other, which then reads
and is extracted like the first.
-/
theorem populate_extract (distinct : (r.fields.map (·.field.name.text)).Nodup)
    (arrays : ∀ f ∈ r.fields, f.field.type.kind = .array → ∃ items, f.field.type = .array items)
    (restores : ∀ f ∈ r.fields, ∀ b, f.binding = some b → b.Restores)
    (independent : r.Independent) (extracted : r.extract x = .ok record)
    (conforms : ∀ f ∈ r.fields, f.binding.isSome = true → ∀ v,
      record.field? f.field.name.text = some v → v.conforms f.field.type r.types = true) (y : σ) :
    ∃ z, (r.populate record).run.run y = (.ok (), z) ∧
      (∀ f ∈ r.fields, ∀ b, f.binding = some b → b.property.get z = b.property.get x) ∧
      r.extract z = .ok record := by
  obtain ⟨entries, rows, rfl⟩ := extract_eq_ok.mp extracted
  have found := Value.lookup_of_forall₂ (Q := fun f value => r.Extracts x f value) rows distinct
  have resolves : ∀ f ∈ r.fields, ∀ b, f.binding = some b →
      r.Resolves (.record entries) f b (b.property.get x) := by
    intro f mem b bound
    obtain ⟨value, given, extracts⟩ := found f mem
    have conforms := conforms f mem (by rw [bound]; rfl) value given
    exact extracts.resolves bound (restores f mem b bound) (.given given) conforms (arrays f mem)
  -- So whatever is planned is what the property reads in the first object.
  have content : ∀ f ∈ r.fields, ∀ b v, f.binding = some b → r.Resolves (.record entries) f b v →
      v = b.property.get x :=
    fun f mem b v bound other => other.unique (resolves f mem b bound)
  obtain ⟨writes, planned⟩ := planned_of_resolves (fun b => b.property.get x) resolves
  have accepts : ∀ w ∈ writes, w.1.property.Accepts w.2 := by
    rintro ⟨b, v⟩ mem
    obtain ⟨f, memF, bound, other⟩ := planned.field_of_mem mem
    rw [content f memF b v bound other]
    exact (restores f memF b bound).accepts x
  obtain ⟨z, written⟩ := written_of_accepts accepts y
  have same : ∀ f ∈ r.fields, ∀ b, f.binding = some b →
      b.property.get z = b.property.get x := by
    intro f mem b bound
    refine content f mem b _ bound (planned.reads written independent ?_ mem bound)
    intro f mem b v bound other
    rw [content f mem b v bound other]
    exact (restores f mem b bound).readsBack x
  have populated : (r.populate (.record entries)).run.run y = (.ok (), z) :=
    populate_eq_ok.mpr ⟨.record entries, writes, rfl, planned, written⟩
  exact ⟨z, populated, same, extract_congr same extracted⟩

/-! ## From a record and back -/

/-- A bound field gives back what it has taken from the input. -/
structure Retains (r : RecordBinding σ) (input : Value) (f : FieldBinding σ) (b : Binding σ) :
    Prop where
  readsBack : ∀ content, r.Resolves input f b content → b.property.ReadsBack content
  converts : ∀ converter, b.converter = some converter → ∀ value content,
    r.Supplies input f value → converter.fromSchema value = .ok content →
      converter.toSchema content = .ok value

/-- A field of the input, completed: a bound field may be given, all others have their default. -/
inductive Completes (r : RecordBinding σ) (input : Value) (f : FieldBinding σ) : Value → Prop
  | bound {value : Value} (bound : f.binding.isSome = true) (supplied : r.Supplies input f value) :
      Completes r input f value
  | unbound {value : Value} (unbound : f.binding = none)
      (default : f.defaultValue r.types = .ok value) : Completes r input f value

theorem Retains.presents_of_converts {content : Value} (h : r.Retains input f b)
    (supplied : r.Supplies input f value) (converts : b.Converts value content) :
    b.Presents content value := by
  unfold Binding.Converts at converts
  unfold Binding.Presents
  cases has : b.converter with
  | some converter =>
    rw [has] at converts
    exact h.converts converter has value content supplied converts
  | none =>
    rw [has] at converts
    exact converts.symm

theorem defaultValue_eq_ok : f.defaultValue r.types = .ok value ↔
    ∃ document, f.field.default = some document ∧
      Value.ofJson document f.field.type r.types = .ok value := by
  unfold FieldBinding.defaultValue
  cases f.field.default with
  | none => simp
  | some document => simp [Result.mapError_eq_ok]

theorem isSequence_of_default {document : Json} (typed : f.field.SequenceTyped)
    (read : Value.ofJson document f.field.type r.types = .ok value)
    (kind : f.field.type.kind = .array ∨ f.field.type.kind = .map) : value.IsSequence := by
  rcases kind with kind | kind
  · obtain ⟨items, type⟩ := typed.array kind
    rw [type] at read
    obtain ⟨values, rfl⟩ := Value.ofJson_array read
    exact .array values
  · obtain ⟨values, type⟩ := typed.map kind
    rw [type] at read
    obtain ⟨entries, rfl⟩ := Value.ofJson_map read
    exact .map entries

theorem isSequence_of_passes (typed : f.field.SequenceTyped) (supplied : r.Supplies input f value)
    (passes : r.Passes f value)
    (bare : f.field.type.kind = .map → ∀ branch content,
      input.field? f.field.name.text ≠ some (.union branch content))
    (kind : f.field.type.kind = .array ∨ f.field.type.kind = .map) : value.IsSequence := by
  cases supplied with
  | default _ _ read => exact isSequence_of_default typed read kind
  | given given =>
    rcases kind with kind | kind
    · obtain ⟨items, rfl⟩ := passes.isArray kind
      exact .array items
    · obtain ⟨values, type⟩ := typed.map kind
      have conforms := passes.conforms
      rw [type] at conforms
      have unwrapped : ∀ branch content, value ≠ .union branch content :=
        fun branch content same => bare kind branch content (same ▸ given)
      obtain ⟨entries, rfl⟩ := Value.eq_map_of_conforms unwrapped conforms
      exact .map entries

/--
After an object was populated, the record that is extracted from it has every field of the schema,
in order, each with the value of the input or else with its default.
-/
theorem extract_populate (typed : ∀ f ∈ r.fields, f.field.SequenceTyped)
    (retains : ∀ f ∈ r.fields, ∀ b, f.binding = some b → r.Retains input f b)
    (independent : r.Independent)
    (defaults : ∀ f ∈ r.fields, f.binding = none → ∃ value, f.defaultValue r.types = .ok value)
    (given : r.recordInput value = .ok input)
    (bare : ∀ f ∈ r.fields, f.field.type.kind = .map → ∀ branch content,
      input.field? f.field.name.text ≠ some (.union branch content))
    (populated : (r.populate value).run.run x = (.ok (), y)) :
    ∃ entries, r.extract y = .ok (.record entries) ∧
      List.Forall₂ (fun f entry => entry.1 = f.field.name.text ∧ r.Completes input f entry.2)
        r.fields entries := by
  obtain ⟨input', writes, given', planned, written⟩ := populate_eq_ok.mp populated
  obtain rfl := Except.ok.inj (given.symm.trans given')
  have back : ∀ f ∈ r.fields, ∀ b v, f.binding = some b → r.Resolves input f b v →
      b.property.ReadsBack v :=
    fun f mem b v bound resolves => (retains f mem b bound).readsBack v resolves
  have each : ∀ f ∈ r.fields, ∃ value, r.Extracts y f value ∧ r.Completes input f value := by
    intro f mem
    cases bound : f.binding with
    | none =>
      obtain ⟨value, default⟩ := defaults f mem bound
      obtain ⟨document, -, read⟩ := defaultValue_eq_ok.mp default
      exact ⟨value, ⟨.unbound bound default, isSequence_of_default (typed f mem) read⟩,
        .unbound bound default⟩
    | some b =>
      have resolves := planned.reads written independent back mem bound
      obtain ⟨value, supplied, passes, -, converts⟩ := resolves
      have presents := (retains f mem b bound).presents_of_converts supplied converts
      have sequence := isSequence_of_passes (typed f mem) supplied passes (bare f mem)
      exact ⟨value, ⟨.bound bound presents, sequence⟩, .bound (by rw [bound]; rfl) supplied⟩
  exact extract_of_forall each

/-! ## A plot of trees -/

structure Plot where
  planted : Int64
  rows : Value
  heights : Value

namespace Plot

def plantedProperty : Property Plot where
  name := "planted"
  declaring := "Plot"
  shape := .compound Converter.timestampName
  get plot := .record [(Converter.millisName, .long plot.planted)]
  setter := some fun
    | .record [(_, .long planted)] => modify fun plot => { plot with planted }
    | other => throw (.typeMismatch .record other.kind)

def rowsProperty : Property Plot where
  name := "rows"
  declaring := "Plot"
  shape := .list .text
  get := rows
  setter := some fun rows => modify fun plot => { plot with rows }

def heightsProperty : Property Plot where
  name := "heights"
  declaring := "Plot"
  shape := .map .int64
  get := heights
  setter := some fun heights => modify fun plot => { plot with heights }

def plantedBinding : Binding Plot := ⟨plantedProperty, .primitive .long, some .timestamp⟩

def rowsBinding : Binding Plot := ⟨rowsProperty, .array, none⟩

def heightsBinding : Binding Plot := ⟨heightsProperty, .map, none⟩

def fields : List (FieldBinding Plot) := [
  ⟨{ name := ⟨"planted", by decide⟩, type := .primitive .long,
      default := some (.num (.ofUInt64 7)) }, some plantedBinding⟩,
  ⟨{ name := ⟨"note", by decide⟩, type := .primitive .string,
      default := some (.str "none") }, none⟩,
  ⟨{ name := ⟨"rows", by decide⟩, type := .array (.primitive .string) }, some rowsBinding⟩,
  ⟨{ name := ⟨"heights", by decide⟩, type := .map (.primitive .long), default := some (.obj []) },
    some heightsBinding⟩]

def binding : RecordBinding Plot where
  record := "Plot"
  fields := fields
  types := .empty
  config := { allowUnboundDefaults := true }

theorem bindings : fields.filterMap (·.binding) =
    [plantedBinding, rowsBinding, heightsBinding] := rfl

theorem planted_of_set {v : Value} {x y : Plot}
    (h : (plantedProperty.set v).run.run x = (.ok (), y)) :
    ∃ name planted, v = .record [(name, .long planted)] ∧ y = { x with planted } := by
  unfold plantedProperty Property.set at h
  dsimp only at h
  split at h
  · cases h
    exact ⟨_, _, rfl, rfl⟩
  · cases h

theorem planted_spares {other : Property Plot}
    (h : ∀ x planted, other.get { x with planted } = other.get x) :
    plantedProperty.Spares other := by
  intro v x y stored
  obtain ⟨_, planted, -, rfl⟩ := planted_of_set stored
  exact h x planted

theorem rows_spares {other : Property Plot}
    (h : ∀ x rows, other.get { x with rows } = other.get x) : rowsProperty.Spares other := by
  intro v x y stored
  cases stored
  exact h x v

theorem heights_spares {other : Property Plot}
    (h : ∀ x heights, other.get { x with heights } = other.get x) :
    heightsProperty.Spares other := by
  intro v x y stored
  cases stored
  exact h x v

theorem independent : binding.Independent := by
  change (fields.filterMap (·.binding)).Pairwise _
  rw [bindings]
  refine .cons (List.forall_mem_cons.mpr ⟨⟨?_, ?_⟩, List.forall_mem_singleton.mpr ⟨?_, ?_⟩⟩)
    (.cons (List.forall_mem_singleton.mpr ⟨?_, ?_⟩) (List.pairwise_singleton ..))
  · exact planted_spares fun _ _ => rfl
  · exact rows_spares fun _ _ => rfl
  · exact planted_spares fun _ _ => rfl
  · exact heights_spares fun _ _ => rfl
  · exact rows_spares fun _ _ => rfl
  · exact heights_spares fun _ _ => rfl

theorem sequenceTyped : ∀ f ∈ binding.fields, f.field.SequenceTyped :=
  List.forall_mem_cons.mpr ⟨⟨nofun, nofun⟩, List.forall_mem_cons.mpr ⟨⟨nofun, nofun⟩,
    List.forall_mem_cons.mpr ⟨⟨fun _ => ⟨_, rfl⟩, nofun⟩,
      List.forall_mem_singleton.mpr ⟨nofun, fun _ => ⟨_, rfl⟩⟩⟩⟩⟩

theorem planted_restores : plantedBinding.Restores := by
  refine ⟨rfl, fun x y => ⟨{ y with planted := x.planted }, rfl⟩, fun x y z stored => ?_, ?_⟩
  · obtain ⟨_, planted, same, rfl⟩ := planted_of_set stored
    cases same
    rfl
  · intro converter has x value presented
    cases has
    cases presented
    rfl

theorem rows_readsBack {v : Value} : rowsProperty.ReadsBack v := by
  intro x y stored
  cases stored
  rfl

theorem heights_readsBack {v : Value} : heightsProperty.ReadsBack v := by
  intro x y stored
  cases stored
  rfl

theorem rows_restores : rowsBinding.Restores :=
  ⟨rfl, fun x y => ⟨{ y with rows := x.rows }, rfl⟩, fun _ => rows_readsBack, nofun⟩

theorem heights_restores : heightsBinding.Restores :=
  ⟨rfl, fun x y => ⟨{ y with heights := x.heights }, rfl⟩, fun _ => heights_readsBack, nofun⟩

theorem restores : ∀ f ∈ binding.fields, ∀ b, f.binding = some b → b.Restores := by
  intro f mem b bound
  have known : b ∈ fields.filterMap (·.binding) := List.mem_filterMap.mpr ⟨f, mem, bound⟩
  rw [bindings] at known
  rcases List.mem_cons.mp known with rfl | known
  · exact planted_restores
  rcases List.mem_cons.mp known with rfl | known
  · exact rows_restores
  rcases List.mem_singleton.mp known with rfl
  exact heights_restores

def old : Plot := ⟨20, .array [.string "oak"], .map [("oak", .long 12)]⟩

def young : Plot := ⟨31, .array [], .map []⟩

def extracted : Value := .record [("planted", .long 20), ("note", .string "none"),
  ("rows", .array [.string "oak"]), ("heights", .map [("oak", .long 12)])]

end Plot

theorem populate_extract_plot :
    Plot.binding.extract Plot.old = .ok Plot.extracted ∧
      ∃ z, (Plot.binding.populate Plot.extracted).run.run Plot.young = (.ok (), z) ∧
        Plot.binding.extract z = .ok Plot.extracted := by
  have extracted : Plot.binding.extract Plot.old = .ok Plot.extracted := rfl
  have conforms : ∀ f ∈ Plot.binding.fields, f.binding.isSome = true → ∀ v,
      Plot.extracted.field? f.field.name.text = some v →
        v.conforms f.field.type Plot.binding.types = true := by
    refine List.forall_mem_cons.mpr ⟨?_, List.forall_mem_cons.mpr ⟨nofun,
      List.forall_mem_cons.mpr ⟨?_, List.forall_mem_singleton.mpr ?_⟩⟩⟩
    all_goals rintro - v ⟨⟩; rfl
  have arrays : ∀ f ∈ Plot.binding.fields,
      f.field.type.kind = .array → ∃ items, f.field.type = .array items :=
    fun f mem => (Plot.sequenceTyped f mem).array
  obtain ⟨z, populated, -, again⟩ := populate_extract (by decide) arrays Plot.restores
    Plot.independent extracted conforms Plot.young
  exact ⟨extracted, z, populated, again⟩

namespace Plot

def given : Value := .record [("heights", .map [("elm", .long 3)]), ("soil", .null),
  ("rows", .array [.string "elm", .union 1 (.string "oak")])]

def plantedField : FieldBinding Plot := fields.head (by decide)

theorem planted_supplies {value : Value} (h : binding.Supplies given plantedField value) :
    value = .long 7 :=
  h.unique (.default rfl rfl rfl)

theorem planted_retains : binding.Retains given plantedField plantedBinding := by
  constructor
  · rintro content ⟨value, supplied, -, -, converts⟩ x y stored
    obtain rfl := planted_supplies supplied
    obtain ⟨_, planted, rfl, rfl⟩ := planted_of_set stored
    cases converts
    rfl
  · intro converter has value content supplied converts
    obtain rfl := planted_supplies supplied
    cases has
    cases converts
    rfl

theorem retains : ∀ f ∈ binding.fields, ∀ b, f.binding = some b → binding.Retains given f b := by
  intro f mem b bound
  rcases List.mem_cons.mp mem with rfl | mem
  · obtain rfl := Option.some.inj bound
    exact planted_retains
  rcases List.mem_cons.mp mem with rfl | mem
  · cases bound
  rcases List.mem_cons.mp mem with rfl | mem
  · obtain rfl := Option.some.inj bound
    exact ⟨fun content _ x y stored => rows_readsBack stored, nofun⟩
  obtain rfl := List.mem_singleton.mp mem
  obtain rfl := Option.some.inj bound
  exact ⟨fun content _ x y stored => heights_readsBack stored, nofun⟩

theorem defaults : ∀ f ∈ binding.fields, f.binding = none →
    ∃ value, f.defaultValue binding.types = .ok value :=
  List.forall_mem_cons.mpr ⟨nofun, List.forall_mem_cons.mpr ⟨fun _ => ⟨.string "none", rfl⟩,
    List.forall_mem_cons.mpr ⟨nofun, List.forall_mem_singleton.mpr nofun⟩⟩⟩

theorem given_bare : ∀ f ∈ binding.fields, f.field.type.kind = .map → ∀ branch content,
    given.field? f.field.name.text ≠ some (.union branch content) :=
  List.forall_mem_cons.mpr ⟨nofun, List.forall_mem_cons.mpr ⟨nofun,
    List.forall_mem_cons.mpr ⟨nofun, List.forall_mem_singleton.mpr fun _ _ _ => nofun⟩⟩⟩

end Plot

theorem extract_populate_plot :
    ∃ y, (Plot.binding.populate Plot.given).run.run Plot.old = (.ok (), y) ∧
      ∃ entries, Plot.binding.extract y = .ok (.record entries) ∧
        List.Forall₂ (fun f entry => entry.1 = f.field.name.text ∧
          Plot.binding.Completes Plot.given f entry.2) Plot.binding.fields entries := by
  let y : Plot := ⟨7, .array [.string "elm", .union 1 (.string "oak")], .map [("elm", .long 3)]⟩
  have populated : (Plot.binding.populate Plot.given).run.run Plot.old = (.ok (), y) := rfl
  exact ⟨y, populated, extract_populate Plot.sequenceTyped Plot.retains Plot.independent
    Plot.defaults rfl Plot.given_bare populated⟩

end RecordBinding

end SchemaBinding
