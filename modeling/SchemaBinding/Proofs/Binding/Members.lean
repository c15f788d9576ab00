import SchemaBinding.Proofs.Binding.Extract
import SchemaBinding.Proofs.Binding.TypedSetters

/-!
# Members of an object

All members of an object can be copied by way of a record, unless it has a field of a fixed type.
-/

namespace SchemaBinding

variable {σ : Type}

/-- The data that a program keeps under a shape. -/
def Shape.data? : Shape → Option Primitive
  | .bool => some .boolean
  | .int32 => some .int
  | .int64 => some .long
  | .float32 => some .float
  | .float64 => some .double
  | .bytes => some .bytes
  | .text => some .string
  | _ => none

/-- A fixed type, or a reference to one that the table defines. -/
inductive Schema.Fixed (types : Definitions) : Schema → Prop
  | body (f : FixedSchema) : Fixed types (.fixed f)
  | named {name : String} {f : FixedSchema} (found : types.resolve? name = some (.fixed f)) :
      Fixed types (.reference name .fixed)

/-- A primitive type other than null, or a fixed type, which may be defined elsewhere. -/
inductive Schema.Scalar (types : Definitions) : Schema → Prop
  | primitive {p : Primitive} (data : p ≠ .null) : Scalar types (.primitive p)
  | fixed {s : Schema} (h : s.Fixed types) : Scalar types s
  | foreign {name : String} (absent : types.resolve? name = none) :
      Scalar types (.reference name .fixed)

theorem Schema.Fixed.kind {types : Definitions} {s : Schema} (h : s.Fixed types) :
    s.kind = .fixed := by
  cases h <;> rfl

theorem Schema.Scalar.notSequence {types : Definitions} {s : Schema} (h : s.Scalar types) :
    ¬ (s.kind = .array ∨ s.kind = .map) := by
  cases h with
  | fixed h => simp [h.kind]
  | _ => simp [Schema.kind]

/-! ## Members -/

structure Member (σ : Type) where
  /-- The name of the type that declares the member. -/
  declaring : String
  shape : Shape
  data : Primitive
  keeps : shape.data? = some data
  view : σ → data.Carrier
  store : data.Carrier → σ → σ
  view_store : ∀ c x, view (store c x) = c

namespace Member

variable {m : Member σ} {x y : σ}

def value (m : Member σ) (x : σ) : Value := .ofCarrier m.data (m.view x)

def property (m : Member σ) (name : String) : Property σ where
  name := name
  declaring := m.declaring
  shape := m.shape
  get := m.value
  setter := some (Access.setter (.plain m.data) m.store)

/-- Two members are one, or what is stored in the first does not show in the second. -/
def Apart (m other : Member σ) : Prop :=
  m = other ∨ ∀ c x, other.view (m.store c x) = other.view x

theorem set_value (name : String) :
    ((m.property name).set (m.value x)).run.run y = (.ok (), m.store (m.view x) y) := by
  have read : (Access.plain m.data).read (m.value x) = .ok (m.view x) :=
    Value.read_ofCarrier m.data (m.view x)
  change (Access.setter (.plain m.data) m.store (m.value x)).run.run y = _
  unfold Access.setter
  rw [read]
  rfl

theorem conforms {types : Definitions} {s : Schema} (x : σ)
    (holds : m.shape.holds s.kind = true) (scalar : s.Scalar types)
    (notFixed : ¬ s.Fixed types) : (m.value x).conforms s types = true := by
  cases scalar with
  | @primitive p data =>
    have same : p = m.data := by
      have keeps := m.keeps
      cases p <;> simp_all [Schema.kind, Shape.holds, Shape.data?]
    subst same
    simp [value, Value.conforms_primitive, Value.carrier?_ofCarrier]
  | fixed h => exact absurd h notFixed
  | foreign absent => exact types.any_absent _ absent

theorem not_conforms {types : Definitions} {s : Schema} (x : σ)
    (holds : m.shape.holds s.kind = true) (fixed : s.Fixed types) :
    (m.value x).conforms s types = false ∧ (m.value x).kind = .primitive .bytes := by
  obtain ⟨declaring, shape, data, keeps, view, store, view_store⟩ := m
  obtain rfl : shape = .bytes := by simpa [fixed.kind, Shape.holds] using holds
  cases keeps
  refine ⟨?_, rfl⟩
  cases fixed with
  | body f => exact Value.conforms_plain rfl rfl
  | named found => exact types.any_named _ found rfl rfl

/-! ### From one object to another -/

variable {member : Field → Member σ}

/-- Copies the members of the fields from `x`, one after the other. -/
def copy (member : Field → Member σ) (x : σ) (fields : List Field) (y : σ) : σ :=
  fields.foldl (fun y field => (member field).store ((member field).view x) y) y

theorem view_copy {fields : List Field} {other : Member σ}
    (apart : ∀ field ∈ fields, (member field).Apart other)
    (agrees : other.view y = other.view x ∨ ∃ field ∈ fields, member field = other) :
    other.view (copy member x fields y) = other.view x := by
  induction fields generalizing y with
  | nil =>
    rcases agrees with agrees | ⟨field, mem, -⟩
    · exact agrees
    · cases mem
  | cons field fields ih =>
    obtain ⟨first, others⟩ := List.forall_mem_cons.mp apart
    apply ih others
    rcases first with rfl | first
    · exact .inl ((member field).view_store _ _)
    · rw [first]
      rcases agrees with agrees | ⟨field', mem, same⟩
      · exact .inl agrees
      · rcases List.mem_cons.mp mem with rfl | mem
        · -- The member is its own, so storing into it does not leave it alone unless it agreed.
          subst same
          exact .inl ((first ((member field').view x) y).symm.trans (Member.view_store _ _ _))
        · exact .inr ⟨field', mem, same⟩

end Member

namespace RecordBinding

section

variable {body : RecordSchema} {properties : PropertySet σ} {member : Field → Member σ}
  {config : BindingConfig} {x y : σ} {field : Field}

/-! ## Records of members -/

/-- Each field has a name and a scalar type, and is kept in a member whose shape holds the type. -/
structure Mirrored (body : RecordSchema) (properties : PropertySet σ)
    (member : Field → Member σ) : Prop where
  distinct : (body.fields.map (·.name.text)).Nodup
  scalar : ∀ field ∈ body.fields, field.type.Scalar body.definitions
  property : ∀ field ∈ body.fields,
    properties.find? field.name.text = some ((member field).property field.name.text)
  holds : ∀ field ∈ body.fields, (member field).shape.holds field.type.kind = true
  apart : ∀ field ∈ body.fields, ∀ other ∈ body.fields, (member field).Apart (member other)

def mirrorBinding (member : Field → Member σ) (field : Field) : Binding σ :=
  ⟨(member field).property field.name.text, field.type.kind, none⟩

def mirrorField (member : Field → Member σ) (field : Field) : FieldBinding σ :=
  ⟨field, some (mirrorBinding member field)⟩

def mirror (body : RecordSchema) (member : Field → Member σ) (config : BindingConfig) :
    RecordBinding σ where
  record := body.fullname
  fields := body.fields.map (mirrorField member)
  types := body.definitions
  config := config

/-- What the members of an object come to as a record. -/
def mirrored (member : Field → Member σ) (fields : List Field) (x : σ) : Value :=
  .record (fields.map fun field => (field.name.text, (member field).value x))

theorem bind_mirrored (h : Mirrored body properties member) (registry : Registry) :
    bind body properties registry config = .ok (mirror body member config) := by
  have each : ∀ field ∈ body.fields,
      bindField properties registry config field = .ok (mirrorField member field) := by
    intro field mem
    have made : Binding.bind ((member field).property field.name.text) field.type.kind registry =
        .ok (mirrorBinding member field) :=
      Binding.bind_eq_ok.mpr ⟨.direct, .direct (h.holds field mem), rfl⟩
    unfold bindField
    rw [h.property field mem]
    dsimp only
    rw [made]
    rfl
  unfold bind
  rw [partition_map_ok each]
  rfl

/-! ## Out of one object -/

theorem extract_mirror (h : Mirrored body properties member) :
    (mirror body member config).extract x = .ok (mirrored member body.fields x) := by
  refine extract_eq_ok.mpr ⟨_, ?_, rfl⟩
  unfold mirror
  rw [List.forall₂_map_left_iff, List.forall₂_map_right_iff, List.forall₂_same]
  intro field mem
  exact ⟨rfl, .bound rfl rfl, fun sequence => absurd sequence (h.scalar field mem).notSequence⟩

theorem field?_mirrored (h : Mirrored body properties member) (mem : field ∈ body.fields) :
    (mirrored member body.fields x).field? field.name.text = some ((member field).value x) := by
  have rows : List.Forall₂ (fun (field : Field) (entry : String × Value) =>
      entry.1 = field.name.text ∧ entry.2 = (member field).value x) body.fields
      (body.fields.map fun field => (field.name.text, (member field).value x)) := by
    rw [List.forall₂_map_right_iff, List.forall₂_same]
    exact fun field _ => ⟨rfl, rfl⟩
  obtain ⟨value, found, rfl⟩ := Value.lookup_of_forall₂
    (Q := fun field value => value = (member field).value x) rows h.distinct field mem
  exact found

/-! ## Into another object -/

theorem resolves_mirror (h : Mirrored body properties member) (mem : field ∈ body.fields)
    (notFixed : ¬ field.type.Fixed body.definitions) :
    (mirror body member config).Resolves (mirrored member body.fields x) (mirrorField member field)
      (mirrorBinding member field) ((member field).value x) := by
  have scalar := h.scalar field mem
  have conforms := (member field).conforms x (h.holds field mem) scalar notFixed
  have notArray : field.type.kind ≠ .array := fun array => scalar.notSequence (.inl array)
  refine ⟨_, .given (field?_mirrored h mem), ⟨conforms, ?_⟩, rfl, rfl⟩
  exact fun array => absurd array notArray

theorem resolveField_mirror_fixed (h : Mirrored body properties member) (mem : field ∈ body.fields)
    (fixed : field.type.Fixed body.definitions) :
    (mirror body member config).resolveField (mirrored member body.fields x)
        (mirrorField member field) (mirrorBinding member field) =
      .error (.field field.name.text
        (.nonConforming field.name.text .fixed (.primitive .bytes))) := by
  obtain ⟨fails, found⟩ := Member.not_conforms x (h.holds field mem) fixed
  have supplied : (mirror body member config).supply (mirrored member body.fields x)
      (mirrorField member field) = .ok ((member field).value x) :=
    supply_eq_ok.mpr (.given (field?_mirrored h mem))
  rw [resolveField_eq, supplied]
  change check _ _ _ _ = _
  unfold check
  rw [mirrorField, mirror, fails, found, fixed.kind]
  rfl

def mirrorWrites (member : Field → Member σ) (x : σ) (fields : List Field) :
    List (Binding σ × Value) :=
  fields.map fun field => (mirrorBinding member field, (member field).value x)

theorem planned_mirror (h : Mirrored body properties member) (config : BindingConfig) (x : σ)
    {fields : List Field} (sub : fields ⊆ body.fields)
    (notFixed : ∀ field ∈ fields, ¬ field.type.Fixed body.definitions) :
    (mirror body member config).Planned (mirrored member body.fields x)
      (fields.map (mirrorField member)) (mirrorWrites member x fields) := by
  induction fields with
  | nil => exact .nil
  | cons field fields ih =>
    obtain ⟨mem, sub⟩ := List.cons_subset.mp sub
    obtain ⟨first, others⟩ := List.forall_mem_cons.mp notFixed
    exact .bound rfl (resolves_mirror h mem first) (ih sub others)

theorem written_mirror (fields : List Field) :
    Written (mirrorWrites member x fields) y (Member.copy member x fields y) := by
  induction fields generalizing y with
  | nil => exact .nil
  | cons field fields ih => exact .cons ((member field).set_value field.name.text) ih

/--
A record of scalars is bound to the members of an object as the table of shapes has it, and any
object can be extracted. Without a fixed field the record copies all members into any other object.
With one it cannot be written at all: the first of them does not conform. A fixed type that is only
named, and defined elsewhere, is no obstacle.
-/
theorem populate_extract_members (h : Mirrored body properties member) (registry : Registry)
    (config : BindingConfig) :
    ∃ r, bind body properties registry config = .ok r ∧
      ∀ x y, ∃ record, r.extract x = .ok record ∧
        ((∀ field ∈ body.fields, ¬ field.type.Fixed body.definitions) →
          ∃ z, (r.populate record).run.run y = (.ok (), z) ∧
            ∀ field ∈ body.fields, (member field).view z = (member field).view x) ∧
        ∀ before field after, body.fields = before ++ field :: after →
          (∀ earlier ∈ before, ¬ earlier.type.Fixed body.definitions) →
          field.type.Fixed body.definitions →
            (r.populate record).run.run y =
              (.error (.field field.name.text
                (.nonConforming field.name.text .fixed (.primitive .bytes))), y) := by
  refine ⟨_, bind_mirrored h registry, fun x y => ⟨_, extract_mirror h, ?_, ?_⟩⟩
  · intro notFixed
    have planned := planned_mirror h config x (List.Subset.refl _) notFixed
    refine ⟨_, populate_eq_ok.mpr ⟨_, _, rfl, planned, written_mirror body.fields⟩, ?_⟩
    intro field mem
    exact Member.view_copy (fun other memOther => h.apart other memOther field mem)
      (.inr ⟨field, mem, rfl⟩)
  · intro before field after split notFixed fixed
    have sub : before ⊆ body.fields := split ▸ List.subset_append_left _ _
    have mem : field ∈ body.fields := split ▸ List.mem_append_cons_self
    have fields : (mirror body member config).fields = before.map (mirrorField member) ++
        mirrorField member field :: after.map (mirrorField member) := by
      rw [← List.map_cons, ← List.map_append, ← split]
      rfl
    have resolved : (mirror body member config).resolve (mirrored member body.fields x) =
        .error (.field field.name.text
          (.nonConforming field.name.text .fixed (.primitive .bytes))) := by
      refine Result.bind_eq_error.mpr (.inr ⟨mirrored member body.fields x, rfl, ?_⟩)
      rw [fields]
      exact (planned_mirror h config x sub notFixed).resolveFields_error rfl
        (resolveField_mirror_fixed h mem fixed)
    rw [populate_run, resolved]

end

/-! ### A marked acorn -/

structure Acorn where
  weight : Int64
  mark : List UInt8

namespace Acorn

def weightMember : Member Acorn where
  declaring := "Acorn"
  shape := .int64
  data := .long
  keeps := rfl
  view := weight
  store weight acorn := { acorn with weight }
  view_store _ _ := rfl

def markMember : Member Acorn where
  declaring := "Acorn"
  shape := .bytes
  data := .bytes
  keeps := rfl
  view := mark
  store mark acorn := { acorn with mark }
  view_store _ _ := rfl

def member (field : Field) : Member Acorn :=
  if field.name.text = "weight" then weightMember else markMember

def weightField : Field := { name := ⟨"weight", by decide⟩, type := .primitive .long }

def markField (type : Schema) : Field := { name := ⟨"mark", by decide⟩, type }

def body (type : Schema) : RecordSchema :=
  { name := "Acorn", fields := [weightField, markField type] }

def properties : PropertySet Acorn :=
  ⟨"Acorn", [weightMember.property "weight", markMember.property "mark"]⟩

def twoBytes : Schema := .fixed { name := "Mark", size := 2 }

theorem body_mirrored (type : Schema) (kind : type.kind = .primitive .bytes ∨ type.kind = .fixed)
    (scalar : type.Scalar (body type).definitions) : Mirrored (body type) properties member where
  distinct := (by decide : ["weight", "mark"].Nodup)
  scalar := List.forall_mem_cons.mpr ⟨.primitive nofun, List.forall_mem_singleton.mpr scalar⟩
  property := List.forall_mem_cons.mpr ⟨rfl, List.forall_mem_singleton.mpr rfl⟩
  holds := by
    refine List.forall_mem_cons.mpr ⟨rfl, List.forall_mem_singleton.mpr ?_⟩
    change Shape.holds .bytes type.kind = true
    rcases kind with kind | kind <;> rw [kind] <;> rfl
  apart := by
    have apart : weightMember.Apart markMember ∧ markMember.Apart weightMember :=
      ⟨.inr fun _ _ => rfl, .inr fun _ _ => rfl⟩
    intro field _ other _
    unfold member
    split <;> split
    · exact .inl rfl
    · exact apart.1
    · exact apart.2
    · exact .inl rfl

end Acorn

theorem populate_extract_members_acorn :
    (∃ r, bind (Acorn.body (.primitive .bytes)) Acorn.properties .empty {} = .ok r ∧
      ∀ x y, ∃ record, r.extract x = .ok record ∧
        (r.populate record).run.run y = (.ok (), x)) ∧
    ∃ r, bind (Acorn.body Acorn.twoBytes) Acorn.properties .empty {} = .ok r ∧
      ∀ x y, ∃ record, r.extract x = .ok record ∧
        (r.populate record).run.run y =
          (.error (.field "mark" (.nonConforming "mark" .fixed (.primitive .bytes))), y) := by
  have plain : ∀ {types : Definitions} {p : Primitive}, ¬ (Schema.primitive p).Fixed types := nofun
  constructor
  · have h := Acorn.body_mirrored (.primitive .bytes) (.inl rfl) (.primitive nofun)
    obtain ⟨r, made, copies⟩ := populate_extract_members h .empty {}
    refine ⟨r, made, fun x y => ?_⟩
    obtain ⟨record, extracted, copied, -⟩ := copies x y
    obtain ⟨z, populated, agrees⟩ :=
      copied (List.forall_mem_cons.mpr ⟨plain, List.forall_mem_singleton.mpr plain⟩)
    have weight : z.weight = x.weight := agrees Acorn.weightField List.mem_cons_self
    have mark : z.mark = x.mark :=
      agrees (Acorn.markField _) (List.mem_cons_of_mem _ List.mem_cons_self)
    obtain ⟨weight', mark'⟩ := z
    cases weight
    cases mark
    exact ⟨record, extracted, populated⟩
  · have h := Acorn.body_mirrored Acorn.twoBytes (.inr rfl) (.fixed (.body _))
    obtain ⟨r, made, copies⟩ := populate_extract_members h .empty {}
    refine ⟨r, made, fun x y => ?_⟩
    obtain ⟨record, extracted, -, fails⟩ := copies x y
    exact ⟨record, extracted, fails [Acorn.weightField] (Acorn.markField Acorn.twoBytes) [] rfl
      (List.forall_mem_singleton.mpr plain) (.body _)⟩

/-- The mark has the two bytes that its type asks for, and is still not taken back. -/
theorem extract_populate_two_bytes :
    Mirrored (Acorn.body Acorn.twoBytes) Acorn.properties Acorn.member ∧
      bind (Acorn.body Acorn.twoBytes) Acorn.properties .empty {} =
        .ok (mirror (Acorn.body Acorn.twoBytes) Acorn.member {}) ∧
      (mirror (Acorn.body Acorn.twoBytes) Acorn.member {}).extract ⟨3, [1, 2]⟩ =
        .ok (.record [("weight", .long 3), ("mark", .bytes [1, 2])]) ∧
      ((mirror (Acorn.body Acorn.twoBytes) Acorn.member {}).populate
        (.record [("weight", .long 3), ("mark", .bytes [1, 2])])).run.run ⟨5, []⟩ =
          (.error (.field "mark" (.nonConforming "mark" .fixed (.primitive .bytes))), ⟨5, []⟩) :=
  ⟨Acorn.body_mirrored Acorn.twoBytes (.inr rfl) (.fixed (.body _)), rfl, rfl, rfl⟩

end RecordBinding

end SchemaBinding
