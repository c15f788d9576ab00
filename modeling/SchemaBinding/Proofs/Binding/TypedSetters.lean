import SchemaBinding.Proofs.Binding.Writes
import SchemaBinding.Proofs.Value.Access

/-!
# Typed setters

A setter that reads data of the type of its field never refuses what has passed the checks.
-/

namespace SchemaBinding

variable {σ : Type}

/-! ## One setter -/

def Access.setter (a : Access) (store : a.Content → σ → σ) (v : Value) :
    Step ValueError σ Unit := do
  let content ← a.read v
  modify (store content)

theorem Access.setter_accepts {a : Access} {store : a.Content → σ → σ} {v : Value}
    (readable : (a.read v).isOk = true) (x : σ) :
    ∃ y, (a.setter store v).run.run x = (.ok (), y) := by
  obtain ⟨content, read⟩ := Result.isOk_eq_true.mp readable
  have lifted : (liftM (a.read v) : Step ValueError σ a.Content).run.run x = (.ok content, x) := by
    rw [Step.run_lift, read]
  exact ⟨store content x, Step.run_bind_of_ok lifted⟩

/-- A bound field has no converter, and its setter, if any, reads values of the field's type. -/
structure FieldBinding.Typed (f : FieldBinding σ) : Prop where
  direct : ∀ b, f.binding = some b → b.converter = none
  setter : ∀ b setter, f.binding = some b → b.property.setter = some setter →
    ∃ a : Access, ∃ store, a.Suits f.field.type ∧ setter = a.setter store

theorem FieldBinding.Typed.of_suits {f : FieldBinding σ} {b : Binding σ} {a : Access}
    {store : a.Content → σ → σ} (bound : f.binding = some b) (direct : b.converter = none)
    (has : b.property.setter = some (a.setter store)) (suits : a.Suits f.field.type) : f.Typed := by
  constructor
  · intro other same
    obtain rfl := Option.some.inj (bound.symm.trans same)
    exact direct
  · intro other setter same hasOther
    obtain rfl := Option.some.inj (bound.symm.trans same)
    exact ⟨a, store, suits, Option.some.inj (hasOther.symm.trans has)⟩

namespace RecordBinding

variable {r : RecordBinding σ} {input : Value} {f : FieldBinding σ} {b : Binding σ} {v : Value}

theorem Resolves.conforms (h : r.Resolves input f b v) (direct : b.converter = none) :
    v.conforms f.field.type r.types = true := by
  obtain ⟨value, -, passes, -, converts⟩ := h
  unfold Binding.Converts at converts
  rw [direct] at converts
  rw [converts]
  exact passes.conforms

theorem Resolves.accepts (h : r.Resolves input f b v) (bound : f.binding = some b)
    (typed : f.Typed) : b.property.Accepts v := by
  have conforms := h.conforms (typed.direct b bound)
  obtain ⟨-, -, -, writable, -⟩ := h
  obtain ⟨setter, has⟩ := Option.isSome_iff_exists.mp writable
  obtain ⟨a, store, suits, rfl⟩ := typed.setter b setter bound has
  intro x
  unfold Property.set
  rw [has]
  apply Access.setter_accepts
  rw [suits.isOk_read v r.types, conforms]

/-! ## The whole record -/

/--
No setter refuses a value that has passed the checks. So an object fails to be populated just when a
check fails, and then it is left as it was.
-/
theorem populate_typed (typed : ∀ f ∈ r.fields, f.Typed) :
    (∀ input, ∀ f ∈ r.fields, ∀ b v, f.binding = some b → r.Resolves input f b v →
      b.property.Accepts v) ∧
    ∀ value x y e, (r.populate value).run.run x = (.error e, y) ↔
      y = x ∧ r.resolve value = .error e := by
  have accepts : ∀ input, ∀ f ∈ r.fields, ∀ b v, f.binding = some b → r.Resolves input f b v →
      b.property.Accepts v :=
    fun input f mem b v bound resolves => resolves.accepts bound (typed f mem)
  refine ⟨accepts, fun value x y e => ?_⟩
  rw [populate_run]
  cases resolved : r.resolve value with
  | error cause =>
    constructor
    · intro h
      cases h
      exact ⟨rfl, rfl⟩
    · rintro ⟨rfl, h⟩
      cases h
      rfl
  | ok writes =>
    -- All writes succeed, so there is no error on either side.
    obtain ⟨input, -, plan⟩ := Result.bind_eq_ok.mp resolved
    have planned := planned_of_resolveFields plan
    have each : ∀ w ∈ writes, w.1.property.Accepts w.2 := by
      intro w mem
      obtain ⟨f, memF, bound, resolves⟩ := planned.field_of_mem mem
      exact accepts input f memF _ _ bound resolves
    obtain ⟨y', written⟩ := written_of_accepts each x
    have run : (writeAll writes).run.run x = (.ok (), y') := writeAll_eq_ok.mpr written
    dsimp only
    rw [run]
    constructor
    · intro h
      cases h
    · rintro ⟨-, h⟩
      cases h

/-! ### A young tree -/

structure Sapling where
  label : Option String
  rings : List Int32
  height : Int64

namespace Sapling

def labelProperty : Property Sapling where
  name := "label"
  declaring := "Sapling"
  shape := .optional .text
  get tree := (tree.label.map .string).getD .null
  setter := some (Access.setter (.optional .string) fun label tree => { tree with label })

def ringsProperty : Property Sapling where
  name := "rings"
  declaring := "Sapling"
  shape := .list .int32
  get tree := .array (tree.rings.map .int)
  setter := some (Access.setter (.list .int) fun rings tree => { tree with rings })

def heightProperty : Property Sapling where
  name := "height"
  declaring := "Sapling"
  shape := .int64
  get tree := .long tree.height
  setter := some (Access.setter (.plain .long) fun height tree => { tree with height })

def fields : List (FieldBinding Sapling) := [
  ⟨{ name := ⟨"label", by decide⟩, type := .union [.primitive .string, .primitive .null] },
    some ⟨labelProperty, .union, none⟩⟩,
  ⟨{ name := ⟨"rings", by decide⟩, type := .array (.primitive .int) },
    some ⟨ringsProperty, .array, none⟩⟩,
  ⟨{ name := ⟨"height", by decide⟩, type := .primitive .long },
    some ⟨heightProperty, .primitive .long, none⟩⟩]

def binding : RecordBinding Sapling where
  record := "Sapling"
  fields := fields
  types := .empty
  config := {}

theorem typed : ∀ f ∈ binding.fields, f.Typed :=
  List.forall_mem_cons.mpr ⟨.of_suits rfl rfl rfl (.nullLast .string),
    List.forall_mem_cons.mpr ⟨.of_suits rfl rfl rfl (.list .int),
      List.forall_mem_singleton.mpr (.of_suits rfl rfl rfl (.plain .long))⟩⟩

def survey : Value := .record [("rings", .array [.int 1, .union 4 (.int 2)]),
  ("label", .union 0 (.string "oak")), ("height", .string "tall")]

end Sapling

theorem populate_typed_sapling :
    (∀ f ∈ Sapling.binding.fields, f.Typed) ∧
      Sapling.labelProperty.Accepts (.union 0 (.string "oak")) ∧
      (Sapling.binding.populate Sapling.survey).run.run ⟨none, [7], 12⟩ =
        (.error (.field "height" (.nonConforming "height" (.primitive .long) (.primitive .string))),
          ⟨none, [7], 12⟩) := by
  obtain ⟨accepts, fails⟩ := populate_typed Sapling.typed
  have resolves : Sapling.binding.Resolves Sapling.survey (Sapling.fields.head (by decide))
      ⟨Sapling.labelProperty, .union, none⟩ (.union 0 (.string "oak")) :=
    ⟨_, .given rfl, ⟨rfl, nofun⟩, rfl, rfl⟩
  exact ⟨Sapling.typed, accepts _ _ List.mem_cons_self _ _ rfl resolves,
    (fails ..).mpr ⟨rfl, rfl⟩⟩

end RecordBinding

end SchemaBinding
