import SchemaBinding.Proofs.Binding.TypedSetters

/-!
# Union wrappers

Conformance and typed access look through union wrappers. Populating an object does not quite.
-/

namespace SchemaBinding

variable {σ : Type}

/-! ## Wrapped values -/

namespace Value

/-- The value under union wrappers, the first of them outermost. -/
def under (branches : List Int32) (v : Value) : Value := branches.foldr .union v

@[simp]
theorem unwrap_under (branches : List Int32) (v : Value) :
    (v.under branches).unwrap = v.unwrap := by
  induction branches with
  | nil => rfl
  | cons branch branches ih => exact ih

theorem under_ne_array {branches : List Int32} (wrapped : branches ≠ []) (v : Value)
    (items : List Value) : v.under branches ≠ .array items := by
  cases branches with
  | nil => exact absurd rfl wrapped
  | cons branch branches => exact nofun

/-- Two values are the same but for the wrappers around them. -/
def Alike (v w : Value) : Prop := v.unwrap = w.unwrap

variable {v w : Value}

theorem alike_under (branches : List Int32) (v : Value) : (v.under branches).Alike v :=
  unwrap_under branches v

theorem Alike.conforms (h : v.Alike w) (s : Schema) (types : Definitions) :
    v.conforms s types = w.conforms s types := by
  rw [← conforms_unwrap, h, conforms_unwrap]

theorem Alike.read (h : v.Alike w) (a : Access) : a.read v = a.read w := by
  unfold Alike at h
  cases a with
  | plain p =>
    change v.read p = w.read p
    simp only [Value.read, h]
  | optional p =>
    change v.readOptional (Value.read p) = w.readOptional (Value.read p)
    simp only [readOptional, h]
  | list p =>
    change v.readList (Value.read p) = w.readList (Value.read p)
    simp only [readList, h]

/-! ### One entry of a record -/

variable {before after : List (String × Value)} {name : String}

theorem field?_entry (first : before.lookup name = none) :
    (record (before ++ (name, v) :: after)).field? name = some v := by
  simp [field?, List.lookup_append, first]

theorem field?_other {n : String} (other : n = name → before.lookup name ≠ none) :
    (record (before ++ (name, v) :: after)).field? n =
      (record (before ++ (name, w) :: after)).field? n := by
  unfold field?
  simp only [List.lookup_append]
  by_cases same : n = name
  · subst same
    obtain ⟨found, h⟩ := Option.ne_none_iff_exists'.mp (other rfl)
    simp [h]
  · simp [List.lookup_cons, beq_false_of_ne same]

end Value

/-! ## Results of which both fail or neither -/

/-- Both fail, or both succeed with related results. -/
inductive Result.Both {ε α β : Type} (R : α → β → Prop) : Except ε α → Except ε β → Prop
  | ok {a : α} {b : β} (h : R a b) : Both R (.ok a) (.ok b)
  | error (e e' : ε) : Both R (.error e) (.error e')

namespace Result.Both

variable {ε α β γ δ : Type} {R : α → β → Prop} {S : γ → δ → Prop} {x : Except ε α}
  {y : Except ε β} {f : α → Except ε γ} {g : β → Except ε δ}

theorem bind (h : Both R x y) (next : ∀ a b, R a b → Both S (f a) (g b)) :
    Both S (x >>= f) (y >>= g) := by
  cases h with
  | ok h => exact next _ _ h
  | error e e' => exact .error e e'

theorem self {R : α → α → Prop} (refl : ∀ a, R a a) (x : Except ε α) : Both R x x := by
  cases x with
  | ok a => exact .ok (refl a)
  | error e => exact .error e e

end Result.Both

open Result

/-! ## One field -/

/-- A bound field has no converter, and its setter, if any, reads its value as typed data. -/
structure FieldBinding.Accessed (f : FieldBinding σ) : Prop where
  direct : ∀ b, f.binding = some b → b.converter = none
  setter : ∀ b setter, f.binding = some b → b.property.setter = some setter →
    ∃ a : Access, ∃ store, setter = a.setter store

theorem FieldBinding.Typed.accessed {f : FieldBinding σ} (h : f.Typed) : f.Accessed where
  direct := h.direct
  setter b setter bound has := by
    obtain ⟨a, store, -, own⟩ := h.setter b setter bound has
    exact ⟨a, store, own⟩

theorem FieldBinding.Accessed.set_alike {f : FieldBinding σ} {b : Binding σ} {v w : Value}
    (h : f.Accessed) (bound : f.binding = some b) (alike : v.Alike w) :
    b.property.set v = b.property.set w := by
  unfold Property.set
  split
  · next setter has =>
    obtain ⟨a, store, rfl⟩ := h.setter b setter bound has
    simp only [Access.setter, alike.read a]
  · rfl

/-- Two inputs give a field the same value or, if it is no array, values that are alike. -/
inductive FieldBinding.SeesAlike (f : FieldBinding σ) (input other : Value) : Prop
  | same (h : input.field? f.field.name.text = other.field? f.field.name.text) :
      SeesAlike f input other
  | alike {v w : Value} (notArray : f.field.type.kind ≠ .array)
      (left : input.field? f.field.name.text = some v)
      (right : other.field? f.field.name.text = some w) (h : v.Alike w) : SeesAlike f input other

namespace RecordBinding

variable {r : RecordBinding σ} {input other : Value} {f : FieldBinding σ} {b : Binding σ}

theorem check_alike {v w : Value} (accessed : f.Accessed) (bound : f.binding = some b)
    (notArray : f.field.type.kind ≠ .array) (alike : v.Alike w) :
    Both (fun v w => b.property.set v = b.property.set w) (r.check f b v) (r.check f b w) := by
  unfold check
  dsimp only
  rw [alike.conforms, if_neg notArray, if_neg notArray]
  split
  · unfold Binding.fromSchema
    rw [accessed.direct b bound]
    split
    · exact .ok (accessed.set_alike bound alike)
    · exact .error _ _
  · exact .error _ _

theorem resolveField_alike (accessed : f.Accessed) (bound : f.binding = some b)
    (h : f.SeesAlike input other) :
    Both (fun v w => b.property.set v = b.property.set w) (r.resolveField input f b)
      (r.resolveField other f b) := by
  rw [resolveField_eq, resolveField_eq]
  cases h with
  | same h =>
    have supply : r.supply input f = r.supply other f := by rw [RecordBinding.supply, h]; rfl
    rw [supply]
    exact .self (fun v => (rfl : b.property.set v = _)) _
  | alike notArray left right h =>
    rw [supply_eq_ok.mpr (.given left), supply_eq_ok.mpr (.given right)]
    exact check_alike accessed bound notArray h

/-! ## All fields -/

theorem resolveFields_alike {fs : List (FieldBinding σ)} (accessed : ∀ f ∈ fs, f.Accessed)
    (sees : ∀ f ∈ fs, f.binding ≠ none → f.SeesAlike input other) :
    Both (fun ws ws' => writeAll ws = writeAll ws') (r.resolveFields input fs)
      (r.resolveFields other fs) := by
  induction fs with
  | nil => exact .ok rfl
  | cons f fs ih =>
    obtain ⟨own, others⟩ := List.forall_mem_cons.mp accessed
    obtain ⟨ownSees, othersSee⟩ := List.forall_mem_cons.mp sees
    unfold resolveFields
    split
    · exact ih others othersSee
    · next b bound =>
      have field := resolveField_alike (r := r) own bound (ownSees (by simp [bound]))
      refine field.bind fun v w set => (ih others othersSee).bind fun ws ws' writes => .ok ?_
      simp only [writeAll, Binding.write, set, writes]

/-- Both values populate an object or neither does, and either way they leave it the same. -/
def SameOutcome (r : RecordBinding σ) (v w : Value) : Prop := ∀ x,
  ((r.populate v).run.run x).1.isOk = ((r.populate w).run.run x).1.isOk ∧
    ((r.populate v).run.run x).2 = ((r.populate w).run.run x).2

theorem sameOutcome_of_resolve {v w : Value}
    (h : Both (fun ws ws' => writeAll ws = writeAll ws') (r.resolve v) (r.resolve w)) :
    r.SameOutcome v w := by
  intro x
  rw [populate_run, populate_run]
  generalize r.resolve v = left at h ⊢
  generalize r.resolve w = right at h ⊢
  cases h with
  | ok writes => simp only [writes, and_self]
  | error e e' => exact ⟨rfl, rfl⟩

/-! ## Wrapping -/

variable {before after : List (String × Value)} {name : String} {branches : List Int32} {v : Value}

/-- The wrapped value is that of a field which goes to a property as an array. -/
structure Bars (r : RecordBinding σ) (before : List (String × Value)) (name : String)
    (branches : List Int32) : Prop where
  wrapped : branches ≠ []
  first : before.lookup name = none
  array : ∃ f ∈ r.fields, f.field.name.text = name ∧ f.binding ≠ none ∧ f.field.type.kind = .array

theorem sees_under (bound : f.binding ≠ none) (mem : f ∈ r.fields)
    (free : ¬ r.Bars before name branches) :
    f.SeesAlike (.record (before ++ (name, v.under branches) :: after))
      (.record (before ++ (name, v) :: after)) := by
  by_cases own : f.field.name.text = name ∧ before.lookup name = none
  · -- The entry is the one that the field sees: wrapped or not, unless it is to be an array.
    obtain ⟨rfl, first⟩ := own
    by_cases array : f.field.type.kind = .array
    · obtain rfl : branches = [] :=
        Decidable.of_not_not fun wrapped => free ⟨wrapped, first, f, mem, rfl, bound, array⟩
      exact .same rfl
    · exact .alike array (Value.field?_entry first) (Value.field?_entry first)
        (Value.alike_under branches v)
  · exact .same (Value.field?_other fun same first => own ⟨same, first⟩)

theorem populate_barred (bars : r.Bars before name branches) (v : Value) (x : σ) :
    ∃ e, (r.populate (.record (before ++ (name, v.under branches) :: after))).run.run x =
      (.error e, x) := by
  obtain ⟨wrapped, first, f, mem, rfl, bound, array⟩ := bars
  obtain ⟨b, bound⟩ := Option.ne_none_iff_exists'.mp bound
  refine populate_stuck rfl mem bound (fun converted resolves => ?_) x
  obtain ⟨value, supplied, passes, -⟩ := resolves
  obtain rfl := supplied.unique (.given (Value.field?_entry first))
  obtain ⟨items, bare⟩ := passes.isArray array
  exact Value.under_ne_array wrapped v items bare

/--
A record may come in one wrapper, and with more it is no record. A wrapped value stops the record
exactly when a property is to take it as an array; otherwise nothing but the error can differ.
-/
theorem populate_wrapped (accessed : ∀ f ∈ r.fields, f.Accessed) :
    (∀ entries branches,
      (branches.length ≤ 1 →
        r.populate (.under branches (.record entries)) = r.populate (.record entries)) ∧
      (2 ≤ branches.length → ∀ x,
        (r.populate (.under branches (.record entries))).run.run x =
          (.error (.notARecord r.record .union), x))) ∧
    ∀ before name v after branches,
      (r.Bars before name branches → ∀ x, ∃ e,
        (r.populate (.record (before ++ (name, v.under branches) :: after))).run.run x =
          (.error e, x)) ∧
      (¬ r.Bars before name branches →
        r.SameOutcome (.record (before ++ (name, v.under branches) :: after))
          (.record (before ++ (name, v) :: after))) := by
  refine ⟨fun entries branches => ?_, fun before name v after branches => ⟨?_, ?_⟩⟩
  · match branches with
    | [] | [_] => exact ⟨fun _ => rfl, by simp⟩
    | _ :: _ :: _ => exact ⟨by simp, fun _ _ => rfl⟩
  · intro bars x
    exact populate_barred bars v x
  · intro free
    exact sameOutcome_of_resolve
      (resolveFields_alike accessed fun f mem bound => sees_under bound mem free)

/-! ### A wrapped sapling -/

namespace Sapling

def wrapped (label rings whole : List Int32) : Value :=
  .under whole (.record [("label", .under label (.string "oak")),
    ("rings", .under rings (.array [.int 1, .int 2])), ("height", .long 30)])

theorem accessed : ∀ f ∈ binding.fields, f.Accessed := fun f mem => (typed f mem).accessed

theorem label_free (branches : List Int32) : ¬ binding.Bars [] "label" branches := by
  rintro ⟨-, -, f, mem, name, -, array⟩
  simp only [binding, fields, List.mem_cons, List.not_mem_nil, or_false] at mem
  rcases mem with rfl | rfl | rfl
  · cases array
  · exact absurd name (by decide)
  · exact absurd name (by decide)

theorem rings_barred {before : List (String × Value)} {branches : List Int32}
    (wrapped : branches ≠ []) (first : before.lookup "rings" = none) :
    binding.Bars before "rings" branches :=
  ⟨wrapped, first, _, List.mem_cons_of_mem _ List.mem_cons_self, rfl, nofun, rfl⟩

end Sapling

theorem populate_wrapped_sapling :
    (∀ branches, Sapling.binding.SameOutcome (Sapling.wrapped branches [] [])
      (Sapling.wrapped [] [] [])) ∧
    (∀ branch branches x, ∃ e,
      (Sapling.binding.populate (Sapling.wrapped [] (branch :: branches) [])).run.run x =
        (.error e, x)) ∧
    (∀ branch, Sapling.binding.populate (Sapling.wrapped [] [] [branch]) =
      Sapling.binding.populate (Sapling.wrapped [] [] [])) ∧
    ∀ outer inner branches x,
      (Sapling.binding.populate (Sapling.wrapped [] [] (outer :: inner :: branches))).run.run x =
        (.error (.notARecord "Sapling" .union), x) := by
  obtain ⟨whole, entry⟩ := populate_wrapped Sapling.accessed
  refine ⟨?_, ?_, ?_, ?_⟩
  · intro branches
    exact (entry [] "label" _ _ branches).2 (Sapling.label_free branches)
  · intro branch branches
    exact (entry [_] "rings" _ _ _).1 (Sapling.rings_barred (List.cons_ne_nil _ _) rfl)
  · intro branch
    exact (whole _ [branch]).1 (Nat.le_refl 1)
  · intro outer inner branches
    exact (whole _ (outer :: inner :: branches)).2 (by simp)

/-- A second wrapper around the record, or one around the rings, makes a good record fail. -/
theorem populate_bare_only_sapling :
    (Sapling.binding.populate (Sapling.wrapped [] [] [])).run.run ⟨none, [7], 12⟩ =
        (.ok (), ⟨some "oak", [1, 2], 30⟩) ∧
      (Sapling.binding.populate (Sapling.wrapped [] [] [0, 0])).run.run ⟨none, [7], 12⟩ =
        (.error (.notARecord "Sapling" .union), ⟨none, [7], 12⟩) ∧
      (Sapling.binding.populate (Sapling.wrapped [] [0] [])).run.run ⟨none, [7], 12⟩ =
        (.error (.field "rings" (.sequence ⟨"iterate", .union⟩)), ⟨none, [7], 12⟩) :=
  ⟨rfl, rfl, rfl⟩

end RecordBinding

end SchemaBinding
