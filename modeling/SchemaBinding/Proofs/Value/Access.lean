import SchemaBinding.Proofs.Outcome
import SchemaBinding.Proofs.Value.Conformance
import SchemaBinding.Value.Accessor

/-!
# Typed access and conformance

What conforms to a type is what can be read as data of that type.
-/

namespace SchemaBinding

namespace Value

variable {types : Definitions} {p : Primitive} {v : Value}

/-! ## Conformance to a primitive type -/

theorem isSome_carrier? : (carrier? p v).isSome = (v.kind == .primitive p) := by
  cases p <;> cases v <;> rfl

theorem conforms_primitive : v.conforms (.primitive p) types = (carrier? p v.unwrap).isSome := by
  rw [conforms_plain rfl rfl, fits_primitive, isSome_carrier?]

/-! ## What can be read -/

theorem unwrap_unwrap : v.unwrap.unwrap = v.unwrap := unwrap_of_bare v.unwrap_ne_union

@[simp]
theorem unwrap_ofCarrier (p : Primitive) (c : p.Carrier) :
    (ofCarrier p c).unwrap = ofCarrier p c := by
  cases p <;> rfl

theorem carrier?_ofCarrier (p : Primitive) (c : p.Carrier) : carrier? p (ofCarrier p c) = some c :=
  carrier?_eq_some.mpr rfl

theorem read_ofCarrier (p : Primitive) (c : p.Carrier) : (ofCarrier p c).read p = .ok c := by
  simp [read, carrier?_ofCarrier]

theorem read_eq_ok {c : p.Carrier} : v.read p = .ok c ↔ v.unwrap = ofCarrier p c := by
  rw [← carrier?_eq_some]
  unfold read
  cases carrier? p v.unwrap <;> simp

theorem readList_eq_ok {contents : List p.Carrier} : v.readList (read p) = .ok contents ↔
    ∃ items, v.unwrap = array items ∧
      List.Forall₂ (fun item content => item.unwrap = ofCarrier p content) items contents := by
  unfold readList
  split
  · next items h => simp only [h, Result.mapM_eq_ok, read_eq_ok, array.injEq, exists_eq_left']
  · next other notArray =>
    constructor
    · nofun
    · rintro ⟨items, h, -⟩
      exact absurd h (notArray items)

theorem isOk_read (v : Value) (types : Definitions) :
    (v.read p).isOk = v.conforms (.primitive p) types := by
  rw [conforms_primitive]
  unfold read
  cases carrier? p v.unwrap <;> rfl

theorem isOk_readOptional : (v.readOptional (read p)).isOk =
    (v.conforms (.primitive .null) types || v.conforms (.primitive p) types) := by
  have some : (v.unwrap.read p).isOk = v.conforms (.primitive p) types := by
    rw [isOk_read _ types, conforms_primitive, conforms_primitive, unwrap_unwrap]
  rw [← some, conforms_primitive]
  unfold readOptional
  split
  · next null => rw [null]; rfl
  · next notNull =>
    have other : (carrier? .null v.unwrap).isSome = false := by
      cases h : v.unwrap <;> first | rfl | exact absurd h notNull
    rw [other, Result.isOk_map, Bool.false_or]

theorem isOk_readList : (v.readList (read p)).isOk = v.conforms (.array (.primitive p)) types := by
  rw [← conforms_unwrap]
  unfold readList
  split
  · next items h =>
    rw [h, conforms_items, Result.isOk_mapM]
    simp only [isOk_read _ types]
  · next other notArray =>
    symm
    apply Bool.eq_false_iff.mpr
    intro conforms
    obtain ⟨items, h⟩ := eq_array_of_conforms v.unwrap_ne_union conforms
    exact notArray items h

end Value

/-! ## Kinds of access -/

/-- How a program reads a value: as data of a primitive type, as such data or nothing, as a list. -/
inductive Access where
  | plain (p : Primitive)
  | optional (p : Primitive)
  | list (p : Primitive)

namespace Access

def Content : Access → Type
  | plain p => p.Carrier
  | optional p => Option p.Carrier
  | list p => List p.Carrier

def read : (a : Access) → Value → Except ValueError a.Content
  | plain p, v => v.read p
  | optional p, v => v.readOptional (Value.read p)
  | list p, v => v.readList (Value.read p)

/-- The types that a kind of access is made for. In a union the null may come first or last. -/
inductive Suits : Access → Schema → Prop
  | plain (p : Primitive) : Suits (plain p) (.primitive p)
  | nullFirst (p : Primitive) : Suits (optional p) (.union [.primitive .null, .primitive p])
  | nullLast (p : Primitive) : Suits (optional p) (.union [.primitive p, .primitive .null])
  | list (p : Primitive) : Suits (list p) (.array (.primitive p))

theorem Suits.isOk_read {a : Access} {s : Schema} (h : a.Suits s) (v : Value)
    (types : Definitions) : (a.read v).isOk = v.conforms s types := by
  cases h with
  | plain p => exact v.isOk_read types
  | nullFirst p => rw [Value.conforms_pair]; exact Value.isOk_readOptional
  | nullLast p => rw [Value.conforms_pair, Bool.or_comm]; exact Value.isOk_readOptional
  | list p => exact Value.isOk_readList

end Access

/--
A value conforms to a primitive type, to that type or null, or to an array of it, just when it can
be read as such, whatever names are known. A list that is read has the data of each item in order.
-/
theorem Value.conforms_iff_readable (v : Value) (types : Definitions) (p : Primitive) :
    (v.conforms (.primitive p) types = true ↔ (v.read p).isOk = true) ∧
    (v.conforms (.union [.primitive .null, .primitive p]) types = true ↔
      (v.readOptional (Value.read p)).isOk = true) ∧
    (v.conforms (.union [.primitive p, .primitive .null]) types = true ↔
      (v.readOptional (Value.read p)).isOk = true) ∧
    (v.conforms (.array (.primitive p)) types = true ↔ (v.readList (Value.read p)).isOk = true) ∧
    ∀ contents, v.readList (Value.read p) = .ok contents ↔
      ∃ items, v.unwrap = .array items ∧
        List.Forall₂ (fun item content => item.unwrap = ofCarrier p content) items contents := by
  have agree : ∀ {a : Access} {s : Schema}, a.Suits s →
      (v.conforms s types = true ↔ (a.read v).isOk = true) := by
    intro a s suits
    rw [suits.isOk_read v types]
  exact ⟨agree (.plain p), agree (.nullFirst p), agree (.nullLast p), agree (.list p),
    fun _ => readList_eq_ok⟩

/-- Wrappers do not count, neither around the array nor around its items. -/
example : (Value.union 1 (.array [.int 3, .union 0 (.int 4)])).readList (Value.read .int) =
    .ok [(3 : Int32), (4 : Int32)] := rfl

end SchemaBinding
