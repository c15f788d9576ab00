import Mathlib.Data.List.Nodup
import SchemaBinding.Converter.Registry
import SchemaBinding.Proofs.Outcome

/-!
# What a registry offers

A registry that was filled registration by registration has every place at most once.
-/

namespace SchemaBinding

/-- What must not be taken twice: the kind of the converter and what it is for. -/
def Registration.place (g : Registration) : Kind × Registry.Key := (g.converter.kind, g.key)

theorem Registration.mem_places {gs : List Registration} {key : Registry.Key}
    {converter : Converter} {kind : Kind} (mem : ⟨key, converter⟩ ∈ gs)
    (same : converter.kind = kind) : (kind, key) ∈ gs.map Registration.place := by
  subst same
  exact List.mem_map_of_mem mem

namespace Registry

open Registration (mem_places)

variable {r r' : Registry} {g : Registration} {gs : List Registration} {kind : Kind} {key : Key}
  {shape : Shape} {converter : Converter}

/-! ## Places -/

def places (r : Registry) : List (Kind × Key) := r.registrations.map Registration.place

theorem find?_eq_none : r.find? kind key = none ↔ (kind, key) ∉ r.places := by
  unfold find? places
  rw [Option.map_eq_none_iff, List.find?_eq_none]
  constructor
  · intro none taken
    obtain ⟨g, mem, at'⟩ := List.mem_map.mp taken
    obtain ⟨rfl, rfl⟩ := Prod.mk.inj at'
    exact none g mem (by simp)
  · intro free g mem here
    simp only [Bool.and_eq_true, beq_iff_eq] at here
    obtain ⟨rfl, rfl⟩ := here
    exact free (List.mem_map_of_mem mem)

theorem mem_of_find? (h : r.find? kind key = some converter) :
    ⟨key, converter⟩ ∈ r.registrations ∧ converter.kind = kind := by
  obtain ⟨g, found, rfl⟩ := Option.map_eq_some_iff.mp h
  have here := List.find?_some found
  simp only [Bool.and_eq_true, beq_iff_eq] at here
  obtain ⟨rfl, rfl⟩ := here
  exact ⟨List.mem_of_find?_eq_some found, rfl⟩

theorem find?_eq_some (distinct : r.places.Nodup) :
    r.find? kind key = some converter ↔
      ⟨key, converter⟩ ∈ r.registrations ∧ converter.kind = kind := by
  refine ⟨mem_of_find?, ?_⟩
  rintro ⟨mem, rfl⟩
  cases found : r.find? converter.kind key with
  | none => exact absurd (mem_places mem rfl) (find?_eq_none.mp found)
  | some other =>
    obtain ⟨mem', same⟩ := mem_of_find? found
    have place : Registration.place ⟨key, other⟩ = Registration.place ⟨key, converter⟩ :=
      Prod.ext same rfl
    cases List.inj_on_of_nodup_map distinct mem' mem place
    rfl

/-! ## Registering -/

theorem add_eq_ok : r.add g = .ok r' ↔ g.place ∉ r.places ∧ ⟨r.registrations ++ [g]⟩ = r' := by
  unfold add
  have free : r.find? g.converter.kind g.key = none ↔ g.place ∉ r.places := find?_eq_none
  rw [← free]
  cases r.find? g.converter.kind g.key with
  | some other => simp
  | none => simp

theorem nodup_places_concat :
    (places ⟨r.registrations ++ [g]⟩).Nodup ↔ g.place ∉ r.places ∧ r.places.Nodup := by
  unfold places
  rw [List.map_append, List.nodup_append_comm]
  exact List.nodup_cons

theorem addAll_eq_ok (distinct : r.places.Nodup) : r.addAll gs = .ok r' ↔
    ((r.registrations ++ gs).map Registration.place).Nodup ∧ ⟨r.registrations ++ gs⟩ = r' := by
  induction gs generalizing r with
  | nil =>
    rw [List.append_nil]
    exact ⟨fun h => ⟨distinct, Except.ok.inj h⟩, fun ⟨_, same⟩ => congrArg Except.ok same⟩
  | cons g gs ih =>
    rw [List.append_cons]
    unfold addAll
    rw [List.foldlM_cons, Result.bind_eq_ok]
    constructor
    · rintro ⟨between, first, rest⟩
      obtain ⟨free, rfl⟩ := add_eq_ok.mp first
      exact (ih (nodup_places_concat.mpr ⟨free, distinct⟩)).mp rest
    · rintro ⟨all, rfl⟩
      have distinct' : (places ⟨r.registrations ++ [g]⟩).Nodup := by
        rw [List.map_append] at all
        exact (List.nodup_append.mp all).1
      have free := (nodup_places_concat.mp distinct').1
      exact ⟨_, add_eq_ok.mpr ⟨free, rfl⟩, (ih distinct').mpr ⟨all, rfl⟩⟩

/-! ## Looking up -/

/-- The converter that the registrations have for a kind and a shape. -/
inductive Offered (gs : List Registration) (kind : Kind) (shape : Shape) (converter : Converter) :
    Prop
  | exact (mem : ⟨.exact shape, converter⟩ ∈ gs) (same : converter.kind = kind)
  | family (none : (kind, .exact shape) ∉ gs.map Registration.place)
      (mem : ⟨.family shape.family, converter⟩ ∈ gs) (same : converter.kind = kind)

theorem lookup_offered (distinct : r.places.Nodup) :
    (r.lookup kind shape).map Match.converter = some converter ↔
      Offered r.registrations kind shape converter := by
  unfold lookup
  cases found : r.find? kind (.exact shape) with
  | some other =>
    obtain ⟨mem, same⟩ := mem_of_find? found
    constructor
    · rintro ⟨⟩
      exact .exact mem same
    · rintro (⟨mem', same'⟩ | ⟨none, -, -⟩)
      · rw [(find?_eq_some distinct).mpr ⟨mem', same'⟩] at found
        cases found
        rfl
      · exact absurd (mem_places mem same) none
  | none =>
    have free := find?_eq_none.mp found
    rw [Option.map_map, show Match.converter ∘ Match.family = id from rfl, Option.map_id]
    constructor
    · intro h
      obtain ⟨mem, same⟩ := mem_of_find? h
      exact .family free mem same
    · rintro (⟨mem, same⟩ | ⟨-, mem, same⟩)
      · exact absurd (mem_places mem same) free
      · exact (find?_eq_some distinct).mpr ⟨mem, same⟩

theorem kind_of_lookup {found : Match} (h : r.lookup kind shape = some found) :
    found.converter.kind = kind := by
  unfold lookup at h
  split at h
  · next exact =>
    cases h
    exact (mem_of_find? exact).2
  · obtain ⟨converter, family, rfl⟩ := Option.map_eq_some_iff.mp h
    exact (mem_of_find? family).2

/-! ## Where registries start -/

variable {base : Registry}

theorem nodup_of_start (start : base = .empty ∨ base = .defaults) : base.places.Nodup := by
  rcases start with rfl | rfl
  · exact .nil
  · exact List.nodup_singleton _

theorem fit_of_start (start : base = .empty ∨ base = .defaults) :
    ∀ g ∈ base.registrations, g.converter.exposed.holds g.converter.kind = true := by
  rcases start with rfl | rfl
  · simp [empty]
  · simp only [defaults, List.forall_mem_singleton]
    decide

/-! ## Unfit converters -/

/-- The converter for a kind and a shape exposes a shape that cannot hold the kind. -/
def Unfit (gs : List Registration) (kind : Kind) (shape : Shape) : Prop :=
  ∃ converter, Offered gs kind shape converter ∧ converter.exposed.holds kind = false

theorem not_unfit (fit : ∀ g ∈ gs, g.converter.exposed.holds g.converter.kind = true) :
    ¬ Unfit gs kind shape := by
  rintro ⟨converter, ⟨mem, rfl⟩ | ⟨-, mem, rfl⟩, unfit⟩
  all_goals
    have holds := fit _ mem
    simp [unfit] at holds

theorem unfit_iff_of_lookup {found : Match} (distinct : r.places.Nodup)
    (offered : r.lookup kind shape = some found) :
    Unfit r.registrations kind shape ↔ found.converter.exposed.holds kind = false := by
  have looked : (r.lookup kind shape).map Match.converter = some found.converter := by
    rw [offered]
    rfl
  constructor
  · rintro ⟨converter, other, unfit⟩
    have same := (lookup_offered distinct).mpr other
    rw [looked] at same
    rwa [Option.some.inj same]
  · intro unfit
    exact ⟨_, (lookup_offered distinct).mp looked, unfit⟩

end Registry

end SchemaBinding
