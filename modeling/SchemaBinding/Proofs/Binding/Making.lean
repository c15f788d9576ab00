import SchemaBinding.Binding.Basic
import SchemaBinding.Proofs.Converter.Registry

/-!
# Making a binding

Each way to bind a property leaves the binding with something that serves its kind.
-/

namespace SchemaBinding

/-! ## Routes -/

namespace Route

variable {shape : Shape} {kind : Kind} {registry : Registry} {explicit : Option Converter}
  {converter : Converter} {route : Route}

/-- The way from a shape to a kind, by what was asked for. -/
inductive Leads (shape : Shape) (kind : Kind) (registry : Registry) :
    Option Converter → Route → Prop
  | direct (holds : shape.holds kind = true) : Leads shape kind registry none .direct
  | registered {found : Registry.Match} (unfit : shape.holds kind = false)
      (offered : registry.lookup kind shape = some found) :
      Leads shape kind registry none (.registered found)
  | explicit {converter : Converter} (serves : serves converter kind = true) :
      Leads shape kind registry (some converter) (.explicit converter)

theorem serves_eq_true : serves converter kind = true ↔
    (converter.kind = kind ∨ kind = .union) ∧ converter.exposed.holds kind = true := by
  unfold serves
  rw [Bool.and_eq_true, Bool.or_eq_true, beq_iff_eq, beq_iff_eq]

theorem find?_eq_some : find? shape kind explicit registry = some route ↔
    Leads shape kind registry explicit route := by
  unfold find? registryMatch
  constructor
  · intro h
    split at h
    · split at h
      · next serves =>
        cases h
        exact .explicit serves
      · cases h
    · split at h
      · next holds =>
        cases h
        exact .direct holds
      · next unfit =>
        obtain ⟨found, offered, rfl⟩ := Option.map_eq_some_iff.mp h
        have unfit := Bool.eq_false_iff.mpr unfit
        rw [unfit] at offered
        exact .registered unfit offered
  · rintro (holds | ⟨unfit, offered⟩ | serves)
    · exact if_pos holds
    · simp [unfit, offered]
    · exact if_pos serves

theorem isSome_find? : (find? shape kind explicit registry).isSome = true ↔
    explicit = none ∧ shape.holds kind = true ∨
      explicit = none ∧ (registry.lookup kind shape).isSome = true ∨
      ∃ converter, explicit = some converter ∧ (converter.kind = kind ∨ kind = .union) ∧
        converter.exposed.holds kind = true := by
  rw [Option.isSome_iff_exists]
  constructor
  · rintro ⟨route, found⟩
    rcases find?_eq_some.mp found with holds | ⟨unfit, offered⟩ | serves
    · exact .inl ⟨rfl, holds⟩
    · exact .inr (.inl ⟨rfl, Option.isSome_of_eq_some offered⟩)
    · exact .inr (.inr ⟨_, rfl, serves_eq_true.mp serves⟩)
  · rintro (⟨rfl, holds⟩ | ⟨rfl, some⟩ | ⟨converter, rfl, serves⟩)
    · exact ⟨_, find?_eq_some.mpr (.direct holds)⟩
    · obtain ⟨found, offered⟩ := Option.isSome_iff_exists.mp some
      cases fit : shape.holds kind with
      | true => exact ⟨_, find?_eq_some.mpr (.direct fit)⟩
      | false => exact ⟨_, find?_eq_some.mpr (.registered fit offered)⟩
    · exact ⟨_, find?_eq_some.mpr (.explicit (serves_eq_true.mpr serves))⟩

end Route

/-! ## Bindings -/

namespace Binding

variable {σ : Type} {property : Property σ} {kind : Kind} {explicit : Option Converter}
  {registry : Registry} {b : Binding σ}

theorem make_eq_ok : make property kind explicit registry = .ok b ↔
    ∃ route, Route.Leads property.shape kind registry explicit route ∧
      ⟨property, kind, route.converter?⟩ = b := by
  unfold make
  simp only [← Route.find?_eq_some]
  cases Route.find? property.shape kind explicit registry <;> simp

theorem make_eq_error {e : BindingError} : make property kind explicit registry = .error e ↔
    Route.find? property.shape kind explicit registry = none ∧
      .incompatible property.name property.declaring kind = e := by
  unfold make
  cases Route.find? property.shape kind explicit registry <;> simp

theorem bind_eq_ok : bind property kind registry = .ok b ↔
    ∃ route, Route.Leads property.shape kind registry property.converter route ∧
      ⟨property, kind, route.converter?⟩ = b := by
  unfold bind
  exact make_eq_ok

theorem of_bind (h : bind property kind registry = .ok b) :
    b.property = property ∧ b.kind = kind := by
  obtain ⟨route, -, rfl⟩ := bind_eq_ok.mp h
  exact ⟨rfl, rfl⟩

theorem bind_eq_error {e : BindingError} (h : bind property kind registry = .error e) :
    e = .incompatible property.name property.declaring kind := by
  unfold bind at h
  exact (make_eq_error.mp h).2.symm

theorem isOk_make : (make property kind explicit registry).isOk =
    (Route.find? property.shape kind explicit registry).isSome := by
  unfold make
  cases Route.find? property.shape kind explicit registry <;> rfl

/--
Over any registry that was filled through registrations: a property can be bound exactly when its
shape, the registry or the explicit converter serves the kind. What comes out rests on the shape of
the property, or on a converter of the kind; only an explicit one for a union may be of another. And
what the registry offers are the registrations, the one for the shape before the one for its family.
-/
theorem make_served {base : Registry} {gs : List Registration}
    (start : base = .empty ∨ base = .defaults) (filled : base.addAll gs = .ok registry)
    (property : Property σ) (kind : Kind) (explicit : Option Converter) :
    ((make property kind explicit registry).isOk = true ↔
        explicit = none ∧ property.shape.holds kind = true ∨
          explicit = none ∧ (registry.lookup kind property.shape).isSome = true ∨
          ∃ converter, explicit = some converter ∧ (converter.kind = kind ∨ kind = .union) ∧
            converter.exposed.holds kind = true) ∧
      (∀ b, make property kind explicit registry = .ok b →
        b.property = property ∧ b.kind = kind ∧
          (b.converter = none ∧ property.shape.holds kind = true ∨
            ∃ converter, b.converter = some converter ∧
              (converter.kind = kind ∨ kind = .union ∧ explicit = some converter))) ∧
      ∀ converter,
        (registry.lookup kind property.shape).map Registry.Match.converter = some converter ↔
          Registry.Offered (base.registrations ++ gs) kind property.shape converter := by
  refine ⟨by rw [isOk_make, Route.isSome_find?], fun b made => ?_, fun converter => ?_⟩
  · obtain ⟨route, leads, rfl⟩ := make_eq_ok.mp made
    refine ⟨rfl, rfl, ?_⟩
    rcases leads with holds | ⟨unfit, offered⟩ | serves
    · exact .inl ⟨rfl, holds⟩
    · exact .inr ⟨_, rfl, .inl (Registry.kind_of_lookup offered)⟩
    · obtain ⟨same | union, -⟩ := Route.serves_eq_true.mp serves
      · exact .inr ⟨_, rfl, .inl same⟩
      · exact .inr ⟨_, rfl, .inr ⟨union, rfl⟩⟩
  · have distinct : base.places.Nodup := by
      rcases start with rfl | rfl
      · exact .nil
      · exact List.nodup_singleton _
    obtain ⟨all, rfl⟩ := (Registry.addAll_eq_ok distinct).mp filled
    exact Registry.lookup_offered all

namespace Season

def leaf : Property String where
  name := "season"
  declaring := "Leaf"
  shape := .enumeration "Season"
  get := .string

def registration : Registration := .enumeration "Season" ["SPRING", "FALL"]

def seasons : Registry := ⟨Registry.defaults.registrations ++ [registration]⟩

end Season

theorem make_served_season :
    Registry.defaults.addAll [Season.registration] = .ok Season.seasons ∧
      ∃ b, make Season.leaf (.primitive .string) none Season.seasons = .ok b ∧
        b.converter = some Season.registration.converter := by
  have filled : Registry.defaults.addAll [Season.registration] = .ok Season.seasons := rfl
  obtain ⟨bound, -, offers⟩ :=
    make_served (.inr rfl) filled Season.leaf (.primitive .string) none
  have offered := (offers Season.registration.converter).mpr
    (.exact (List.mem_append_right _ (List.mem_singleton_self _)) rfl)
  obtain ⟨found, looked, same⟩ := Option.map_eq_some_iff.mp offered
  obtain ⟨b, made⟩ := Result.isOk_eq_true.mp
    (bound.mpr (.inr (.inl ⟨rfl, Option.isSome_of_eq_some looked⟩)))
  refine ⟨filled, b, made, ?_⟩
  cases made
  rfl

/-! ## Effective shapes -/

section

variable {base : Registry} {gs : List Registration}

theorem effectiveShape_of_leads {route : Route} (distinct : registry.places.Nodup)
    (leads : Route.Leads property.shape kind registry explicit route) :
    (effectiveShape ⟨property, kind, route.converter?⟩).holds kind = true ↔
      ¬ (explicit = none ∧ property.shape.holds kind = false ∧
        Registry.Unfit registry.registrations kind property.shape) := by
  cases leads with
  | direct holds => simp [effectiveShape, Route.converter?, holds]
  | registered unfit offered =>
    simp [effectiveShape, Route.converter?, unfit, Registry.unfit_iff_of_lookup distinct offered]
  | explicit serves =>
    have holds := (Route.serves_eq_true.mp serves).2
    simp [effectiveShape, Route.converter?, holds]

/--
The table is asked about the shape of the property and about an explicit converter, but not about a
converter from the registry. So a binding can hold its kind unless it got such a converter with an
unfit shape, and if none of these is registered then every binding can.
-/
theorem effectiveShape_holds_iff (start : base = .empty ∨ base = .defaults)
    (filled : base.addAll gs = .ok registry) :
    (∀ (property : Property σ) (kind : Kind) (explicit : Option Converter) (b : Binding σ),
      make property kind explicit registry = .ok b →
        (b.effectiveShape.holds b.kind = true ↔
          ¬ (explicit = none ∧ property.shape.holds kind = false ∧
            Registry.Unfit (base.registrations ++ gs) kind property.shape))) ∧
      ((∀ g ∈ gs, g.converter.exposed.holds g.converter.kind = true) →
        ∀ (property : Property σ) (kind : Kind) (explicit : Option Converter) (b : Binding σ),
          make property kind explicit registry = .ok b →
            b.effectiveShape.holds b.kind = true) := by
  obtain ⟨distinct, rfl⟩ := (Registry.addAll_eq_ok (Registry.nodup_of_start start)).mp filled
  have each : ∀ (property : Property σ) (kind : Kind) (explicit : Option Converter) (b : Binding σ),
      make property kind explicit ⟨base.registrations ++ gs⟩ = .ok b →
        (b.effectiveShape.holds b.kind = true ↔
          ¬ (explicit = none ∧ property.shape.holds kind = false ∧
            Registry.Unfit (base.registrations ++ gs) kind property.shape)) := by
    intro property kind explicit b made
    obtain ⟨route, leads, rfl⟩ := make_eq_ok.mp made
    exact effectiveShape_of_leads distinct leads
  refine ⟨each, fun fit property kind explicit b made => ?_⟩
  have all : ∀ g ∈ base.registrations ++ gs, g.converter.exposed.holds g.converter.kind = true := by
    simp only [List.forall_mem_append]
    exact ⟨Registry.fit_of_start start, fit⟩
  rw [each property kind explicit b made]
  rintro ⟨-, -, unfit⟩
  exact Registry.not_unfit all unfit

end

theorem effectiveShape_holds_season :
    Registry.defaults.addAll [Season.registration] = .ok Season.seasons ∧
      ∃ b, make Season.leaf (.primitive .string) none Season.seasons = .ok b ∧
        b.effectiveShape.holds b.kind = true := by
  have filled : Registry.defaults.addAll [Season.registration] = .ok Season.seasons := rfl
  obtain ⟨-, fits⟩ := effectiveShape_holds_iff (σ := String) (.inr rfl) filled
  exact ⟨filled, _, rfl, fits (by decide) Season.leaf (.primitive .string) none _ rfl⟩

namespace Girth

def trunk : Property Value where
  name := "girth"
  declaring := "Tree"
  shape := .compound "Girth"
  get := id

/-- Says that it gives strings, and exposes a number. -/
def registration : Registration where
  key := .exact (.compound "Girth")
  converter :=
    { name := "girth-text"
      kind := .primitive .string
      exposed := .int32
      toSchema := .ok
      fromSchema := .ok }

end Girth

/-- Through the registry a number comes to stand for a string; asked for explicitly it does not. -/
theorem effectiveShape_unfit_girth :
    ∃ b, Registry.empty.addAll [Girth.registration] = .ok ⟨[Girth.registration]⟩ ∧
      make Girth.trunk (.primitive .string) none ⟨[Girth.registration]⟩ = .ok b ∧
      b.effectiveShape.holds b.kind = false ∧
      (make Girth.trunk (.primitive .string) (some Girth.registration.converter)
        ⟨[Girth.registration]⟩).isOk = false :=
  ⟨_, rfl, rfl, rfl, rfl⟩

end Binding

end SchemaBinding
