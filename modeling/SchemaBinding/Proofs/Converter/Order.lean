import SchemaBinding.Proofs.Converter.Registry

/-!
# The order of registrations

What a registry finds can be told from the set of its registrations, whatever their order.
-/

namespace SchemaBinding.Registry

variable {r r' base : Registry} {g : Registration} {gs gs' : List Registration} {kind : Kind}
  {key : Key} {shape : Shape} {e : DuplicateConverter}

/-! ## Refused registrations -/

/-- The first registration whose place is taken, by one of those before it or one there already. -/
inductive FirstRefused (there gs : List Registration) (g : Registration) : Prop
  | mk {before after : List Registration} (split : gs = before ++ g :: after)
      (accepted : ((there ++ before).map Registration.place).Nodup)
      (taken : g.place ∈ (there ++ before).map Registration.place)

theorem add_eq_error : r.add g = .error e ↔ g.place ∈ r.places ∧ ⟨g.converter.kind, g.key⟩ = e := by
  unfold add
  have taken : (r.find? g.converter.kind g.key).isSome = true ↔ g.place ∈ r.places := by
    rw [← not_iff_not, Bool.not_eq_true, Option.isSome_eq_false_iff, Option.isNone_iff_eq_none]
    exact find?_eq_none
  rw [← taken]
  split
  · next found => simp [found]
  · next free => simp [free]

theorem firstRefused_of_addAll (distinct : r.places.Nodup) (h : r.addAll gs = .error e) :
    ∃ g, FirstRefused r.registrations gs g ∧ e = ⟨g.converter.kind, g.key⟩ := by
  induction gs generalizing r with
  | nil => cases h
  | cons g gs ih =>
    unfold addAll at h
    rw [List.foldlM_cons] at h
    rcases Result.bind_eq_error.mp h with refused | ⟨between, first, rest⟩
    · obtain ⟨taken, rfl⟩ := add_eq_error.mp refused
      refine ⟨g, .mk (List.nil_append _).symm ?_ ?_, rfl⟩
      · rwa [List.append_nil]
      · rwa [List.append_nil]
    · obtain ⟨free, rfl⟩ := add_eq_ok.mp first
      obtain ⟨g', ⟨split, accepted, taken⟩, same⟩ :=
        ih (nodup_places_concat.mpr ⟨free, distinct⟩) rest
      rw [← List.append_cons] at accepted taken
      exact ⟨g', .mk (by rw [split, List.cons_append]) accepted taken, same⟩

theorem addAll_of_firstRefused (distinct : r.places.Nodup)
    (h : FirstRefused r.registrations gs g) :
    r.addAll gs = .error ⟨g.converter.kind, g.key⟩ := by
  obtain ⟨rfl, accepted, taken⟩ := h
  have first := (addAll_eq_ok distinct).mpr ⟨accepted, rfl⟩
  have refused := add_eq_error.mpr ⟨taken, rfl⟩
  unfold addAll at first ⊢
  rw [List.foldlM_append, Result.bind_eq_error]
  refine .inr ⟨_, first, ?_⟩
  rw [List.foldlM_cons, Result.bind_eq_error]
  exact .inl refused

theorem addAll_eq_error (distinct : r.places.Nodup) : r.addAll gs = .error e ↔
    ∃ g, FirstRefused r.registrations gs g ∧ e = ⟨g.converter.kind, g.key⟩ := by
  constructor
  · exact firstRefused_of_addAll distinct
  · rintro ⟨g, refused, rfl⟩
    exact addAll_of_firstRefused distinct refused

theorem isOk_addAll (distinct : r.places.Nodup) : (r.addAll gs).isOk = true ↔
    ((r.registrations ++ gs).map Registration.place).Nodup := by
  rw [Result.isOk_eq_true]
  constructor
  · rintro ⟨filled, h⟩
    exact ((addAll_eq_ok distinct).mp h).1
  · intro all
    exact ⟨_, (addAll_eq_ok distinct).mpr ⟨all, rfl⟩⟩

/-! ## Registrations in another order -/

theorem find?_perm (distinct : r.places.Nodup) (perm : r'.registrations.Perm r.registrations) :
    r'.find? kind key = r.find? kind key := by
  have distinct' : r'.places.Nodup := (perm.map Registration.place).nodup_iff.mpr distinct
  ext converter
  rw [find?_eq_some distinct', find?_eq_some distinct, perm.mem_iff]

theorem lookup_perm (distinct : r.places.Nodup) (perm : r'.registrations.Perm r.registrations) :
    r'.lookup kind shape = r.lookup kind shape := by
  unfold lookup
  rw [find?_perm distinct perm, find?_perm distinct perm]

/--
The list decides, not its order: it is accepted just when all places are distinct, and else the
first registration whose place is taken is the error. Once accepted, none is lost, the look-up gives
the converter for the shape and without one that for its family, and so it does for every other
order of the list.
-/
theorem addAll_lookups (start : base = .empty ∨ base = .defaults) (gs : List Registration) :
    ((base.addAll gs).isOk = true ↔
      ((base.registrations ++ gs).map Registration.place).Nodup) ∧
    (∀ e, base.addAll gs = .error e ↔
      ∃ g, FirstRefused base.registrations gs g ∧ e = ⟨g.converter.kind, g.key⟩) ∧
    ∀ r, base.addAll gs = .ok r →
      r.size = base.size + gs.length ∧
      (∀ kind shape converter, (r.lookup kind shape).map Match.converter = some converter ↔
        Offered (base.registrations ++ gs) kind shape converter) ∧
      ∀ gs', gs'.Perm gs → ∃ r', base.addAll gs' = .ok r' ∧
        ∀ kind shape, r'.lookup kind shape = r.lookup kind shape := by
  have distinct := nodup_of_start start
  refine ⟨isOk_addAll distinct, fun e => addAll_eq_error distinct, fun r filled => ?_⟩
  obtain ⟨all, rfl⟩ := (addAll_eq_ok distinct).mp filled
  refine ⟨List.length_append, fun kind shape converter => lookup_offered all, ?_⟩
  intro gs' perm
  have others := perm.append_left base.registrations
  have all' := (others.map Registration.place).nodup_iff.mpr all
  exact ⟨_, (addAll_eq_ok distinct).mpr ⟨all', rfl⟩, fun kind shape => lookup_perm all others⟩

/-! ### Seasons and months -/

namespace Calendar

def season : Registration := .enumeration "Season" ["SPRING", "FALL"]

def month : Registration := ⟨.family .enumeration, .enumSymbols ["MAY", "JUNE"]⟩

def filled : Registry := ⟨defaults.registrations ++ [month, season]⟩

end Calendar

open Calendar in
theorem addAll_lookups_calendar :
    defaults.addAll [month, season] = .ok filled ∧ filled.size = 3 ∧
      (∃ r, defaults.addAll [season, month] = .ok r ∧
        (r.lookup (.primitive .string) (.enumeration "Season")).map Match.converter =
          some season.converter ∧
        (r.lookup (.primitive .string) (.enumeration "Month")).map Match.converter =
          some month.converter) ∧
      defaults.addAll [season, month, season] =
        .error ⟨.primitive .string, .exact (.enumeration "Season")⟩ := by
  obtain ⟨-, -, accepted⟩ := addAll_lookups (.inr rfl) [month, season]
  obtain ⟨-, refused, -⟩ := addAll_lookups (.inr rfl) [season, month, season]
  have added : defaults.addAll [month, season] = .ok filled := rfl
  obtain ⟨size, offers, orders⟩ := accepted filled added
  obtain ⟨r, other, same⟩ := orders [season, month] (List.Perm.swap month season [])
  refine ⟨added, size, ⟨r, other, ?_, ?_⟩, ?_⟩
  · have mem : season ∈ defaults.registrations ++ [month, season] := by simp
    rw [same, offers]
    exact .exact mem rfl
  · have mem : month ∈ defaults.registrations ++ [month, season] := by simp
    rw [same, offers]
    exact .family (by decide) mem rfl
  · have again : [season, month, season] = [season, month] ++ season :: [] := rfl
    exact (refused _).mpr ⟨season, .mk again (by decide) (by decide), rfl⟩

end SchemaBinding.Registry
