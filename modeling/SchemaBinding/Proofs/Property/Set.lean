import Mathlib.Data.List.Induction
import Mathlib.Data.List.Nodup
import SchemaBinding.Property.Basic

/-!
# Sets of properties

However often names are added again, a set lists each name once, in the order of the last additions,
and finds under a name the property that was added last under it.
-/

namespace SchemaBinding.PropertySet

variable {σ : Type} {added : List (Property σ)} {s : PropertySet σ}

def names (s : PropertySet σ) : List String := s.properties.map (·.name)

/-! ## What was added last -/

/-- No later addition has the name of the property. -/
def LastAdded (added : List (Property σ)) (p : Property σ) : Prop :=
  ∃ earlier later, added = earlier ++ p :: later ∧ ∀ q ∈ later, q.name ≠ p.name

/-- After the last addition under `m` there is one under `n`. -/
def LastBefore (added : List (Property σ)) (m n : String) : Prop :=
  ∃ earlier later, added = earlier ++ later ∧ (∀ p ∈ later, p.name ≠ m) ∧ ∃ p ∈ later, p.name = n

theorem LastAdded.mem {p : Property σ} (h : LastAdded added p) : p ∈ added := by
  obtain ⟨earlier, later, rfl, -⟩ := h
  exact List.mem_append_right _ List.mem_cons_self

theorem lastAdded_concat {p q : Property σ} :
    LastAdded (added ++ [p]) q ↔ q = p ∨ q.name ≠ p.name ∧ LastAdded added q := by
  constructor
  · rintro ⟨earlier, later, same, fresh⟩
    rcases List.eq_nil_or_concat' later with rfl | ⟨later, last, rfl⟩
    · exact .inl (List.singleton_inj.mp (List.append_inj' same rfl).2).symm
    · rw [← List.cons_append, ← List.append_assoc] at same
      obtain ⟨rfl, ends⟩ := List.append_inj' same rfl
      cases ends
      rw [List.forall_mem_append] at fresh
      exact .inr ⟨(fresh.2 p (List.mem_singleton_self p)).symm, earlier, later, rfl, fresh.1⟩
  · rintro (rfl | ⟨other, earlier, later, rfl, fresh⟩)
    · exact ⟨added, [], rfl, List.forall_mem_nil _⟩
    · refine ⟨earlier, later ++ [p], List.append_assoc .., ?_⟩
      rw [List.forall_mem_append]
      exact ⟨fresh, fun q mem => List.mem_singleton.mp mem ▸ other.symm⟩

theorem LastBefore.concat {m n : String} {p : Property σ} (h : LastBefore added m n)
    (other : p.name ≠ m) : LastBefore (added ++ [p]) m n := by
  obtain ⟨earlier, later, rfl, fresh, q, mem, named⟩ := h
  refine ⟨earlier, later ++ [p], List.append_assoc .., ?_, q, List.mem_append_left _ mem, named⟩
  rw [List.forall_mem_append]
  exact ⟨fresh, fun q mem => List.mem_singleton.mp mem ▸ other⟩

/-! ## One addition -/

theorem names_add (s : PropertySet σ) (p : Property σ) :
    (s.add p).names = s.names.filter (· != p.name) ++ [p.name] := by
  rw [names, names, add, List.map_append, List.filter_map]
  rfl

theorem find?_add (s : PropertySet σ) (p : Property σ) (name : String) :
    (s.add p).find? name = if p.name = name then some p else s.find? name := by
  rw [find?, add, List.find?_append]
  by_cases same : p.name = name
  · have gone : (s.properties.filter (·.name != p.name)).find? (·.name == name) = none := by
      rw [List.find?_eq_none]
      intro q mem found
      have other := (List.mem_filter.mp mem).2
      rw [same, beq_iff_eq.mp found, bne_self_eq_false] at other
      cases other
    rw [gone, Option.none_or, if_pos same]
    exact List.find?_cons_of_pos (beq_iff_eq.mpr same)
  · have kept : (s.properties.filter (·.name != p.name)).find? (·.name == name) =
        s.find? name := by
      rw [List.find?_filter, find?]
      congr 1
      funext q
      by_cases found : q.name = name
      · simp [found, Ne.symm same]
      · simp [found]
    have last : [p].find? (·.name == name) = none :=
      List.find?_cons_of_neg (same ∘ beq_iff_eq.mp)
    rw [kept, last, Option.or_none, if_neg same]

/-! ## Any additions -/

/-- What a set has to be after some additions. -/
structure Keeps (added : List (Property σ)) (s : PropertySet σ) : Prop where
  distinct : s.names.Nodup
  mem_names : ∀ name, name ∈ s.names ↔ name ∈ added.map (·.name)
  order : s.names.Pairwise (LastBefore added)
  found : ∀ name p, s.find? name = some p ↔ p.name = name ∧ LastAdded added p
  missing : ∀ name, s.find? name = none ↔ name ∉ added.map (·.name)

theorem keeps_empty (typeName : String) : Keeps [] ({ typeName } : PropertySet σ) where
  distinct := List.nodup_nil
  mem_names _ := Iff.rfl
  order := .nil
  found name p := by
    constructor
    · intro found
      cases found
    · rintro ⟨-, last⟩
      cases last.mem
  missing name := by simp [find?]

theorem Keeps.add (h : Keeps added s) (p : Property σ) : Keeps (added ++ [p]) (s.add p) where
  distinct := by
    rw [names_add, List.nodup_append]
    refine ⟨h.distinct.filter _, List.nodup_singleton _, ?_⟩
    intro m mem n last same
    rw [same, List.mem_singleton.mp last] at mem
    simp at mem
  mem_names name := by
    rw [names_add, List.mem_append, List.mem_filter, h.mem_names, List.map_append, List.mem_append,
      List.map_singleton]
    by_cases last : name = p.name <;> simp [last]
  order := by
    rw [names_add, List.pairwise_append]
    refine ⟨?_, List.pairwise_singleton _ _, ?_⟩
    · refine (h.order.filter _).imp_of_mem ?_
      intro m n mem _ before
      exact before.concat (Ne.symm (bne_iff_ne.mp (List.mem_filter.mp mem).2))
    · intro m mem n last
      have other : p.name ≠ m := Ne.symm (bne_iff_ne.mp (List.mem_filter.mp mem).2)
      exact ⟨added, [p], rfl, fun q only => List.mem_singleton.mp only ▸ other,
        p, List.mem_singleton_self p, (List.mem_singleton.mp last).symm⟩
  found name q := by
    rw [find?_add, lastAdded_concat]
    split
    · next same =>
      subst same
      constructor
      · rintro ⟨⟩
        exact ⟨rfl, .inl rfl⟩
      · rintro ⟨named, rfl | ⟨other, -⟩⟩
        · rfl
        · exact absurd named other
    · next other =>
      rw [h.found]
      constructor
      · rintro ⟨rfl, last⟩
        exact ⟨rfl, .inr ⟨Ne.symm other, last⟩⟩
      · rintro ⟨rfl, rfl | ⟨-, last⟩⟩
        · exact absurd rfl other
        · exact ⟨rfl, last⟩
  missing name := by
    rw [find?_add, List.map_append, List.mem_append, List.map_singleton, List.mem_singleton, not_or,
      ← h.missing]
    split
    · next same => simp [same]
    · next other => simp [Ne.symm other]

theorem ofList_concat (typeName : String) (added : List (Property σ)) (p : Property σ) :
    ofList typeName (added ++ [p]) = (ofList typeName added).add p := List.foldl_concat ..

/--
After any additions to an empty set its names are distinct and just the names added, in the order of
their last additions. Under each of them the last property is found, and under no other any.
-/
theorem ofList_keeps (typeName : String) (added : List (Property σ)) :
    Keeps added (ofList typeName added) := by
  induction added using List.reverseRecOn with
  | nil => exact keeps_empty typeName
  | append_singleton added p ih =>
    rw [ofList_concat]
    exact ih.add p

end SchemaBinding.PropertySet
