import SchemaBinding.Proofs.Outcome
import SchemaBinding.Schema.Parser

/-!
# Checks

When a strict parser goes on after a check, there was nothing to find.
-/

namespace SchemaBinding.Parser

open Step

variable {p q r : Parser}

/-! ## Violations -/

/-- All that a check does to the parser is to note violations. -/
def Notes (p q : Parser) : Prop := ∃ accepted, q = { p with accepted }

theorem Notes.trans (h : Notes p q) (h' : Notes q r) : Notes p r := by
  obtain ⟨_, rfl⟩ := h
  obtain ⟨accepted, rfl⟩ := h'
  exact ⟨accepted, rfl⟩

theorem gives_violation {e : SchemaError} : Gives (violation e) p () q ↔
    p.strict = false ∧ { p with accepted := p.accepted ++ [e] } = q := by
  unfold violation
  rw [gives_get_bind]
  split
  · next strict => simp [not_gives_throw, strict]
  · next permissive =>
    rw [gives_modify, Bool.eq_false_iff.mpr permissive]
    simp

theorem notes_of_violation {e : SchemaError} (h : Gives (violation e) p () q) : Notes p q :=
  ⟨_, (gives_violation.mp h).2.symm⟩

theorem notes_of_heed {check : Except SchemaError Unit} (h : Gives (heed check) p () q) :
    Notes p q := by
  cases check with
  | ok =>
    obtain ⟨-, rfl⟩ := gives_pure.mp h
    exact ⟨_, rfl⟩
  | error e => exact notes_of_violation h

theorem notes_of_forM {α : Type} {items : List α} {f : α → ParserM Unit}
    (each : ∀ item p q, Gives (f item) p () q → Notes p q) (h : Gives (items.forM f) p () q) :
    Notes p q := by
  induction items generalizing p with
  | nil =>
    obtain ⟨-, rfl⟩ := gives_pure.mp h
    exact ⟨_, rfl⟩
  | cons item items ih =>
    obtain ⟨_, r, first, rest⟩ := gives_bind.mp h
    exact (each item p r first).trans (ih rest)

theorem notes_of_guard {condition : Prop} [Decidable condition] {e : SchemaError}
    {m : ParserM Unit} (h : Gives (if condition then violation e >>= fun _ => m else m) p () q) :
    ∃ r, Notes p r ∧ (p.strict = true → ¬ condition ∧ r = p) ∧ Gives m r () q := by
  by_cases wrong : condition
  · rw [if_pos wrong] at h
    obtain ⟨_, r, noted, h⟩ := gives_bind.mp h
    refine ⟨r, notes_of_violation noted, fun strict => ?_, h⟩
    rw [(gives_violation.mp noted).1] at strict
    cases strict
  · rw [if_neg wrong] at h
    exact ⟨p, ⟨_, rfl⟩, fun _ => ⟨wrong, rfl⟩, h⟩

theorem gives_checkBranches_cons {position : Nat} {seen : List String} {branch : Schema}
    {branches : List Schema} (h : Gives (checkBranches position seen (branch :: branches)) p () q) :
    ∃ r, Notes p r ∧
      (p.strict = true → branch.isUnion = false ∧ branchKey branch ∉ seen ∧ r = p) ∧
      Gives (checkBranches (position + 1) (branchKey branch :: seen) branches) r () q := by
  unfold checkBranches at h
  obtain ⟨r, notes, flat, h⟩ := notes_of_guard h
  obtain ⟨r', notes', new, h⟩ := notes_of_guard h
  refine ⟨r', notes.trans notes', fun strict => ?_, h⟩
  obtain ⟨notUnion, rfl⟩ := flat strict
  obtain ⟨unseen, rfl⟩ := new strict
  exact ⟨Bool.eq_false_iff.mpr notUnion, fun mem => unseen (List.contains_iff_mem.mpr mem), rfl⟩

theorem notes_of_checkBranches {position : Nat} {seen : List String} {branches : List Schema}
    (h : Gives (checkBranches position seen branches) p () q) : Notes p q := by
  induction branches generalizing p position seen with
  | nil =>
    obtain ⟨-, rfl⟩ := gives_pure.mp h
    exact ⟨_, rfl⟩
  | cons branch branches ih =>
    obtain ⟨r, notes, -, rest⟩ := gives_checkBranches_cons h
    exact notes.trans (ih rest)

/-! ## Checks of a strict parser -/

theorem strict_heed {check : Except SchemaError Unit} (strict : p.strict = true)
    (h : Gives (heed check) p () q) : check = .ok () ∧ q = p := by
  cases check with
  | ok =>
    obtain ⟨-, rfl⟩ := gives_pure.mp h
    exact ⟨rfl, rfl⟩
  | error e =>
    rw [(gives_violation.mp h).1] at strict
    cases strict

theorem strict_forM_heed {α : Type} {items : List α} {check : α → Except SchemaError Unit}
    (strict : p.strict = true) (h : Gives (items.forM fun item => heed (check item)) p () q) :
    (∀ item ∈ items, check item = .ok ()) ∧ q = p := by
  induction items generalizing p with
  | nil =>
    obtain ⟨-, rfl⟩ := gives_pure.mp h
    exact ⟨nofun, rfl⟩
  | cons item items ih =>
    obtain ⟨_, r, first, rest⟩ := gives_bind.mp h
    obtain ⟨passes, rfl⟩ := strict_heed strict first
    obtain ⟨others, rfl⟩ := ih strict rest
    exact ⟨List.forall_mem_cons.mpr ⟨passes, others⟩, rfl⟩

theorem strict_checkBranches {position : Nat} {seen : List String} {branches : List Schema}
    (strict : p.strict = true) (h : Gives (checkBranches position seen branches) p () q) :
    (∀ branch ∈ branches, branch.isUnion = false) ∧ (branches.map branchKey).Nodup ∧
      (∀ branch ∈ branches, branchKey branch ∉ seen) ∧ q = p := by
  induction branches generalizing p position seen with
  | nil =>
    obtain ⟨-, rfl⟩ := gives_pure.mp h
    exact ⟨nofun, .nil, nofun, rfl⟩
  | cons branch branches ih =>
    obtain ⟨r, -, passes, rest⟩ := gives_checkBranches_cons h
    obtain ⟨flat, new, rfl⟩ := passes strict
    obtain ⟨flats, distinct, news, rfl⟩ := ih strict rest
    -- The key of the first branch counts as seen for the others.
    have other : branchKey branch ∉ branches.map branchKey := by
      intro again
      obtain ⟨b, mem, same⟩ := List.mem_map.mp again
      exact news b mem (same ▸ List.mem_cons_self)
    refine ⟨List.forall_mem_cons.mpr ⟨flat, flats⟩, List.nodup_cons.mpr ⟨other, distinct⟩,
      List.forall_mem_cons.mpr ⟨new, fun b mem seen => ?_⟩, rfl⟩
    exact news b mem (List.mem_cons_of_mem _ seen)

/-! ## Checks that find nothing -/

theorem gives_heed {check : Except SchemaError Unit} (passes : check = .ok ()) :
    Gives (heed check) p () p := by
  rw [passes]
  exact gives_pure.mpr ⟨rfl, rfl⟩

theorem gives_forM_heed {α : Type} {items : List α} {check : α → Except SchemaError Unit}
    (passes : ∀ item ∈ items, check item = .ok ()) :
    Gives (items.forM fun item => heed (check item)) p () p := by
  induction items with
  | nil => exact gives_pure.mpr ⟨rfl, rfl⟩
  | cons item items ih =>
    obtain ⟨first, others⟩ := List.forall_mem_cons.mp passes
    exact gives_bind.mpr ⟨(), p, gives_heed first, ih others⟩

theorem gives_checkBranches {position : Nat} {seen : List String} {branches : List Schema}
    (flat : ∀ branch ∈ branches, branch.isUnion = false)
    (distinct : (branches.map branchKey).Nodup)
    (new : ∀ branch ∈ branches, branchKey branch ∉ seen) :
    Gives (checkBranches position seen branches) p () p := by
  induction branches generalizing position seen with
  | nil => exact gives_pure.mpr ⟨rfl, rfl⟩
  | cons branch branches ih =>
    obtain ⟨notUnion, flat⟩ := List.forall_mem_cons.mp flat
    obtain ⟨unseen, new⟩ := List.forall_mem_cons.mp new
    obtain ⟨other, distinct⟩ := List.nodup_cons.mp distinct
    unfold checkBranches
    rw [if_neg (Bool.eq_false_iff.mp notUnion)]
    dsimp only
    rw [if_neg fun mem => unseen (List.contains_iff_mem.mp mem)]
    refine ih flat distinct fun b mem again => ?_
    rcases List.mem_cons.mp again with same | earlier
    · exact other (same ▸ List.mem_map_of_mem mem)
    · exact new b mem earlier

/-! ## Repeated items -/

theorem firstRepeated?_eq_none {seen items : List String} :
    firstRepeated? seen items = none ↔ items.Nodup ∧ ∀ item ∈ items, item ∉ seen := by
  induction items generalizing seen with
  | nil => simp [firstRepeated?]
  | cons item items ih =>
    rw [firstRepeated?]
    split
    · next again =>
      simp only [reduceCtorEq, false_iff]
      rintro ⟨-, new⟩
      exact new item List.mem_cons_self (List.contains_iff_mem.mp again)
    · next unseen =>
      have new : item ∉ seen := fun mem => unseen (List.contains_iff_mem.mpr mem)
      rw [ih, List.nodup_cons, List.forall_mem_cons]
      simp only [List.mem_cons, not_or, forall_and]
      grind

end SchemaBinding.Parser
