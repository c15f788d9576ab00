import Mathlib.Data.List.Forall2

/-!
# Results and steps

A result is a value or an error. A step may fail too, and what it did to the state stays done. A
program may also stop before there is a result.
-/

namespace SchemaBinding

/-! ## Results -/

namespace Result

variable {ε ε' α β : Type}

theorem bind_eq_ok {r : Except ε α} {f : α → Except ε β} {b : β} :
    r >>= f = .ok b ↔ ∃ a, r = .ok a ∧ f a = .ok b := by
  cases r <;> simp [bind, Except.bind]

theorem bind_eq_error {r : Except ε α} {f : α → Except ε β} {e : ε} :
    r >>= f = .error e ↔ r = .error e ∨ ∃ a, r = .ok a ∧ f a = .error e := by
  cases r <;> simp [bind, Except.bind]

theorem map_eq_ok {f : α → β} {r : Except ε α} {b : β} :
    f <$> r = .ok b ↔ ∃ a, r = .ok a ∧ f a = b := by
  cases r <;> simp [Functor.map, Except.map]

theorem mapError_eq_ok {f : ε → ε'} {r : Except ε α} {a : α} :
    r.mapError f = .ok a ↔ r = .ok a := by
  cases r <;> simp [Except.mapError]

theorem mapError_eq_error {f : ε → ε'} {r : Except ε α} {e : ε'} :
    r.mapError f = .error e ↔ ∃ cause, r = .error cause ∧ f cause = e := by
  cases r <;> simp [Except.mapError]

theorem mapM_eq_ok {f : α → Except ε β} {as : List α} {bs : List β} :
    as.mapM f = .ok bs ↔ List.Forall₂ (fun a b => f a = .ok b) as bs := by
  induction as generalizing bs with
  | nil => cases bs <;> simp [pure, Except.pure]
  | cons a as ih =>
    rw [List.mapM_cons, bind_eq_ok]
    constructor
    · rintro ⟨b, hb, h⟩
      obtain ⟨bs, hbs, h⟩ := bind_eq_ok.mp h
      cases h
      exact .cons hb (ih.mp hbs)
    · intro h
      cases h with
      | cons hb hbs => exact ⟨_, hb, bind_eq_ok.mpr ⟨_, ih.mpr hbs, rfl⟩⟩

theorem error_of_mapM {f : α → Except ε β} {as : List α} {e : ε} (h : as.mapM f = .error e) :
    ∃ a ∈ as, f a = .error e := by
  induction as with
  | nil => cases h
  | cons a as ih =>
    rw [List.mapM_cons] at h
    rcases bind_eq_error.mp h with first | ⟨b, -, h⟩
    · exact ⟨a, List.mem_cons_self, first⟩
    · rcases bind_eq_error.mp h with rest | ⟨bs, -, h⟩
      · obtain ⟨a', mem, failed⟩ := ih rest
        exact ⟨a', List.mem_cons_of_mem _ mem, failed⟩
      · cases h

theorem isOk_eq_true {r : Except ε α} : r.isOk = true ↔ ∃ a, r = .ok a := by
  cases r <;> simp [Except.isOk, Except.toBool]

theorem isOk_map {f : α → β} {r : Except ε α} : (r.map f).isOk = r.isOk := by
  cases r <;> rfl

theorem isOk_mapM {f : α → Except ε β} {as : List α} :
    (as.mapM f).isOk = as.all fun a => (f a).isOk := by
  induction as with
  | nil => rfl
  | cons a as ih =>
    rw [List.mapM_cons, List.all_cons, ← ih]
    cases f a with
    | error e => rfl
    | ok b => cases as.mapM f <;> rfl

end Result

/-! ## Results of a program that may stop -/

namespace Attempt

variable {ε ε' α β : Type} {m : ExceptT ε Option α} {k : α → ExceptT ε Option β}

theorem run_lift (r : Except ε α) : (liftM r : ExceptT ε Option α).run = some r := by
  cases r <;> rfl

theorem run_adapt (g : ε → ε') : (m.adapt g).run = m.run.map (·.mapError g) := rfl

theorem run_bind {r : Except ε α} {k' : α → Except ε β} (ran : m.run = some r)
    (next : ∀ a, r = .ok a → (k a).run = some (k' a)) : (m >>= k).run = some (r >>= k') := by
  change (m.run >>= ExceptT.bindCont k) = _
  rw [ran]
  cases r with
  | error e => rfl
  | ok a => exact next a rfl

theorem run_bind_of_ok {a : α} (ran : m.run = some (.ok a)) : (m >>= k).run = (k a).run := by
  change (m.run >>= ExceptT.bindCont k) = _
  rw [ran]
  rfl

theorem run_bind_of_none (stops : m.run = none) : (m >>= k).run = none := by
  change (m.run >>= ExceptT.bindCont k) = _
  rw [stops]
  rfl

end Attempt

/-! ## Steps -/

/-- A step on states of type `σ` that gives an `α` or fails with an `ε`. -/
abbrev Step (ε σ α : Type) := ExceptT ε (StateM σ) α

namespace Step

variable {ε ε' σ α β : Type}

theorem run_throw (e : ε) (s : σ) : (throw e : Step ε σ α).run.run s = (.error e, s) := rfl

theorem run_modify (f : σ → σ) (s : σ) : (modify f : Step ε σ Unit).run.run s = (.ok (), f s) := rfl

theorem run_lift (r : Except ε α) (s : σ) : (liftM r : Step ε σ α).run.run s = (r, s) := by
  cases r <;> rfl

theorem run_get_bind (f : σ → Step ε σ α) (s : σ) : (get >>= f).run.run s = (f s).run.run s := rfl

theorem run_bind (m : Step ε σ α) (f : α → Step ε σ β) (s : σ) :
    (m >>= f).run.run s =
      match m.run.run s with
      | (.ok a, t) => (f a).run.run t
      | (.error e, t) => (.error e, t) := by
  change (ExceptT.bindCont f (m.run.run s).1).run (m.run.run s).2 = _
  obtain ⟨r, t⟩ := m.run.run s
  cases r <;> rfl

theorem run_bind_of_ok {m : Step ε σ α} {f : α → Step ε σ β} {s t : σ} {a : α}
    (h : m.run.run s = (.ok a, t)) : (m >>= f).run.run s = (f a).run.run t := by
  rw [run_bind, h]

theorem run_map_of_ok {m : Step ε σ α} {g : α → β} {s t : σ} {a : α}
    (h : m.run.run s = (.ok a, t)) : (g <$> m).run.run s = (.ok (g a), t) :=
  run_bind_of_ok (f := fun a => pure (g a)) h

theorem run_adapt (g : ε → ε') (m : Step ε σ α) (s : σ) :
    (m.adapt g).run.run s = ((m.run.run s).1.mapError g, (m.run.run s).2) := rfl

/-! ### Steps that succeed -/

/-- The step gives `a` and takes the state from `s` to `t`. -/
def Gives (m : Step ε σ α) (s : σ) (a : α) (t : σ) : Prop := m.run.run s = (.ok a, t)

variable {m : Step ε σ α} {f : α → Step ε σ β} {a b : α} {c : β} {s t u : σ}

theorem gives_pure : Gives (pure a : Step ε σ α) s b t ↔ a = b ∧ s = t := by
  constructor
  · rintro ⟨⟩
    exact ⟨rfl, rfl⟩
  · rintro ⟨rfl, rfl⟩
    rfl

theorem not_gives_throw {e : ε} : ¬ Gives (throw e : Step ε σ α) s a t := nofun

theorem gives_lift {r : Except ε α} : Gives (liftM r : Step ε σ α) s a t ↔ r = .ok a ∧ s = t := by
  unfold Gives
  rw [run_lift, Prod.mk.injEq]

theorem gives_modify {g : σ → σ} : Gives (modify g : Step ε σ Unit) s () t ↔ g s = t := by
  unfold Gives
  rw [run_modify, Prod.mk.injEq]
  simp

theorem gives_get_bind {g : σ → Step ε σ α} : Gives (get >>= g) s a t ↔ Gives (g s) s a t := Iff.rfl

theorem gives_bind : Gives (m >>= f) s c u ↔ ∃ a t, Gives m s a t ∧ Gives (f a) t c u := by
  unfold Gives
  constructor
  · intro h
    rw [run_bind] at h
    split at h
    · next a t ran => exact ⟨a, t, ran, h⟩
    · cases h
  · rintro ⟨a, t, first, second⟩
    rw [run_bind_of_ok first, second]

theorem not_gives_throw_bind {e : ε} : ¬ Gives ((throw e : Step ε σ α) >>= f) s c u := nofun

theorem gives_map {g : α → β} : Gives (g <$> m) s c t ↔ ∃ a, Gives m s a t ∧ g a = c := by
  constructor
  · intro (h : Gives (m >>= fun a => pure (g a)) s c t)
    obtain ⟨a, t', ran, h⟩ := gives_bind.mp h
    obtain ⟨rfl, rfl⟩ := gives_pure.mp h
    exact ⟨a, ran, rfl⟩
  · rintro ⟨a, ran, rfl⟩
    exact run_map_of_ok ran

theorem gives_adapt {g : ε → ε'} : Gives (m.adapt g) s a t ↔ Gives m s a t := by
  unfold Gives
  rw [run_adapt, Prod.mk.injEq, Result.mapError_eq_ok, Prod.ext_iff]

end Step

end SchemaBinding
