import SchemaBinding.Proofs.Outcome
import SchemaBinding.Proofs.Parser.Induction

/-!
# Strict and permissive parsers

A strict parser is a permissive one that stops at its first warning.
-/

namespace SchemaBinding.Parser

def warning (e : SchemaError) : Event :=
  ⟨.warn, "Accepting schema violation in permissive mode", [("error", e.message)]⟩

theorem acceptedEvents_eq (p : Parser) : p.acceptedEvents = p.accepted.map warning := rfl

/-! ## Side by side -/

/-- A strict and a permissive parser that know the same types and stand in the same namespace. -/
structure Twins (p q : Parser) : Prop where
  strict : p.strict = true
  permissive : q.strict = false
  types : p.types = q.types
  space : p.space = q.space

theorem twins_self {q : Parser} (h : q.strict = false) : Twins { q with strict := true } q :=
  ⟨rfl, h, rfl, rfl⟩

/-- What the two parsers do with one step, once the permissive one has noted `noted`. -/
structure SideBySide {α : Type} (q : Parser) (noted : List SchemaError)
    (strictRun permissiveRun : Except SchemaError α × Parser) : Prop where
  accepted : permissiveRun.2.accepted = q.accepted ++ noted
  permissive : permissiveRun.2.strict = false
  same : noted = [] → strictRun.1 = permissiveRun.1 ∧ Twins strictRun.2 permissiveRun.2
  first : ∀ e rest, noted = e :: rest → strictRun.1 = .error e

/-- A step on which strict parsers stop where permissive ones warn. -/
def Lockstep {α : Type} (step : ParserM α) : Prop :=
  ∀ p q, Twins p q → ∃ noted, SideBySide q noted (step.run.run p) (step.run.run q)

theorem SideBySide.quiet {α : Type} {q p' q' : Parser} {r : Except SchemaError α}
    (accepted : q'.accepted = q.accepted) (twins : Twins p' q') :
    SideBySide q [] (r, p') (r, q') where
  accepted := by rw [accepted, List.append_nil]
  permissive := twins.permissive
  same _ := ⟨rfl, twins⟩
  first _ _ h := nomatch h

variable {α β : Type}

/-! ## Single steps -/

theorem lockstep_pure (a : α) : Lockstep (pure a) := fun _ _ h => ⟨[], .quiet rfl h⟩

theorem lockstep_throw (e : SchemaError) : Lockstep (throw e : ParserM α) :=
  fun _ _ h => ⟨[], .quiet rfl h⟩

theorem lockstep_define (fullname : String) (schema : Schema) :
    Lockstep (define fullname schema) := by
  intro p q h
  refine ⟨[], .quiet rfl ⟨h.strict, h.permissive, ?_, h.space⟩⟩
  change p.types.insert fullname schema = q.types.insert fullname schema
  rw [h.types]

theorem lockstep_violation (e : SchemaError) : Lockstep (violation e) := by
  intro p q h
  have strict : (violation e).run.run p = (.error e, p) := by
    rw [violation, Step.run_get_bind, if_pos h.strict, Step.run_throw]
  have permissive : (violation e).run.run q =
      (.ok (), { q with accepted := q.accepted ++ [e] }) := by
    rw [violation, Step.run_get_bind, if_neg (by simp [h.permissive]), Step.run_modify]
  rw [strict, permissive]
  refine ⟨[e], rfl, h.permissive, nofun, ?_⟩
  rintro e' rest ⟨⟩
  rfl

theorem lockstep_heed (check : Except SchemaError Unit) : Lockstep (heed check) := by
  cases check with
  | ok => exact lockstep_pure ()
  | error e => exact lockstep_violation e

theorem lockstep_get {f : Parser → ParserM α} (same : ∀ p q, Twins p q → f p = f q)
    (h : ∀ p, Lockstep (f p)) : Lockstep (get >>= f) := by
  intro p q twins
  rw [Step.run_get_bind, Step.run_get_bind, same p q twins]
  exact h q p q twins

/-! ## Steps one after the other -/

theorem lockstep_bind {m : ParserM α} {f : α → ParserM β} (hm : Lockstep m)
    (hf : ∀ a, Lockstep (f a)) : Lockstep (m >>= f) := by
  intro p q twins
  obtain ⟨noted, h⟩ := hm p q twins
  rw [Step.run_bind, Step.run_bind]
  generalize m.run.run p = strictRun at h ⊢
  generalize m.run.run q = permissiveRun at h ⊢
  obtain ⟨rs, p'⟩ := strictRun
  obtain ⟨rp, q'⟩ := permissiveRun
  cases noted with
  | nil =>
    obtain ⟨rfl, twins'⟩ := h.same rfl
    cases rs with
    | error e => exact ⟨[], .quiet (by simpa using h.accepted) twins'⟩
    | ok a =>
      obtain ⟨more, h'⟩ := hf a p' q' twins'
      refine ⟨more, ?_, h'.permissive, h'.same, h'.first⟩
      rw [h'.accepted, h.accepted, List.append_nil]
  | cons e rest =>
    -- The strict parser has stopped. The permissive one may go on and note more, all of it later.
    obtain rfl : rs = .error e := h.first e rest rfl
    cases rp with
    | error e' =>
      refine ⟨e :: rest, h.accepted, h.permissive, nofun, ?_⟩
      rintro e rest ⟨⟩
      rfl
    | ok a =>
      obtain ⟨more, h'⟩ := hf a _ q' (twins_self h.permissive)
      refine ⟨e :: rest ++ more, ?_, h'.permissive, nofun, ?_⟩
      · rw [h'.accepted, h.accepted, List.append_assoc]
      · rintro e rest ⟨⟩
        rfl

theorem lockstep_inSpace {step : ParserM α} (space : Option String) (h : Lockstep step) :
    Lockstep (inSpace space step) := by
  intro p q twins
  obtain ⟨noted, hs⟩ := h { p with space } { q with space }
    ⟨twins.strict, twins.permissive, twins.types, rfl⟩
  refine ⟨noted, hs.accepted, hs.permissive, fun none => ?_, hs.first⟩
  obtain ⟨same, after⟩ := hs.same none
  exact ⟨same, after.strict, after.permissive, after.types, twins.space⟩

/-! ## The steps of the parser -/

theorem lockstep_reference (name : String) : Lockstep (reference name) := by
  unfold reference
  apply lockstep_get
  · intro p q twins
    rw [twins.types, twins.space]
  · intro p
    dsimp only
    split
    · exact lockstep_pure _
    · exact lockstep_throw _

theorem lockstep_definitionName (kind : Kind) (members : Json.Members) :
    Lockstep (definitionName kind members) := by
  unfold definitionName
  split
  · exact lockstep_throw _
  · apply lockstep_get
    · intro p q twins
      rw [twins.space]
    · intro p
      apply lockstep_bind (lockstep_heed _)
      intro _
      apply lockstep_get
      · intro p q twins
        rw [twins.types]
      · intro p
        split
        · exact lockstep_throw _
        · exact lockstep_pure _

/-! ## The whole parser -/

theorem hereditary_lockstep :
    Hereditary (fun _ => True) (fun _ => True) fun _ step => Lockstep step where
  pure := lockstep_pure
  throw := lockstep_throw
  bind := lockstep_bind
  violation := lockstep_violation
  reference name _ := lockstep_reference name
  definition kind members _ rest :=
    lockstep_bind (lockstep_definitionName kind members) fun names => rest names trivial
  define fullname schema _ _ := lockstep_define fullname schema
  inSpace := lockstep_inSpace

theorem lockstep_schema (document : Json) : Lockstep (schema document) :=
  hereditary_lockstep.schema document fun _ _ => trivial

/--
A strict parser does what its permissive twin does if that one lets no violation pass, and else
fails with the first violation that the permissive one lets pass, however that run ends.
-/
theorem strict_stops_at_first_warning (p q : Parser) (document : Json) (strict : p.strict = true)
    (permissive : q.strict = false) (types : p.types = q.types) (space : p.space = q.space) :
    ∃ noted, (q.parse document).2.accepted = q.accepted ++ noted ∧
      (q.parse document).2.acceptedEvents = q.acceptedEvents ++ noted.map warning ∧
      (noted = [] → (p.parse document).1 = (q.parse document).1 ∧
        (p.parse document).2.types = (q.parse document).2.types) ∧
      ∀ e rest, noted = e :: rest → (p.parse document).1 = .error e := by
  obtain ⟨noted, h⟩ := lockstep_schema document p q ⟨strict, permissive, types, space⟩
  refine ⟨noted, h.accepted, ?_, fun none => ?_, h.first⟩
  · rw [acceptedEvents_eq, acceptedEvents_eq, ← List.map_append, ← h.accepted]
    rfl
  · obtain ⟨same, after⟩ := h.same none
    exact ⟨same, after.types⟩

def twoFaults : Json :=
  .obj [("type", .str "enum"), ("name", .str "1st"), ("symbols", .arr [.str "ok", .str "no!"])]

theorem strict_stops_at_first_of_two :
    (({} : Parser).parse twoFaults).2.accepted =
        [.invalidName "1st" (.inComponent "1st" .badStart),
          .invalidName "no!" (.badCharacter '!')] ∧
      (({ strict := true } : Parser).parse twoFaults).1 =
        .error (.invalidName "1st" (.inComponent "1st" .badStart)) := by
  have both : (({} : Parser).parse twoFaults).2.accepted =
      [.invalidName "1st" (.inComponent "1st" .badStart),
        .invalidName "no!" (.badCharacter '!')] := rfl
  obtain ⟨noted, accepted, -, -, first⟩ :=
    strict_stops_at_first_warning { strict := true } {} twoFaults rfl rfl rfl rfl
  rw [both, List.nil_append] at accepted
  exact ⟨both, first _ _ accepted.symm⟩

end SchemaBinding.Parser
