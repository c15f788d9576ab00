import Mathlib.Data.List.DropRight
import SchemaBinding.Proofs.Outcome
import SchemaBinding.Sequence

/-!
# Runs on sequences

An array holds what a list would hold after the same calls.
-/

namespace SchemaBinding

/-- An array or a map, without a wrapper around it. -/
inductive Value.IsSequence : Value → Prop
  | array (items : List Value) : IsSequence (.array items)
  | map (entries : List (String × Value)) : IsSequence (.map entries)

theorem Value.IsSequence.bare {v : Value} (h : v.IsSequence) (branch : Int32) (content : Value) :
    v ≠ .union branch content := by
  cases h <;> exact nofun

namespace Sequence

theorem isOk_count {value : Value} {kind : SequenceKind} :
    (runOn value kind count).1.isOk = true ↔ value.IsSequence := by
  constructor
  · intro h
    cases value with
    | array items => exact .array items
    | map entries => exact .map entries
    | _ => cases h
  · rintro (_ | _) <;> rfl

/-! ## Calls -/

inductive Operation where
  | count
  | append (item : Value)
  | clear
  | iterate

inductive Answer where
  | done
  | number (n : Nat)
  | list (items : List Value)

namespace Operation

def name : Operation → String
  | .count => "count"
  | .append _ => "append"
  | .clear => "clear"
  | .iterate => "iterate"

def isClear : Operation → Bool
  | .clear => true
  | _ => false

def appended? : Operation → Option Value
  | .append item => some item
  | _ => none

def perform : Operation → SequenceM Answer
  | .count => .number <$> Sequence.count
  | .append item => (fun _ => .done) <$> Sequence.append item
  | .clear => (fun _ => .done) <$> Sequence.clear
  | .iterate => .list <$> Sequence.items

end Operation

def call (s : Sequence) (op : Operation) : Except SequenceError Answer × Sequence :=
  op.perform.run.run s

/-- The sequence after some calls, whatever came of them. -/
def after (s : Sequence) (run : List Operation) : Sequence :=
  run.foldl (fun s op => (s.call op).2) s

theorem after_concat (s : Sequence) (run : List Operation) (op : Operation) :
    s.after (run ++ [op]) = ((s.after run).call op).2 := List.foldl_concat ..

/-! ## What is held -/

/-- What was there at first, unless it has been cleared. -/
def remaining {α : Type} (first : List α) (run : List Operation) : List α :=
  if run.any (·.isClear) then [] else first

/-- What remains, and after it what was appended since the last clear. -/
def held (first : List Value) (run : List Operation) : List Value :=
  remaining first run ++ (run.rtakeWhile fun op => !op.isClear).filterMap (·.appended?)

theorem remaining_concat {α : Type} (first : List α) (run : List Operation) (op : Operation) :
    remaining first (run ++ [op]) = if op.isClear then [] else remaining first run := by
  unfold remaining
  rw [List.any_append, List.any_cons, List.any_nil, Bool.or_false]
  cases op.isClear <;> simp

theorem held_concat (first : List Value) (run : List Operation) (op : Operation) :
    held first (run ++ [op]) =
      if op.isClear then [] else held first run ++ op.appended?.toList := by
  unfold held
  rw [remaining_concat, List.rtakeWhile_concat]
  cases op <;> simp [Operation.isClear, Operation.appended?]

theorem call_array (items : List Value) (kind : SequenceKind) (op : Operation) :
    (call ⟨.array items, kind⟩ op).2 =
      ⟨.array (if op.isClear then [] else items ++ op.appended?.toList), kind⟩ := by
  cases op with
  | append item => rfl
  | clear => rfl
  | count | iterate =>
    have same : items ++ [] = items := List.append_nil items
    exact congrArg (fun items => (⟨.array items, kind⟩ : Sequence)) same.symm

theorem after_array (items : List Value) (kind : SequenceKind) (run : List Operation) :
    after ⟨.array items, kind⟩ run = ⟨.array (held items run), kind⟩ := by
  induction run using List.reverseRecOn with
  | nil => simp [after, held, remaining]
  | append_singleton run op ih => rw [after_concat, ih, held_concat, call_array]

theorem after_map (entries : List (String × Value)) (kind : SequenceKind) (run : List Operation) :
    after ⟨.map entries, kind⟩ run = ⟨.map (remaining entries run), kind⟩ := by
  induction run using List.reverseRecOn with
  | nil => rfl
  | append_singleton run op ih =>
    rw [after_concat, ih, remaining_concat]
    cases op <;> rfl

theorem call_other {value : Value} (h : ¬ value.IsSequence) (kind : SequenceKind) (op : Operation) :
    call ⟨value, kind⟩ op = (.error ⟨op.name, value.kind⟩, ⟨value, kind⟩) := by
  cases value with
  | array items => exact absurd (.array items) h
  | map entries => exact absurd (.map entries) h
  | _ => cases op <;> rfl

theorem after_other {value : Value} (h : ¬ value.IsSequence) (kind : SequenceKind)
    (run : List Operation) : after ⟨value, kind⟩ run = ⟨value, kind⟩ := by
  induction run using List.reverseRecOn with
  | nil => rfl
  | append_singleton run op ih => rw [after_concat, ih, call_other h]

/-! ## Any run -/

/-- The calls on an array with these items: all succeed, as on a list. -/
structure AsArray (s : Sequence) (items : List Value) : Prop where
  holds : s.value = .array items
  count : s.call .count = (.ok (.number items.length), s)
  append : ∀ item, s.call (.append item) = (.ok .done, ⟨.array (items ++ [item]), s.kind⟩)
  clear : s.call .clear = (.ok .done, ⟨.array [], s.kind⟩)
  iterate : s.call .iterate = (.ok (.list items), s)

/-- The calls on a map with these entries: it can only be counted and cleared. -/
structure AsMap (s : Sequence) (entries : List (String × Value)) : Prop where
  holds : s.value = .map entries
  count : s.call .count = (.ok (.number entries.length), s)
  append : ∀ item, s.call (.append item) = (.error ⟨"append", .map⟩, s)
  clear : s.call .clear = (.ok .done, ⟨.map [], s.kind⟩)
  iterate : s.call .iterate = (.error ⟨"iterate", .map⟩, s)

/-- The calls on any other value: none succeeds. -/
structure AsOther (s : Sequence) (value : Value) : Prop where
  holds : s.value = value
  fails : ∀ op, s.call op = (.error ⟨op.name, value.kind⟩, s)

theorem call_fails_unchanged (s : Sequence) (op : Operation) :
    (s.call op).1.isOk = true ∨ (s.call op).2 = s := by
  obtain ⟨value, kind⟩ := s
  by_cases h : value.IsSequence
  · cases h <;> cases op <;> first | exact .inl rfl | exact .inr rfl
  · exact .inr (congrArg Prod.snd (call_other h kind op))

/--
After any run of calls, failed ones among them, an array is the list of its first items until the
last clear and of all that was appended since; a map has its first entries or none; and any other
value, a wrapped sequence too, is as it was. A call that fails changes nothing.
-/
theorem run_follows (value : Value) (kind : SequenceKind) (run : List Operation) :
    let s := after ⟨value, kind⟩ run
    s.kind = kind ∧
      (match value with
        | .array items => s.AsArray (held items run)
        | .map entries => s.AsMap (remaining entries run)
        | other => s.AsOther other) ∧
      ∀ op, (s.call op).1.isOk = true ∨ (s.call op).2 = s := by
  intro s
  have other (h : ¬ value.IsSequence) : s.kind = kind ∧ s.AsOther value := by
    have same : s = ⟨value, kind⟩ := after_other h kind run
    rw [same]
    exact ⟨rfl, rfl, call_other h kind⟩
  suffices holds : s.kind = kind ∧ _ from ⟨holds.1, holds.2, call_fails_unchanged s⟩
  cases value with
  | array items =>
    have same : s = ⟨.array (held items run), kind⟩ := after_array items kind run
    rw [same]
    exact ⟨rfl, rfl, rfl, fun _ => rfl, rfl, rfl⟩
  | map entries =>
    have same : s = ⟨.map (remaining entries run), kind⟩ := after_map entries kind run
    rw [same]
    exact ⟨rfl, rfl, rfl, fun _ => rfl, rfl, rfl⟩
  | _ => exact other nofun

/-! ## Rebuilding arrays -/

theorem run_forM_append (items : List Value) (before : List Value) (kind : SequenceKind) :
    (items.forM append).run.run ⟨.array before, kind⟩ =
      (.ok (), ⟨.array (before ++ items), kind⟩) := by
  induction items generalizing before with
  | nil => rw [List.append_nil]; rfl
  | cons item items ih =>
    have first : (append item).run.run ⟨.array before, kind⟩ =
        (.ok (), ⟨.array (before ++ [item]), kind⟩) := rfl
    change (append item >>= fun _ => items.forM append).run.run _ = _
    rw [Step.run_bind_of_ok first, ih, List.append_assoc, List.singleton_append]

theorem rebuild_array (kind : SequenceKind) (items : List Value) :
    rebuild kind (.array items) = .ok (.array items) := by
  have built : runOn kind.instantiate kind (do clear; items.forM append) =
      (.ok (), .array items) := by
    have cleared : clear.run.run ⟨kind.instantiate, kind⟩ = (.ok (), ⟨.array [], kind⟩) := by
      cases kind <;> rfl
    rw [runOn, Step.run_bind_of_ok cleared, run_forM_append, List.nil_append]
  unfold rebuild
  refine Result.bind_eq_ok.mpr ⟨items, rfl, ?_⟩
  rw [built]
  rfl

theorem rebuild_other (kind : SequenceKind) {value : Value} (h : ∀ items, value ≠ .array items) :
    rebuild kind value = .error ⟨"iterate", value.kind⟩ := by
  cases value <;> first | rfl | exact absurd rfl (h _)

/-! ## Rebuilding them in a memory -/

variable {memory : Memory} {kind : SequenceKind}

theorem rebuildIn_of_fits (fits : kind.fits memory = true) (value : Value) :
    (rebuildIn memory kind value).run = some (rebuild kind value) := by
  have made : kind.instantiateIn memory = some kind.instantiate := if_pos fits
  unfold rebuildIn rebuild
  refine Attempt.run_bind (Attempt.run_lift _) fun items _ => ?_
  rw [made]
  exact Attempt.run_bind (Attempt.run_lift _) fun _ _ => rfl

theorem rebuildIn_other {value : Value} (h : ∀ items, value ≠ .array items) :
    (rebuildIn memory kind value).run = some (rebuild kind value) := by
  cases value <;> first | rfl | exact absurd rfl (h _)

theorem rebuildIn_array_of_not_fits (fits : kind.fits memory = false) (items : List Value) :
    (rebuildIn memory kind (.array items)).run = none := by
  have stops : kind.instantiateIn memory = none := by
    rw [SequenceKind.instantiateIn, fits]
    rfl
  change ((liftM (kind.instantiateIn memory) : ExceptT SequenceError Option Value) >>= _).run = _
  rw [stops]
  rfl

end Sequence

end SchemaBinding
