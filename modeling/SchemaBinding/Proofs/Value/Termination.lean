import Mathlib.Order.RelClasses
import SchemaBinding.Proofs.Parser.Growth
import SchemaBinding.Proofs.Value.Conformance

/-!
# The check comes to an end

Where no name stands for a union the check comes to an end, however the definitions refer to each
other.
-/

namespace SchemaBinding.Value

variable {types : Definitions} {v : Value} {s : Schema}

/-! ## Questions -/

/-- The answer to a question, from the answers to the questions that it leads to. -/
def answer (types : Definitions) (ask : Value → Schema → Bool) : Value → Schema → Bool
  | v, .reference name _ =>
    match types.resolve? name with
    | some definition => ask v definition
    | none => true
  | .union _ content, .union branches => branches.any (ask content)
  | v, .union branches => branches.any (ask v)
  | .union _ content, s => ask content s
  | v, .primitive p => v.kind == .primitive p
  | .fixed data, .fixed f => data.length == f.size.toNat
  | .enumeration _ symbol, .enumeration e => (e.indexOf? symbol).isSome
  | .array items, .array s => items.all (ask · s)
  | .map entries, .map s => entries.all (ask ·.2 s)
  | .record fields, .record _ body => body.fields.all fun field =>
    match (record fields).field? field.name.text with
    | some value => ask value field.type
    | none => field.hasDefault
  | _, _ => false

/-- The questions that one question leads to. -/
inductive Asks (types : Definitions) : Value × Schema → Value × Schema → Prop
  | definition {v : Value} {name : String} {kind : Kind} {definition : Schema}
      (found : types.resolve? name = some definition) :
      Asks types (v, .reference name kind) (v, definition)
  | contentBranch {i : Int32} {content : Value} {branches : List Schema} {branch : Schema}
      (mem : branch ∈ branches) :
      Asks types (.union i content, .union branches) (content, branch)
  | branch {v : Value} {branches : List Schema} {branch : Schema}
      (bare : ∀ i content, v ≠ .union i content) (mem : branch ∈ branches) :
      Asks types (v, .union branches) (v, branch)
  | content {i : Int32} {content : Value} {s : Schema}
      (notReference : ∀ name kind, s ≠ .reference name kind)
      (notUnion : ∀ branches, s ≠ .union branches) : Asks types (.union i content, s) (content, s)
  | item {items : List Value} {s : Schema} {item : Value} (mem : item ∈ items) :
      Asks types (.array items, .array s) (item, s)
  | entry {entries : List (String × Value)} {s : Schema} {entry : String × Value}
      (mem : entry ∈ entries) : Asks types (.map entries, .map s) (entry.2, s)
  | member {fields : List (String × Value)} {role : RecordRole} {body : RecordSchema}
      {field : Field} {value : Value} (mem : field ∈ body.fields)
      (found : (record fields).field? field.name.text = some value) :
      Asks types (.record fields, .record role body) (value, field.type)

/--
If every question that was answered with yes still is, and no name has become known, then the answer
is still yes. No answers but those to the questions asked count.
-/
theorem answer_mono {fewer : Definitions} {ask ask' : Value → Schema → Bool}
    (known : ∀ name definition, fewer.resolve? name = some definition →
      types.resolve? name = some definition)
    (holds : ∀ w t, Asks types (v, s) (w, t) → ask w t = true → ask' w t = true)
    (h : answer types ask v s = true) : answer fewer ask' v s = true := by
  -- The cases are the rules of the answer with all names known. The answers to come are generalized
  -- over, since a rule says which of them it looks at.
  revert holds h
  fun_cases answer types ask v s
  all_goals intro holds h
  case case1 name kind definition found =>
    rw [answer]
    split
    · next definition' found' =>
      obtain rfl := Option.some.inj (found.symm.trans (known _ _ found'))
      exact holds _ _ (.definition found) h
    · rfl
  case case2 name kind absent =>
    rw [answer]
    split
    · next definition found =>
      rw [known _ _ found] at absent
      cases absent
    · rfl
  case case3 i content branches =>
    obtain ⟨branch, mem, yes⟩ := List.any_eq_true.mp h
    rw [answer]
    exact List.any_eq_true.mpr ⟨branch, mem, holds _ _ (.contentBranch mem) yes⟩
  case case4 branches bare =>
    obtain ⟨branch, mem, yes⟩ := List.any_eq_true.mp h
    rw [answer]
    · exact List.any_eq_true.mpr ⟨branch, mem, holds _ _ (.branch bare mem) yes⟩
    · exact bare
  case case5 i content notReference notUnion =>
    rw [answer]
    · exact holds _ _ (.content notReference notUnion) h
    · exact notReference
    · exact notUnion
  case case6 p bare =>
    rw [answer]
    · exact h
    · exact bare
  case case7 => exact h
  case case8 => exact h
  case case9 items s =>
    rw [answer, List.all_eq_true]
    exact fun item mem => holds _ _ (.item mem) (List.all_eq_true.mp h item mem)
  case case10 entries s =>
    rw [answer, List.all_eq_true]
    exact fun entry mem => holds _ _ (.entry mem) (List.all_eq_true.mp h entry mem)
  case case11 fields role body =>
    rw [answer, List.all_eq_true]
    intro field mem
    have yes := List.all_eq_true.mp h field mem
    split
    · next value found =>
      rw [found] at yes
      exact holds _ _ (.member mem found) yes
    · next absent =>
      rw [absent] at yes
      exact yes
  case case12 => cases h

theorem answer_congr {ask ask' : Value → Schema → Bool}
    (same : ∀ w t, Asks types (v, s) (w, t) → ask w t = ask' w t) :
    answer types ask v s = answer types ask' v s := by
  apply Bool.eq_iff_iff.mpr
  constructor
  · exact answer_mono (fun _ _ => id) fun w t asked yes => (same w t asked).symm.trans yes
  · exact answer_mono (fun _ _ => id) fun w t asked yes => (same w t asked).trans yes

/-! ## An end to all questions -/

mutual

/-- The most unions and names that are opened one after the other before a value is taken apart. -/
def rank : Schema → Nat
  | .union branches => rankOfBranches branches + 1
  | .reference .. => 1
  | _ => 0

def rankOfBranches : List Schema → Nat
  | [] => 0
  | branch :: branches => max (rank branch) (rankOfBranches branches)

end

theorem rank_le_of_mem {branch : Schema} {branches : List Schema} (mem : branch ∈ branches) :
    rank branch ≤ rankOfBranches branches := by
  induction mem with
  | head => exact Nat.le_max_left ..
  | tail _ _ ih => exact Nat.le_trans ih (Nat.le_max_right ..)

theorem rank_plain (notUnion : s.isUnion = false) (notReference : s.isReference = false) :
    rank s = 0 := by
  cases s with
  | union => cases notUnion
  | reference => cases notReference
  | _ => rfl

theorem Asks.decreases (unionFree : types.UnionFree) {asking asked : Value × Schema}
    (h : Asks types asking asked) :
    Prod.Lex (· < ·) (· < ·) (sizeOf asked.1, rank asked.2) (sizeOf asking.1, rank asking.2) := by
  cases h with
  | definition found =>
    -- Neither a union nor a name can follow, so what follows takes the value apart.
    obtain ⟨notUnion, notReference⟩ := unionFree.resolve? found
    refine .right _ ?_
    rw [rank_plain notUnion notReference, rank]
    exact Nat.one_pos
  | branch _ mem =>
    refine .right _ ?_
    rw [rank]
    exact Nat.lt_succ_of_le (rank_le_of_mem mem)
  | contentBranch | content => exact .left _ _ (sizeOf_lt_union _ _)
  | item mem => exact .left _ _ (sizeOf_lt_array mem)
  | entry mem => exact .left _ _ (sizeOf_lt_map mem)
  | member _ found => exact .left _ _ (sizeOf_lt_record found)

theorem asks_wellFounded (unionFree : types.UnionFree) :
    WellFounded fun asked asking => Asks types asking asked := by
  have shrinking := (Prod.lex Nat.lt_wfRel Nat.lt_wfRel).wf
  exact Subrelation.wf (Asks.decreases unionFree)
    (InvImage.wf (fun question : Value × Schema => (sizeOf question.1, rank question.2)) shrinking)

theorem question_induction (unionFree : types.UnionFree) {P : Value → Schema → Prop}
    (step : ∀ v s, (∀ w t, Asks types (v, s) (w, t) → P w t) → P v s) (v : Value) (s : Schema) :
    P v s := by
  have all : ∀ question : Value × Schema, P question.1 question.2 := by
    intro question
    induction question using (asks_wellFounded unionFree).induction with
    | h question ih => exact step _ _ fun w t asked => ih (w, t) asked
  exact all (v, s)

/-! ## The answer -/

theorem conforms_eq_answer (unionFree : types.UnionFree) (v : Value) (s : Schema) :
    v.conforms s types = answer types (fun w t => w.conforms t types) v s := by
  fun_cases answer types (fun w t => w.conforms t types) v s
  case case1 found => exact conforms_named unionFree found
  case case2 absent => exact conforms_absent absent
  case case3 => rw [conforms_wrapped, conforms_union]
  case case4 => exact conforms_union _
  case case5 => exact conforms_wrapped _ _
  case case6 p bare => rw [conforms_plain rfl rfl, fits_primitive, unwrap_of_bare bare]
  case case7 => exact conforms_plain rfl rfl
  case case8 => exact conforms_plain rfl rfl
  case case9 => exact conforms_items _ _
  case case10 => exact conforms_entries _ _
  case case11 => exact conforms_members _ _ _
  case case12 bare notReference notUnion notPrimitive _ notFixed notEnum notArray notMap
      notRecord =>
    have plain : v.conforms s types = v.fits types s := by
      cases s with
      | reference => exact (notReference _ _ rfl).elim
      | union => exact (notUnion _ rfl).elim
      | _ => exact conforms_plain rfl rfl
    rw [plain, fits]
    -- What is left is that none of the other rules for fitting a schema applies.
    all_goals first | assumption | (intros; exact notPrimitive _ ‹_›)

theorem eq_conforms (unionFree : types.UnionFree) {check : Value → Schema → Bool}
    (answers : ∀ v s, check v s = answer types check v s) (v : Value) (s : Schema) :
    check v s = v.conforms s types := by
  induction v, s using question_induction unionFree with
  | step v s ih => rw [answers, conforms_eq_answer unionFree, answer_congr ih]

/-- A name that stands for a union with the name among its branches leads round in a circle. -/
theorem not_wellFounded_of_union {name : String} {kind : Kind} {branches : List Schema}
    (found : types.resolve? name = some (.union branches))
    (back : .reference name kind ∈ branches) :
    ¬ WellFounded fun asked asking => Asks types asking asked := by
  intro wellFounded
  have there : Asks types (.null, .reference name kind) (.null, .union branches) :=
    .definition found
  have again : Asks types (.null, .union branches) (.null, .reference name kind) :=
    .branch nofun back
  exact wellFounded.asymmetric _ _ there again

/--
Where no name stands for a union, no chain of questions goes on for ever, and what conforms is the
one answer that all questions can have. The tables of records and parsers are of this kind, whatever
a parser was used for.
-/
theorem conforms_terminates :
    (∀ types : Definitions, types.UnionFree →
      (WellFounded fun asked asking => Asks types asking asked) ∧
      (∀ ask ask' v s, (∀ w t, Asks types (v, s) (w, t) → ask w t = ask' w t) →
        answer types ask v s = answer types ask' v s) ∧
      (∀ v s, v.conforms s types = answer types (fun w t => w.conforms t types) v s) ∧
      ∀ check : Value → Schema → Bool, (∀ v s, check v s = answer types check v s) →
        ∀ v s, check v s = v.conforms s types) ∧
    (∀ r : RecordSchema, r.definitions.UnionFree) ∧
    ∀ uses, (({} : Parser).after uses).types.UnionFree := by
  refine ⟨fun types unionFree => ⟨asks_wellFounded unionFree, fun _ _ _ _ => answer_congr,
    conforms_eq_answer unionFree, fun _ => eq_conforms unionFree⟩,
    RecordSchema.definitions_unionFree, fun uses => ?_⟩
  exact Parser.after_unionFree Definitions.unionFree_empty uses

namespace Ivy

/-- A host bears ivies, and each ivy climbs a host or none. -/
def host : Schema := .record .record
  { name := "Host"
    fields := [{ name := ⟨"hosted", by decide⟩, type := .array (.reference "Ivy" .record) }] }

def ivy : Schema := .record .record
  { name := "Ivy"
    fields := [{ name := ⟨"climbs", by decide⟩
                 type := .union [.primitive .null, .reference "Host" .record] }] }

def table : Definitions := ⟨[("Host", host), ("Ivy", ivy)]⟩

theorem table_unionFree : table.UnionFree := Definitions.unionFree_of_entries (by decide)

def bearing (climbed : Value) : Value :=
  .record [("hosted", .array [.record [("climbs", climbed)]])]

def grove : Value := bearing (.union 1 (bearing .null))

end Ivy

theorem conforms_terminates_ivy :
    (WellFounded fun asked asking => Asks Ivy.table asking asked) ∧
    answer Ivy.table (fun w t => w.conforms t Ivy.table) Ivy.grove Ivy.host = true ∧
    answer Ivy.table (fun w t => w.conforms t Ivy.table) (Ivy.bearing (.int 1)) Ivy.host =
      false := by
  obtain ⟨wellFounded, -, answers, -⟩ := conforms_terminates.1 Ivy.table Ivy.table_unionFree
  refine ⟨wellFounded, ?_, ?_⟩
  · rw [← answers]
    rfl
  · rw [← answers]
    rfl

end SchemaBinding.Value
