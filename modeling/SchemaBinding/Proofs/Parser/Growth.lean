import SchemaBinding.Proofs.Parser.Entries
import SchemaBinding.Proofs.Parser.Induction
import SchemaBinding.Proofs.Schema.UnionFree

/-!
# What a call leaves as it was

Whatever became of a read, no name is gone, and every complete definition is as before.
-/

namespace SchemaBinding

/-! ## Tables that grow -/

namespace Definitions

/-- No name goes, and a complete definition stays as it is. -/
structure Grows (before after : Definitions) : Prop where
  names : ∀ name, before.contains name = true → after.contains name = true
  definitions : ∀ name definition, before.resolve? name = some definition →
    after.resolve? name = some definition

variable {before between after : Definitions} {name : String}

theorem Grows.refl : Grows before before := ⟨fun _ has => has, fun _ _ found => found⟩

theorem Grows.trans (h : Grows before between) (h' : Grows between after) : Grows before after :=
  ⟨fun name has => h'.names name (h.names name has),
    fun name definition found => h'.definitions name definition (h.definitions name _ found)⟩

theorem Grows.not_defines (h : Grows before after) (free : ¬ after.Defines name) :
    ¬ before.Defines name := by
  intro defined
  obtain ⟨definition, found⟩ := defines_iff.mp defined
  exact free (defines_of_resolve? (h.definitions name definition found))

theorem Grows.insert (h : Grows before after) (free : ¬ before.Defines name) (schema : Schema) :
    Grows before (after.insert name schema) := by
  constructor
  · intro other has
    unfold contains
    rw [find?_insert]
    split
    · rfl
    · exact h.names other has
  · intro other definition found
    have distinct : other ≠ name := by
      rintro rfl
      exact free (defines_of_resolve? found)
    rw [resolve?_insert, if_neg distinct]
    exact h.definitions other definition found

end Definitions

namespace Parser

open Step Definitions

/-! ## Steps that keep to this -/

variable {rule : Definitions → Prop} {p q : Parser} {α β : Type} {kind : Kind}
  {names : DefinitionName} {members : Json.Members}

/--
A step comes back to the namespace it began in, and a rule that applies to the table before it
applies to the table after it. It may fail.
-/
def Keeping (rule : Definitions → Prop) {α : Type} (step : ParserM α) : Prop :=
  ∀ p, rule p.types → (step.run.run p).2.space = p.space ∧ rule (step.run.run p).2.types

theorem keeping_pure (a : α) : Keeping rule (pure a) := fun _ held => ⟨rfl, held⟩

theorem keeping_throw (e : SchemaError) : Keeping rule (throw e : ParserM α) :=
  fun _ held => ⟨rfl, held⟩

theorem keeping_bind {m : ParserM α} {f : α → ParserM β} (hm : Keeping rule m)
    (hf : ∀ p a q, rule q.types → Gives m p a q → Keeping rule (f a)) :
    Keeping rule (m >>= f) := by
  intro p held
  have first := hm p held
  rw [run_bind]
  cases ran : m.run.run p with
  | mk result q =>
    rw [ran] at first
    cases result with
    | error e => exact first
    | ok a =>
      obtain ⟨space, held⟩ := first
      obtain ⟨space', held'⟩ := hf p a q held ran q held
      exact ⟨space'.trans space, held'⟩

theorem keeping_get_bind {f : Parser → ParserM α} (h : ∀ p, Keeping rule (f p)) :
    Keeping rule (get >>= f) := fun p held => h p p held

theorem keeping_violation (e : SchemaError) : Keeping rule (violation e) := by
  unfold violation
  apply keeping_get_bind
  intro p
  split
  · exact keeping_throw e
  · exact fun _ held => ⟨rfl, held⟩

theorem keeping_heed (check : Except SchemaError Unit) : Keeping rule (heed check) := by
  cases check with
  | ok => exact keeping_pure ()
  | error e => exact keeping_violation e

theorem keeping_reference (name : String) : Keeping rule (reference name) := by
  unfold reference
  apply keeping_get_bind
  intro p
  dsimp only
  split
  · exact keeping_pure _
  · exact keeping_throw _

theorem keeping_definitionName (kind : Kind) (members : Json.Members) :
    Keeping rule (definitionName kind members) := by
  unfold definitionName
  split
  · exact keeping_throw _
  · apply keeping_get_bind
    intro p
    apply keeping_bind (keeping_heed _)
    intro _ _ _ _ _
    apply keeping_get_bind
    intro p
    split
    · exact keeping_throw _
    · exact keeping_pure _

theorem not_defines_of_definitionName (h : Gives (definitionName kind members) p names q) :
    ¬ q.types.Defines names.fullname := by
  obtain ⟨_, -, -, -, free⟩ := gives_definitionName.mp h
  exact not_not.mpr free

/--
Every step keeps a rule that goes on to apply when a free name is given to a schema other than a
union. A name that the table does not define has to be free.
-/
theorem hereditary_keeping {free : String → Prop}
    (undefined : ∀ {d : Definitions} {fullname : String}, rule d → ¬ d.Defines fullname →
      free fullname)
    (entered : ∀ {d : Definitions} {fullname : String} {schema : Schema}, rule d →
      schema.isUnion = false → free fullname → rule (d.insert fullname schema)) :
    Hereditary (fun _ => True) free fun _ step => Keeping rule step where
  pure := keeping_pure
  throw := keeping_throw
  bind hm hf := keeping_bind hm fun _ a _ _ _ => hf a
  violation := keeping_violation
  reference name _ := keeping_reference name
  definition kind members _ rest := by
    apply keeping_bind (keeping_definitionName kind members)
    intro _ names _ held named
    exact rest names (undefined held (not_defines_of_definitionName named))
  define _ _ notUnion free _ held := ⟨rfl, entered held notUnion free⟩
  inSpace space inside p held := ⟨rfl, (inside { p with space } held).2⟩

theorem hereditary_grows (origin : Definitions) :
    Hereditary (fun _ => True) (fun fullname => ¬ origin.Defines fullname)
      fun _ step => Keeping origin.Grows step :=
  hereditary_keeping Grows.not_defines fun grown _ free => grown.insert free _

theorem hereditary_unionFree : Hereditary (fun _ => True) (fun _ => True)
    fun _ step => Keeping Definitions.UnionFree step :=
  hereditary_keeping (fun _ _ => trivial) fun held notUnion _ => held.insert notUnion

/-! ## Calls and runs -/

/-- The parser stands in its first namespace, and its table has only grown. -/
structure Keeps (origin p : Parser) : Prop where
  space : p.space = origin.space
  types : origin.types.Grows p.types

theorem Keeps.refl : Keeps p p := ⟨rfl, .refl⟩

theorem Keeps.trans {r : Parser} (h : Keeps p q) (h' : Keeps q r) : Keeps p r :=
  ⟨h'.space.trans h.space, h.types.trans h'.types⟩

theorem parse_keeps (p : Parser) (document : Json) : Keeps p (p.parse document).2 := by
  have keeping := (hereditary_grows p.types).schema document fun _ _ => trivial
  obtain ⟨space, types⟩ := keeping p .refl
  exact ⟨space, types⟩

/-- What a program does with a parser. -/
inductive Use where
  | parse (document : Json)
  | setStrict (strict : Bool)

/-- The parser after one use, whatever came of it. -/
def use (p : Parser) : Use → Parser
  | .parse document => (p.parse document).2
  | .setStrict strict => { p with strict }

def after (p : Parser) (uses : List Use) : Parser := uses.foldl use p

theorem after_append_singleton (p : Parser) (uses : List Use) (last : Use) :
    p.after (uses ++ [last]) = (p.after uses).use last := List.foldl_concat ..

theorem use_keeps (p : Parser) (once : Use) : Keeps p (p.use once) := by
  cases once with
  | parse document => exact parse_keeps p document
  | setStrict strict => exact ⟨rfl, .refl⟩

theorem after_keeps (p : Parser) (uses : List Use) : Keeps p (p.after uses) := by
  induction uses generalizing p with
  | nil => exact .refl
  | cons once uses ih => exact (use_keeps p once).trans (ih (p.use once))

theorem use_unionFree (free : p.types.UnionFree) (once : Use) : (p.use once).types.UnionFree := by
  cases once with
  | parse document => exact (hereditary_unionFree.schema document (fun _ _ => trivial) p free).2
  | setStrict strict => exact free

theorem after_unionFree (free : p.types.UnionFree) (uses : List Use) :
    (p.after uses).types.UnionFree := by
  induction uses generalizing p with
  | nil => exact free
  | cons once uses ih => exact ih (use_unionFree free once)

theorem pending_of_parse {document : Json} {s : Schema} {name : String}
    (accepted : (p.parse document).1 = .ok s) (pending : (p.parse document).2.types.Pending name) :
    p.types.Pending name := by
  have given : Gives (schema document) p s (p.parse document).2 := Prod.ext accepted rfl
  exact ((reads_of_schema document given).settles.pending.mp pending).2

/--
After any run, and whatever comes of one more read: the namespace is the same, no name is gone, and
every complete definition is as before. If the read succeeds, it leaves nothing pending.
-/
theorem parse_disciplined (start : Parser) (uses : List Use) (document : Json) :
    let p := start.after uses
    let q := (p.parse document).2
    p.space = start.space ∧ q.space = p.space ∧
      (∀ name, p.types.contains name = true → q.types.contains name = true) ∧
      (∀ name definition, p.types.resolve? name = some definition →
        q.types.resolve? name = some definition) ∧
      ((p.parse document).1.isOk = true → (∀ name, ¬ p.types.Pending name) →
        ∀ name, ¬ q.types.Pending name) := by
  intro p q
  have kept := parse_keeps p document
  refine ⟨(after_keeps start uses).space, kept.space, kept.types.names, kept.types.definitions, ?_⟩
  intro ok settled name pending
  obtain ⟨s, accepted⟩ := Result.isOk_eq_true.mp ok
  exact settled name (pending_of_parse accepted pending)

end Parser

end SchemaBinding
