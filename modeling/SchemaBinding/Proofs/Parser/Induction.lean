import SchemaBinding.Schema.Parser

/-!
# Properties of every run of the parser

What the steps of the parser have and the ways of building hand on holds of every run.
-/

namespace SchemaBinding.Parser

/-! ## The names that a document mentions -/

mutual

/-- The names that definitions are to have in a document, and those that types are called by. -/
def mentioned : Json → List String
  | .str name => if (Primitive.ofName? name).isSome then [] else [name]
  | .arr items => mentionedBranches items
  | .obj members =>
    match members.lookup "type" with
    | some (.str text) =>
      match TypeWord.ofString text with
      | .primitive _ => []
      | .record _ => (Json.text? "name" members).toList ++ mentionedFieldsAt members
      | .enumeration | .fixed => (Json.text? "name" members).toList
      | .array => mentionedAt "items" members
      | .map => mentionedAt "values" members
      | .name name => [name]
    | _ => mentionedAt "type" members
  | _ => []
termination_by structural document => document

def mentionedBranches : List Json → List String
  | [] => []
  | item :: items => mentioned item ++ mentionedBranches items

def mentionedAt (key : String) : List (String × Json) → List String
  | [] => []
  | (k, value) :: members => if k = key then mentioned value else mentionedAt key members

def mentionedFieldsAt : List (String × Json) → List String
  | [] => []
  | (k, value) :: members =>
    if k = "fields" then mentionedFieldArray value else mentionedFieldsAt members

def mentionedFieldArray : Json → List String
  | .arr items => mentionedFields items
  | _ => []

def mentionedFields : List Json → List String
  | [] => []
  | item :: items => mentionedField item ++ mentionedFields items

def mentionedField : Json → List String
  | .obj members => mentionedAt "type" members
  | _ => []

end

/-! ## Properties that the steps hand on -/

/--
A property of steps that the steps of the parser have and hand on, as long as all names are allowed.
All that the parts of a definition know of its name is that it is free. No union gets a name.
-/
structure Hereditary (allowed free : String → Prop) (P : (α : Type) → ParserM α → Prop) : Prop where
  pure : ∀ {α : Type} (a : α), P α (pure a)
  throw : ∀ {α : Type} (e : SchemaError), P α (throw e)
  bind : ∀ {α β : Type} {m : ParserM α} {f : α → ParserM β}, P α m → (∀ a, P β (f a)) →
    P β (m >>= f)
  violation : ∀ e : SchemaError, P Unit (violation e)
  reference : ∀ name : String, allowed name → P Schema (reference name)
  definition : ∀ {α : Type} {f : DefinitionName → ParserM α} (kind : Kind)
    (members : Json.Members), (∀ text ∈ Json.text? "name" members, allowed text) →
      (∀ names, free names.fullname → P α (f names)) → P α (definitionName kind members >>= f)
  define : ∀ (fullname : String) (schema : Schema), schema.isUnion = false → free fullname →
    P Unit (define fullname schema)
  inSpace : ∀ {α : Type} {step : ParserM α} (space : Option String), P α step →
    P α (inSpace space step)

namespace Hereditary

variable {allowed free : String → Prop} {P : (α : Type) → ParserM α → Prop}
  (h : Hereditary allowed free P) {members : Json.Members}
include h

theorem throw_bind {α β : Type} (e : SchemaError) (f : α → ParserM β) :
    P β ((MonadExcept.throw e : ParserM α) >>= f) := h.throw e

theorem map {α β : Type} {m : ParserM α} (g : α → β) (hm : P α m) : P β (g <$> m) :=
  h.bind hm fun a => h.pure (g a)

theorem lift {α : Type} (r : Except SchemaError α) : P α (liftM r) := by
  cases r with
  | ok a => exact h.pure a
  | error e => exact h.throw e

theorem heed (check : Except SchemaError Unit) : P Unit (heed check) := by
  cases check with
  | ok => exact h.pure ()
  | error e => exact h.violation e

theorem forM {α : Type} {items : List α} {f : α → ParserM Unit} (each : ∀ a, P Unit (f a)) :
    P Unit (items.forM f) := by
  induction items with
  | nil => exact h.pure ()
  | cons item items ih => exact h.bind (each item) fun _ => ih

theorem enter {fullname : String} {schema : Schema} (notUnion : schema.isUnion = false)
    (new : free fullname) : P Schema (do Parser.define fullname schema; return schema) :=
  h.bind (h.define fullname schema notUnion new) fun _ => h.pure schema

theorem enumeration (names : ∀ text ∈ Json.text? "name" members, allowed text) :
    P Schema (enumeration members) := by
  unfold Parser.enumeration
  apply h.definition _ _ names
  intro names new
  split
  · apply h.bind (h.lift _)
    intro symbols
    dsimp only
    split
    · exact h.throw_bind _ _
    · apply h.bind (h.forM fun symbol => h.heed (checkName symbol))
      intro _
      split
      · split
        · exact h.enter rfl new
        · exact h.throw_bind _ _
      · exact h.enter rfl new
  · exact h.throw _

theorem fixed (names : ∀ text ∈ Json.text? "name" members, allowed text) :
    P Schema (fixed members) := by
  unfold Parser.fixed
  apply h.definition _ _ names
  intro names new
  split
  · exact h.enter rfl new
  · exact h.throw _

theorem record {inside : ParserM (List Field)} (role : RecordRole)
    (names : ∀ text ∈ Json.text? "name" members, allowed text) (inner : P (List Field) inside) :
    P Schema (do
      let names ← beginRecord role members
      let fields ← Parser.inSpace names.space inside
      endRecord role names members fields) := by
  unfold beginRecord
  rw [bind_assoc]
  apply h.definition _ _ names
  intro names new
  rw [bind_assoc]
  apply h.bind (h.define _ _ rfl new)
  intro _
  rw [pure_bind]
  apply h.bind (h.inSpace names.space inner)
  intro fields
  unfold endRecord
  split
  · exact h.throw_bind _ _
  · exact h.enter rfl new

theorem checkBranches (position : Nat) (seen : List String) (branches : List Schema) :
    P Unit (checkBranches position seen branches) := by
  induction branches generalizing position seen with
  | nil => exact h.pure ()
  | cons branch branches ih =>
    have rest : P Unit (do
        let key := branchKey branch
        if seen.contains key then Parser.violation (.duplicateBranch key position)
        Parser.checkBranches (position + 1) (key :: seen) branches) := by
      dsimp only
      split
      · exact h.bind (h.violation _) fun _ => ih _ _
      · exact ih _ _
    unfold Parser.checkBranches
    split
    · exact h.bind (h.violation _) fun _ => rest
    · exact rest

/-! ## The whole parser -/

mutual

theorem schema : ∀ document : Json, (∀ text ∈ mentioned document, allowed text) →
    P Schema (schema document)
  | .str name, names => by
    unfold Parser.schema typeName
    unfold mentioned at names
    split
    · exact h.pure _
    · next unknown =>
      rw [unknown] at names
      exact h.reference name (names name List.mem_cons_self)
  | .arr items, names => by
    unfold Parser.schema
    dsimp only
    split
    · exact h.throw_bind _ _
    · apply h.bind (schemas items names)
      intro branches
      exact h.bind (h.checkBranches _ _ _) fun _ => h.pure _
  | .obj members, names => by
    unfold Parser.schema
    unfold mentioned at names
    split
    · next typed =>
      rw [typed] at names
      dsimp only at names
      split
      · exact h.pure _
      · next word =>
        rw [word] at names
        obtain ⟨own, inside⟩ := List.forall_mem_append.mp names
        exact h.record _ (fun text mem => own text (Option.mem_toList.mpr mem))
          (fieldsAt _ members inside)
      · next word =>
        rw [word] at names
        exact h.enumeration fun text mem => names text (Option.mem_toList.mpr mem)
      · next word =>
        rw [word] at names
        exact h.map _ (schemaAt _ _ members names)
      · next word =>
        rw [word] at names
        exact h.map _ (schemaAt _ _ members names)
      · next word =>
        rw [word] at names
        exact h.fixed fun text mem => names text (Option.mem_toList.mpr mem)
      · next word =>
        rw [word] at names
        exact h.reference _ (names _ List.mem_cons_self)
    · next other =>
      split at names
      · next text typed => exact (other text typed).elim
      · exact schemaAt _ _ members names
  | .null, _ => h.throw _
  | .bool _, _ => h.throw _
  | .num _, _ => h.throw _
termination_by structural document => document

theorem schemas : ∀ items : List Json, (∀ text ∈ mentionedBranches items, allowed text) →
    P (List Schema) (schemas items)
  | [], _ => h.pure []
  | item :: items, names => by
    obtain ⟨own, others⟩ := List.forall_mem_append.mp names
    unfold Parser.schemas
    apply h.bind (schema item own)
    intro first
    exact h.bind (schemas items others) fun _ => h.pure _

theorem schemaAt (key : String) (missing : SchemaError) : ∀ members : List (String × Json),
    (∀ text ∈ mentionedAt key members, allowed text) → P Schema (schemaAt key missing members)
  | [], _ => h.throw missing
  | (k, value) :: members, names => by
    unfold Parser.schemaAt
    unfold mentionedAt at names
    split
    · next same =>
      rw [if_pos same] at names
      exact schema value names
    · next other =>
      rw [if_neg other] at names
      exact schemaAt key missing members names

theorem fieldsAt (role : RecordRole) : ∀ members : List (String × Json),
    (∀ text ∈ mentionedFieldsAt members, allowed text) → P (List Field) (fieldsAt role members)
  | [], _ => h.throw _
  | (k, value) :: members, names => by
    unfold Parser.fieldsAt
    unfold mentionedFieldsAt at names
    split
    · next same =>
      rw [if_pos same] at names
      exact fieldArray role value names
    · next other =>
      rw [if_neg other] at names
      exact fieldsAt role members names

theorem fieldArray (role : RecordRole) : ∀ value : Json,
    (∀ text ∈ mentionedFieldArray value, allowed text) → P (List Field) (fieldArray role value)
  | .arr items, names => fields items names
  | .null, _ => h.throw _
  | .bool _, _ => h.throw _
  | .num _, _ => h.throw _
  | .str _, _ => h.throw _
  | .obj _, _ => h.throw _

theorem fields : ∀ items : List Json, (∀ text ∈ mentionedFields items, allowed text) →
    P (List Field) (fields items)
  | [], _ => h.pure []
  | item :: items, names => by
    obtain ⟨own, others⟩ := List.forall_mem_append.mp names
    unfold Parser.fields
    apply h.bind (field item own)
    intro first
    exact h.bind (fields items others) fun _ => h.pure _

theorem field : ∀ item : Json, (∀ text ∈ mentionedField item, allowed text) → P Field (field item)
  | .obj members, names => by
    unfold Parser.field
    split
    · exact h.throw _
    · apply h.bind (schemaAt _ _ members names)
      intro type
      apply h.bind (h.lift _)
      intro order
      exact h.lift _
  | .null, _ => h.throw _
  | .bool _, _ => h.throw _
  | .num _, _ => h.throw _
  | .str _, _ => h.throw _
  | .arr _, _ => h.throw _

end

end Hereditary

end SchemaBinding.Parser
