import SchemaBinding.Proofs.Parser.Induction
import SchemaBinding.Proofs.Parser.Steps
import SchemaBinding.Proofs.Schema.Name

/-!
# Definitions that a document has nothing to do with

Types that a document does not mention are never found and never stand in the way.
-/

namespace SchemaBinding

/-! ## Names with one last part -/

/-- No name in the table ends in the last part of the text. -/
def Definitions.Apart (d : Definitions) (text : String) : Prop :=
  ∀ entry ∈ d.entries, (splitLast entry.1).2 ≠ (splitLast text).2

instance (d : Definitions) : DecidablePred d.Apart := fun text =>
  inferInstanceAs (Decidable (∀ entry ∈ d.entries, (splitLast entry.1).2 ≠ (splitLast text).2))

/-- Two tables one after the other, where new entries go to the second one. -/
structure Definitions.Above (base own whole : Definitions) : Prop where
  entries : whole.entries = base.entries ++ own.entries
  apart : ∀ name, own.contains name = true → base.contains name = false

namespace Definitions

variable {d base own whole : Definitions} {text fullname : String} {s : Schema}

theorem Apart.find?_eq_none (h : d.Apart text)
    (ending : (splitLast fullname).2 = (splitLast text).2) : d.find? fullname = none := by
  refine List.lookup_eq_none_iff.mpr fun entry mem => ?_
  rw [bne_iff_ne]
  rintro rfl
  exact h entry mem ending

theorem above_empty (base : Definitions) : base.Above .empty base :=
  ⟨(List.append_nil _).symm, nofun⟩

theorem Above.find? (h : base.Above own whole) (absent : base.find? fullname = none) :
    whole.find? fullname = own.find? fullname := by
  unfold Definitions.find? at absent ⊢
  rw [h.entries, List.lookup_append, absent, Option.none_or]

theorem setEntry_append {front entries : List (String × Schema)}
    (absent : front.lookup fullname = none) :
    setEntry fullname s (front ++ entries) = front ++ setEntry fullname s entries := by
  induction front with
  | nil => rfl
  | cons entry front ih =>
    obtain ⟨name, schema⟩ := entry
    rw [lookup_cons] at absent
    split at absent
    · cases absent
    · next other =>
      rw [List.cons_append, setEntry, if_neg (Ne.symm other), ih absent, List.cons_append]

theorem Above.insert (h : base.Above own whole) (absent : base.find? fullname = none) (s : Schema) :
    base.Above (own.insert fullname s) (whole.insert fullname s) := by
  constructor
  · unfold Definitions.insert
    rw [h.entries, setEntry_append absent]
  · intro name has
    unfold contains at has
    rw [find?_insert] at has
    split at has
    · next same =>
      unfold contains
      rw [same, absent]
      rfl
    · exact h.apart name has

end Definitions

namespace Parser

open Step Definitions

theorem findSome?_of_agree {α β : Type} {f g : α → Option β} {as : List α}
    (agree : ∀ a ∈ as, f a = g a) : as.findSome? f = as.findSome? g := by
  induction as with
  | nil => rfl
  | cons a as ih =>
    obtain ⟨own, others⟩ := List.forall_mem_cons.mp agree
    rw [List.findSome?_cons, List.findSome?_cons, own, ih others]

theorem splitLast_of_candidates {space : Option String} {text fullname : String}
    (mem : fullname ∈ candidates space text) : (splitLast fullname).2 = (splitLast text).2 := by
  unfold candidates at mem
  split at mem
  · next undotted =>
    rcases List.mem_cons.mp mem with rfl | mem
    · rw [splitLast_qualify _ undotted, splitLast_of_undotted undotted]
    · rw [List.mem_singleton.mp mem]
  · rw [List.mem_singleton.mp mem]

theorem splitLast_ofText (around space? : Option String) (text : String) :
    (splitLast (DefinitionName.ofText around space? text).fullname).2 = (splitLast text).2 := by
  have undotted := hasDot_splitLast text
  unfold DefinitionName.ofText
  cases parts : splitLast text with
  | mk space name =>
    rw [parts] at undotted
    cases space with
    | some space => exact congrArg Prod.snd (splitLast_qualify space undotted)
    | none =>
      dsimp only
      split
      · exact congrArg Prod.snd (splitLast_qualify _ undotted)
      · exact congrArg Prod.snd (splitLast_of_undotted undotted)

/-! ## Side by side with the other definitions -/

variable {origin p q p' : Parser} {α β : Type} {kind : Kind} {members : Json.Members}
  {names : DefinitionName}

/-- The parser `q` has what `p` has, on top of what `origin` had before. -/
structure Beside (origin p q : Parser) : Prop where
  space : q.space = p.space
  strict : q.strict = p.strict
  types : origin.types.Above p.types q.types
  accepted : q.accepted = origin.accepted ++ p.accepted

/-- A step that does the same without and with what was there before. -/
def Framed (origin : Parser) (step : ParserM α) : Prop :=
  ∀ p q, Beside origin p q → (step.run.run q).1 = (step.run.run p).1 ∧
    Beside origin (step.run.run p).2 (step.run.run q).2

theorem framed_pure (a : α) : Framed origin (pure a) := fun _ _ h => ⟨rfl, h⟩

theorem framed_throw (e : SchemaError) : Framed origin (throw e : ParserM α) :=
  fun _ _ h => ⟨rfl, h⟩

theorem framed_bind {m : ParserM α} {f : α → ParserM β} (hm : Framed origin m)
    (hf : ∀ p a p', Gives m p a p' → Framed origin (f a)) : Framed origin (m >>= f) := by
  intro p q h
  obtain ⟨same, after⟩ := hm p q h
  rw [run_bind, run_bind]
  cases first : m.run.run p with
  | mk result p' =>
    cases second : m.run.run q with
    | mk result' q' =>
      rw [first, second] at same after
      obtain rfl : result' = result := same
      cases result' with
      | error e => exact ⟨rfl, after⟩
      | ok a => exact hf p a p' first p' q' after

theorem framed_get_bind {f : Parser → ParserM α}
    (same : ∀ p q, Beside origin p q → f q = f p) (h : ∀ p, Framed origin (f p)) :
    Framed origin (get >>= f) := by
  intro p q beside
  rw [run_get_bind, run_get_bind, same p q beside]
  exact h p p q beside

theorem framed_violation (e : SchemaError) : Framed origin (violation e) := by
  unfold violation
  apply framed_get_bind
  · intro p q h
    rw [h.strict]
  · intro p
    split
    · exact framed_throw e
    · intro p q h
      refine ⟨rfl, h.space, h.strict, h.types, ?_⟩
      rw [run_modify, run_modify, h.accepted, List.append_assoc]

theorem framed_heed (check : Except SchemaError Unit) : Framed origin (heed check) := by
  cases check with
  | ok => exact framed_pure ()
  | error e => exact framed_violation e

theorem framed_define {fullname : String} (absent : origin.types.find? fullname = none)
    (schema : Schema) : Framed origin (define fullname schema) :=
  fun _ _ h => ⟨rfl, h.space, h.strict, h.types.insert absent schema, h.accepted⟩

theorem framed_inSpace {step : ParserM α} (space : Option String) (h : Framed origin step) :
    Framed origin (inSpace space step) := by
  intro p q beside
  obtain ⟨same, after⟩ := h { p with space } { q with space }
    ⟨rfl, beside.strict, beside.types, beside.accepted⟩
  exact ⟨same, beside.space, after.strict, after.types, after.accepted⟩

/-! ## Names -/

theorem framed_reference {text : String} (apart : origin.types.Apart text) :
    Framed origin (reference text) := by
  unfold reference
  apply framed_get_bind
  · intro p q h
    have found : ∀ fullname ∈ candidates p.space text,
        (q.types.find? fullname).map (fun s => Schema.reference fullname s.kind) =
          (p.types.find? fullname).map fun s => Schema.reference fullname s.kind := by
      intro fullname mem
      rw [h.types.find? (apart.find?_eq_none (splitLast_of_candidates mem))]
    rw [h.space, findSome?_of_agree found]
  · intro p
    dsimp only
    split
    · exact framed_pure _
    · exact framed_throw _

theorem absent_of_definitionName
    (apart : ∀ text ∈ Json.text? "name" members, origin.types.Apart text)
    (h : Gives (definitionName kind members) p names p') :
    origin.types.find? names.fullname = none := by
  obtain ⟨text, named, rfl, -, -⟩ := gives_definitionName.mp h
  exact (apart text named).find?_eq_none (splitLast_ofText _ _ _)

theorem framed_definitionName
    (apart : ∀ text ∈ Json.text? "name" members, origin.types.Apart text) :
    Framed origin (definitionName kind members) := by
  unfold definitionName
  split
  · exact framed_throw _
  · next text named =>
    apply framed_get_bind
    · intro p q h
      rw [h.space]
    · intro p
      apply framed_bind (framed_heed _)
      intro _ _ _ _
      apply framed_get_bind
      · intro p' q' h
        have absent := (apart text named).find?_eq_none (splitLast_ofText p.space
          (Json.text? "namespace" members) text)
        unfold resolve?
        rw [h.types.find? absent]
      · intro p
        split
        · exact framed_throw _
        · exact framed_pure _

/-! ## The whole parser -/

theorem hereditary_framed (origin : Parser) :
    Hereditary origin.types.Apart (fun fullname => origin.types.find? fullname = none)
      fun _ step => Framed origin step where
  pure := framed_pure
  throw := framed_throw
  bind hm hf := framed_bind hm fun _ a _ _ => hf a
  violation := framed_violation
  reference _ := framed_reference
  definition _ _ apart rest :=
    framed_bind (framed_definitionName apart) fun _ names _ given =>
      rest names (absent_of_definitionName apart given)
  define _ schema _ absent := framed_define absent schema
  inSpace := framed_inSpace

/--
What a parser already knows makes no difference to a document that mentions no name with the same
last part: the result is that of a fresh parser, and what that one has learned is added.
-/
theorem parse_framed (p : Parser) (document : Json) (space : p.space = none)
    (apart : ∀ text ∈ mentioned document, p.types.Apart text) :
    let alone := ({ strict := p.strict } : Parser).parse document
    let after := p.parse document
    after.1 = alone.1 ∧ after.2.types.entries = p.types.entries ++ alone.2.types.entries ∧
      (∀ name, alone.2.types.contains name = true → p.types.contains name = false) ∧
      after.2.accepted = p.accepted ++ alone.2.accepted := by
  intro alone after
  have beside : Beside p { strict := p.strict } p :=
    ⟨space, rfl, above_empty _, (List.append_nil _).symm⟩
  obtain ⟨same, beside⟩ := (hereditary_framed p).schema document apart _ _ beside
  exact ⟨same, beside.types.entries, beside.types.apart, beside.accepted⟩

/-! ### Trees, flowers and seeds -/

namespace Wood

def known : Parser where
  types := ⟨[("wood.Seed", .fixed { name := "Seed", space := some "wood", size := 8 }),
    ("Flower", .enumeration { name := "Flower", symbols := ["ROSE"] })]⟩
  accepted := [.invalidName "1st" .badStart]

def tree : Json := .obj [("type", .str "record"), ("name", .str "wood.Tree"),
  ("fields", .arr
    [.obj [("name", .str "below"), ("type", .arr [.str "null", .str "Tree"])],
      .obj [("name", .str "leaf"), ("type", .obj [("type", .str "enum"), ("name", .str "Leaf"),
        ("symbols", .arr [.str "ROUND", .str "LONG"])])]])]

end Wood

open Wood in
theorem parse_framed_tree :
    mentioned tree = ["wood.Tree", "Tree", "Leaf"] ∧ (known.parse tree).1.isOk = true ∧
      (known.parse tree).2.types.entries.map (·.1) =
        ["wood.Seed", "Flower", "wood.Tree", "wood.Leaf"] := by
  have apart : ∀ text ∈ mentioned tree, known.types.Apart text := by decide
  obtain ⟨same, entries, -, -⟩ := parse_framed known tree rfl apart
  refine ⟨rfl, ?_, ?_⟩
  · rw [same]
    rfl
  · rw [entries]
    rfl

end Parser

end SchemaBinding
