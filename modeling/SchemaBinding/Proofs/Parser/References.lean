import Mathlib.Data.List.Induction
import SchemaBinding.Proofs.Parser.Growth

/-!
# References of a parser that is used again

A reference is answered, unless an earlier read failed inside the definition or a record is defined
within itself.
-/

namespace SchemaBinding.Parser

open Step Definitions

variable {start p q : Parser} {uses : List Use} {name : String} {kind : Kind}

/-! ## Definitions that were left open -/

/-- An earlier read of the run has failed and left a reference in the place of the definition. -/
def LeftOpen (start : Parser) (uses : List Use) (name : String) : Prop :=
  ∃ earlier failed later e, uses = earlier ++ .parse failed :: later ∧
    ((start.after earlier).parse failed).1 = .error e ∧
    ((start.after earlier).parse failed).2.types.Pending name

theorem LeftOpen.concat (h : LeftOpen start uses name) (last : Use) :
    LeftOpen start (uses ++ [last]) name := by
  obtain ⟨earlier, failed, later, e, rfl, refused, pending⟩ := h
  exact ⟨earlier, failed, later ++ [last], e, List.append_assoc .., refused, pending⟩

theorem leftOpen_of_pending (settled : ¬ start.types.Pending name)
    (pending : (start.after uses).types.Pending name) : LeftOpen start uses name := by
  induction uses using List.reverseRecOn with
  | nil => exact absurd pending settled
  | append_singleton uses last ih =>
    rw [after_append_singleton] at pending
    cases last with
    | setStrict strict => exact (ih pending).concat _
    | parse document =>
      cases outcome : ((start.after uses).parse document).1 with
      | ok s => exact (ih (pending_of_parse outcome pending)).concat _
      | error e => exact ⟨uses, document, [], e, rfl, outcome, pending⟩

/-! ## Entries of references -/

/-- A reference is in order when the outermost definition of its name has its kind or, if the schema
does not define the name, when the definition before it was not pending. -/
def InOrder (before : Definitions) (parts : List Schema) (name : String) (kind : Kind) : Prop :=
  match definitionOf? name parts with
  | some definition => definition.kind = kind
  | none => ¬ before.Pending name

variable {before after : Definitions} {parts : List Schema}

theorem Settles.contains_reference (h : Settles before parts after)
    (mem : .reference name kind ∈ parts) : after.contains name = true := by
  unfold contains
  rw [h.find?]
  cases defined : definitionOf? name parts with
  | some definition => rfl
  | none =>
    have found := h.known name kind mem (definitionOf?_eq_none.mp defined)
    obtain ⟨entry, listed, -⟩ := Option.map_eq_some_iff.mp found
    rw [listed]
    rfl

theorem Settles.definesAs_iff (h : Settles before parts after)
    (mem : .reference name kind ∈ parts) :
    after.DefinesAs name kind ↔ InOrder before parts name kind := by
  have entry := h.find? name
  unfold InOrder
  cases defined : definitionOf? name parts with
  | some definition =>
    rw [defined] at entry
    have resolved := resolve?_eq_some.mpr ⟨entry, complete_of_definitionOf? defined⟩
    unfold DefinesAs
    simp [resolved]
  | none =>
    have new := definitionOf?_eq_none.mp defined
    constructor
    · rintro ⟨definition, found, -⟩ pending
      have still := h.pending.mpr ⟨new, pending⟩
      exact not_defines_of_pending still (defines_of_resolve? found)
    · intro settled
      obtain ⟨definition, listed, same⟩ := Option.map_eq_some_iff.mp (h.known name kind mem new)
      rw [defined, listed] at entry
      exact ⟨definition, resolve?_of_find? entry fun pending => settled (h.pending.mp pending).2,
        same⟩

theorem Settles.definesAs_of_settled (h : Settles before parts after)
    (within : ∀ part ∈ parts, part.NotWithinItself) (mem : .reference name kind ∈ parts)
    (settled : ¬ before.Pending name) : after.DefinesAs name kind := by
  have found := h.matched within name kind mem settled
  obtain ⟨definition, listed, same⟩ := Option.map_eq_some_iff.mp found
  exact ⟨definition, resolve?_of_find? listed fun pending => settled (h.pending.mp pending).2, same⟩

/--
However a new parser was used before, each reference in a schema that it accepts has an entry. That
is a complete definition of the right kind just when the reference is in order. If it is not, then
an earlier read has failed and left the definition open, or a record is defined within itself.
-/
theorem references_definesAs_iff (uses : List Use) {document : Json} {s : Schema}
    (accepted : ((({} : Parser).after uses).parse document).1 = .ok s) :
    let p := ({} : Parser).after uses
    let q := (p.parse document).2
    ∀ name kind, .reference name kind ∈ s.parts →
      q.types.contains name = true ∧
        (q.types.DefinesAs name kind ↔ InOrder p.types s.parts name kind) ∧
        (q.types.DefinesAs name kind ∨ LeftOpen {} uses name ∨
          ¬ s.Everywhere Schema.NotWithinItself) := by
  intro p q name kind mem
  have given : Gives (schema document) p s q := Prod.ext accepted rfl
  have settles := (reads_of_schema document given).settles
  refine ⟨settles.contains_reference mem, settles.definesAs_iff mem, ?_⟩
  by_cases pending : p.types.Pending name
  · have settled : ¬ ({} : Parser).types.Pending name := nofun
    exact .inr (.inl (leftOpen_of_pending settled pending))
  · by_cases within : s.Everywhere Schema.NotWithinItself
    · exact .inl (settles.definesAs_of_settled within mem pending)
    · exact .inr (.inr within)

namespace Stump

/-- The top of the tree has a type that nothing defines. -/
def broken : Json :=
  .obj [("type", .str "record"), ("name", .str "Tree"), ("namespace", .str "forest"),
    ("fields", .arr [.obj [("name", .str "top"), ("type", .str "Crown")]])]

/-- The tree with its crown, and a tree beside it. -/
def mended : Json :=
  let crown := .obj [("type", .str "enum"), ("name", .str "Crown"),
    ("symbols", .arr [.str "ROUND", .str "OPEN"])]
  .obj [("type", .str "record"), ("name", .str "Tree"), ("namespace", .str "forest"),
    ("fields", .arr [
      .obj [("name", .str "top"), ("type", crown)],
      .obj [("name", .str "beside"), ("type", .arr [.str "null", .str "Tree"])]])]

def tree : Schema := .record .record
  { name := "Tree"
    space := some "forest"
    fields := [
      { name := ⟨"top", by decide⟩
        type := .enumeration
          { name := "Crown", space := some "forest", symbols := ["ROUND", "OPEN"] } },
      { name := ⟨"beside", by decide⟩
        type := .union [.primitive .null, .reference "forest.Tree" .record] }] }

/-- The crown takes the name of the tree, and the shade is of that type. -/
def twofold : Json :=
  let crown := .obj [("type", .str "enum"), ("name", .str "Tree"),
    ("symbols", .arr [.str "ROUND", .str "OPEN"])]
  .obj [("type", .str "record"), ("name", .str "Tree"), ("namespace", .str "forest"),
    ("fields", .arr [
      .obj [("name", .str "top"), ("type", crown)],
      .obj [("name", .str "shade"), ("type", .str "Tree")]])]

end Stump

theorem references_definesAs_mended :
    ((({} : Parser).after [.parse Stump.broken]).parse Stump.mended).1 = .ok Stump.tree ∧
      (({} : Parser).after [.parse Stump.broken, .parse Stump.mended]).types.DefinesAs
        "forest.Tree" .record := by
  have accepted :
      ((({} : Parser).after [.parse Stump.broken]).parse Stump.mended).1 = .ok Stump.tree := rfl
  have mem : .reference "forest.Tree" .record ∈ Stump.tree.parts :=
    .tail _ (.tail _ (.tail _ (.tail _ (.head _))))
  obtain ⟨-, inOrder, -⟩ := references_definesAs_iff [.parse Stump.broken] accepted _ _ mem
  exact ⟨accepted, inOrder.mpr rfl⟩

/--
Until then the parser gives out references to a record that was never defined. Where a record is
defined within itself, a reference from inside has the kind of the definition that is lost.
-/
theorem reference_left_open_stump :
    ((({} : Parser).after [.parse Stump.broken]).parse (.str "forest.Tree")).1 =
        .ok (.reference "forest.Tree" .record) ∧
      ¬ (({} : Parser).after [.parse Stump.broken, .parse (.str "forest.Tree")]).types.DefinesAs
        "forest.Tree" .record ∧
      (∃ s, (({} : Parser).parse Stump.twofold).1 = .ok s ∧
        .reference "forest.Tree" .enumeration ∈ s.parts) ∧
      ¬ (({} : Parser).after [.parse Stump.twofold]).types.DefinesAs "forest.Tree" .enumeration := by
  refine ⟨rfl, ?_, ⟨_, rfl, ?_⟩, ?_⟩
  · rintro ⟨definition, found, -⟩
    cases found
  · exact .tail _ (.tail _ (.head _))
  · rintro ⟨definition, found, same⟩
    cases found
    cases same

end SchemaBinding.Parser
