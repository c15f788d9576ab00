import SchemaBinding.Proofs.Parser.Readable
import SchemaBinding.Proofs.Parser.Reread

/-!
# Reading what was written

A well-formed schema is read back from its document as it was: a parser can read it, and every
definition in it is in its place.
-/

namespace SchemaBinding

/-! ## Well-formed schemas are in their place -/

theorem placedIn_of_definable {around space : Option String} {before : Names} {name : String}
    (h : Definable around before name space) : PlacedIn around space := by
  have placed := h.placed
  cases space with
  | none => exact placed
  | some space =>
    rintro rfl
    cases placed

mutual

theorem placed_of_wellFormed : ∀ (s : Schema) {around : Option String} {before : Names},
    s.WellFormed around before → s.Placed around
  | .primitive _, _, _, _ => trivial
  | .reference .., _, _, _ => trivial
  | .enumeration _, _, _, ⟨named, _⟩ => placedIn_of_definable named
  | .fixed _, _, _, named => placedIn_of_definable named
  | .array items, _, _, h => placed_of_wellFormed items h
  | .map values, _, _, h => placed_of_wellFormed values h
  | .union branches, _, _, ⟨_, h⟩ => placedList_of_wellFormed branches h
  | .record _ body, _, _, h => recordPlaced_of_wellFormed body h
termination_by structural s => s

theorem recordPlaced_of_wellFormed {role : RecordRole} :
    ∀ (body : RecordSchema) {around : Option String} {before : Names},
      body.WellFormed around before role → body.Placed around
  | ⟨_, _, fields, _, _⟩, _, _, ⟨named, _, h⟩ =>
    ⟨placedIn_of_definable named, fieldsPlaced_of_wellFormed fields h⟩

theorem fieldsPlaced_of_wellFormed :
    ∀ (fields : List Field) {around : Option String} {before : Names},
      Field.WellFormedList around before fields → Field.PlacedList around fields
  | [], _, _, _ => trivial
  | ⟨_, type, _, _, _⟩ :: fields, _, _, ⟨_, h, rest⟩ =>
    ⟨placed_of_wellFormed type h, fieldsPlaced_of_wellFormed fields rest⟩

theorem placedList_of_wellFormed :
    ∀ (branches : List Schema) {around : Option String} {before : Names},
      Schema.WellFormedList around before branches → Schema.PlacedList around branches
  | [], _, _, _ => trivial
  | branch :: branches, _, _, ⟨h, rest⟩ =>
    ⟨placed_of_wellFormed branch h, placedList_of_wellFormed branches rest⟩

end

/-! ## Whole schemas -/

namespace Parser

/--
Whatever table lists the names so far, the step gives `a` and lists `names` after them. It changes
nothing else and lets no violation pass.
-/
def Restores {α : Type} (p : Parser) (before : Names) (step : ParserM α) (a : α) (names : Names) :
    Prop :=
  ∀ types, types.Lists before → ∃ after,
    step.run.run { p with types } = (.ok a, { p with types := after }) ∧
      after.Lists (before ++ names)

theorem restores_schema (s : Schema) (p : Parser) (before : Names)
    (h : s.WellFormed p.space before) : Restores p before (schema s.toJson) s s.names := by
  intro types listed
  obtain ⟨after, reads, listed⟩ := reads_of_wellFormed s (p := { p with types }) h listed
  exact ⟨after, reads.reread (placed_of_wellFormed s h), listed⟩

/--
A new parser, strict or not, reads the document of a well-formed schema as that very schema. It
finds no violation, and knows the names that the schema defines and no others.
-/
theorem parse_toJson (strict : Bool) (s : Schema) (h : s.WellFormed none []) :
    ∃ types, ({ strict } : Parser).parse s.toJson = (.ok s, { strict, types }) ∧
      types.Lists s.names :=
  restores_schema s { strict } [] h .empty Definitions.lists_empty

def tree : Schema := .record .record
  { name := "Tree"
    space := some "forest.oak"
    fields := [
      { name := ⟨"season", by decide⟩
        type := .enumeration
          { name := "Season", space := some "forest", symbols := ["SPRING", "FALL"]
            default := some "FALL" }
        default := some (.str "FALL") },
      { name := ⟨"leaf", by decide⟩
        type := .fixed { name := "Leaf", space := some "forest.oak", size := 4 }
        order := some .ignore },
      { name := ⟨"bloom", by decide⟩
        type := .reference "forest.Season" .enumeration
        fromRegistry := true },
      { name := ⟨"branches", by decide⟩
        type := .array (.union [.primitive .null, .reference "forest.oak.Tree" .record,
          .reference "forest.oak.Leaf" .fixed]) }]
    doc := some "A tree." }

theorem tree_wellFormed : tree.WellFormed none [] := by
  refine ⟨⟨by decide, by decide, by decide⟩, by decide, rfl, ⟨?season, ?symbols⟩, rfl, ?leaf, rfl,
    ?bloom, rfl, ⟨?rules, trivial, ?again, ?other, trivial⟩, trivial⟩
  case season => exact ⟨by decide, by decide, by decide⟩
  case symbols => exact ⟨by decide, by decide, by decide⟩
  case leaf => exact ⟨by decide, by decide, by decide⟩
  case rules => exact ⟨by decide, by decide, by decide⟩
  case bloom | again | other =>
    exact ⟨by decide, by decide, fun undotted => absurd undotted (by decide)⟩

theorem parse_tree : tree.WellFormed none [] ∧
    ∃ types, ({ strict := true } : Parser).parse tree.toJson =
        (.ok tree, { strict := true, types }) ∧
      types.Lists [("forest.oak.Tree", .record), ("forest.Season", .enumeration),
        ("forest.oak.Leaf", .fixed)] :=
  ⟨tree_wellFormed, parse_toJson true tree tree_wellFormed⟩

end Parser

end SchemaBinding
