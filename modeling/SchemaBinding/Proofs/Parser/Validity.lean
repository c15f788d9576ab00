import SchemaBinding.Proofs.Parser.Keys
import SchemaBinding.Proofs.Parser.Reads

/-!
# What a strict parser accepts

A strict parser gives out no schema that breaks a rule anywhere.
-/

namespace SchemaBinding

/-! ## The rules for one schema -/

structure RecordSchema.Valid (body : RecordSchema) : Prop where
  fullname : checkFullname body.fullname = .ok ()
  fieldNames : ∀ field ∈ body.fields, checkName field.name.text = .ok ()
  distinct : (body.fields.map (·.name.text)).Nodup
  flagged : ∀ field ∈ body.fields, field.fromRegistry = field.type.isReference

/-- A schema follows the rules, whatever the schemas inside it do. -/
def Schema.Valid : Schema → Prop
  | .record _ body => body.Valid
  | .enumeration body => checkFullname body.fullname = .ok () ∧ body.WellFormed
  | .fixed body => checkFullname body.fullname = .ok ()
  | .union branches => UnionRules branches
  | .primitive _ | .array _ | .map _ | .reference .. => True

/-! ## From the checks to the rules -/

namespace Parser

open Step

variable {p q : Parser}

theorem enteredName_eq_fullname {name : String} {space : Option String}
    (undotted : hasDot name = false) (h : fullnameFault? (enteredName name space) = none) :
    enteredName name space = fullnameOf name space := by
  cases space with
  | none => rfl
  | some space =>
    have placed := (fullnameFault?_qualify_eq_none.mp h).1
    exact (fullnameOf_undotted placed undotted).symm

theorem Takes.strict {name : String} {space : Option String} (h : Takes p name space q)
    (strict : p.strict = true) : checkFullname (fullnameOf name space) = .ok () ∧
      enteredName name space = fullnameOf name space ∧ q = p := by
  obtain ⟨passes, same⟩ := strict_heed strict h.checked
  have entered := enteredName_eq_fullname h.undotted (checkFullname_eq_ok.mp passes)
  rw [entered] at passes
  exact ⟨passes, entered, same⟩

/-! ## Every part of what is read -/

mutual

theorem Reads.valid {p q : Parser} {s : Schema} (strict : p.strict = true) :
    Reads p s q → s.Everywhere Schema.Valid
  | .primitive | .reference _ => by
    intro t mem
    obtain rfl := List.mem_singleton.mp mem
    trivial
  | .enumeration takes nonempty checked default => by
    intro t mem
    obtain rfl := List.mem_singleton.mp mem
    obtain ⟨fullname, -, rfl⟩ := takes.strict strict
    have symbols := (strict_forM_heed strict checked).1
    exact ⟨fullname, nonempty, fun s mem => checkName_eq_ok.mp (symbols s mem), default⟩
  | .fixed takes => by
    intro t mem
    obtain rfl := List.mem_singleton.mp mem
    exact (takes.strict strict).1
  | .array inside => Schema.everywhere_array.mpr ⟨trivial, inside.valid strict⟩
  | .map inside => Schema.everywhere_map.mpr ⟨trivial, inside.valid strict⟩
  | .union nonempty inside checked => by
    have still := inside.samePlace.strict.trans strict
    exact Schema.everywhere_union.mpr
      ⟨unionRules_of_checkBranches still nonempty checked, inside.valid strict⟩
  | .record takes inside distinct => by
    obtain ⟨fullname, -, rfl⟩ := takes.strict strict
    have fields := inside.valid ((opening_strict ..).trans strict)
    refine Schema.everywhere_record.mpr ⟨⟨fullname, ?_, distinct, ?_⟩, ?_⟩
    · exact fun field _ => checkName_of_name field.name.wellFormed
    · exact fun field mem => (fields field mem).1
    · exact fun field mem => (fields field mem).2

theorem ReadsAll.valid {p q : Parser} {branches : List Schema} (strict : p.strict = true) :
    ReadsAll p branches q → ∀ branch ∈ branches, branch.Everywhere Schema.Valid
  | .nil => nofun
  | .cons first rest =>
    have still := first.samePlace.strict.trans strict
    List.forall_mem_cons.mpr ⟨first.valid strict, rest.valid still⟩

theorem ReadsFields.valid {p q : Parser} {fields : List Field} (strict : p.strict = true) :
    ReadsFields p fields q → ∀ field ∈ fields,
      field.fromRegistry = field.type.isReference ∧ field.type.Everywhere Schema.Valid
  | .nil => nofun
  | .cons flagged first rest =>
    have still := first.samePlace.strict.trans strict
    List.forall_mem_cons.mpr ⟨⟨flagged, first.valid strict⟩, rest.valid still⟩

end

/-- A strict parser gives out no schema that breaks a rule, at any depth. -/
theorem strict_parse_valid {p : Parser} {document : Json} {s : Schema} (strict : p.strict = true)
    (accepted : (p.parse document).1 = .ok s) : s.Everywhere Schema.Valid := by
  have given : Gives (schema document) p s (p.parse document).2 := Prod.ext accepted rfl
  exact (reads_of_schema document given).valid strict

namespace Blight

def document : Json :=
  let season := .obj [("type", .str "enum"), ("name", .str "Season"),
    ("symbols", .arr [.str "SPRING", .str "FALL"]), ("default", .str "FALL")]
  let spore := .obj [("type", .str "fixed"), ("size", .num (.ofUInt64 4)),
    ("namespace", .str "forest"), ("name", .str "Spore")]
  let causes := .arr [.str "null", .str "Blight", spore, .str "Season"]
  .obj [("type", .obj [("type", .str "error"), ("name", .str "forest.oak.Blight"),
    ("fields", .arr [
      .obj [("name", .str "since"), ("type", season)],
      .obj [("name", .str "causes"), ("type", .obj [("type", .str "array"), ("items", causes)])],
      .obj [("name", .str "until"), ("type", .str "Season"), ("order", .str "ignore")]])])]

def body : RecordSchema where
  name := "Blight"
  space := some "forest.oak"
  fields := [
    { name := ⟨"since", by decide⟩
      type := .enumeration
        { name := "Season", space := some "forest.oak", symbols := ["SPRING", "FALL"]
          default := some "FALL" } },
    { name := ⟨"causes", by decide⟩
      type := .array (.union [.primitive .null, .reference "forest.oak.Blight" .error,
        .fixed { name := "Spore", space := some "forest", size := 4 },
        .reference "forest.oak.Season" .enumeration]) },
    { name := ⟨"until", by decide⟩
      type := .reference "forest.oak.Season" .enumeration
      fromRegistry := true
      order := some .ignore }]

def schema : Schema := .record .error body

end Blight

theorem strict_parse_valid_blight :
    (({ strict := true } : Parser).parse Blight.document).1 = .ok Blight.schema ∧
      Blight.schema.Everywhere Schema.Valid := by
  have accepted : (({ strict := true } : Parser).parse Blight.document).1 = .ok Blight.schema := rfl
  exact ⟨accepted, strict_parse_valid rfl accepted⟩

end Parser

end SchemaBinding
