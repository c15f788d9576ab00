import Mathlib.Data.List.Nodup
import SchemaBinding.Proofs.Parser.Validity
import SchemaBinding.Proofs.Schema.Table

/-!
# Names that are defined once

A record is complete when its last field has been read. So its fields can define its name again,
which no other definition can do.
-/

namespace SchemaBinding

/-! ## Names and namespaces -/

def Schema.naming? : Schema → Option (String × Option String)
  | .record _ body => some (body.name, body.space)
  | .enumeration body => some (body.name, body.space)
  | .fixed body => some (body.name, body.space)
  | .primitive _ | .array _ | .map _ | .union _ | .reference .. => none

/-- The names and namespaces of the definitions among some schemas. -/
def namings (parts : List Schema) : List (String × Option String) := parts.filterMap Schema.naming?

/-- No definition inside a record has the full name of the record. -/
def Schema.NotWithinItself : Schema → Prop
  | .record _ body => body.fullname ∉ definedNames body.parts
  | _ => True

instance : DecidablePred Schema.NotWithinItself := fun s =>
  match s with
  | .record _ body => inferInstanceAs (Decidable (body.fullname ∉ definedNames body.parts))
  | .primitive _ | .enumeration _ | .array _ | .map _ | .union _ | .fixed _ | .reference _ _ =>
    isTrue trivial

theorem namings_append (parts others : List Schema) :
    namings (parts ++ others) = namings parts ++ namings others := List.filterMap_append

theorem namings_cons {part : Schema} {naming : String × Option String}
    (h : part.naming? = some naming) (parts : List Schema) :
    namings (part :: parts) = naming :: namings parts := List.filterMap_cons_some h

theorem namings_cons_none {part : Schema} (h : part.naming? = none) (parts : List Schema) :
    namings (part :: parts) = namings parts := List.filterMap_cons_none h

theorem definedNames_eq (parts : List Schema) :
    definedNames parts = (namings parts).map fun naming => fullnameOf naming.1 naming.2 := by
  unfold definedNames namings
  rw [List.map_filterMap, List.map_filterMap]
  congr 1
  funext part
  cases part <;> rfl

theorem notWithinItself_of_nodup {s : Schema} (distinct : (definedNames s.parts).Nodup) :
    s.Everywhere Schema.NotWithinItself := by
  intro part mem
  cases part with
  | record role body =>
    have inside := ((s.parts_infix mem).sublist.filterMap Schema.defined?).map Prod.fst
    have own := distinct.sublist inside
    change (definedNames (.record role body :: body.parts)).Nodup at own
    rw [definedNames_cons (defined?_record role body)] at own
    exact (List.nodup_cons.mp own).1
  | _ => trivial

namespace Parser

open Step Definitions

variable {p q : Parser} {s part : Schema} {parts others : List Schema}
  {before between after : Definitions} {strict : Bool} {name : String} {space : Option String}

/-! ## What a read enters -/

/-- The names under which the definitions among some schemas are entered. -/
def enteredNames (parts : List Schema) : List String :=
  (namings parts).map fun naming => enteredName naming.1 naming.2

/--
A table comes to define the names that the parts are entered under and defined none of them before.
-/
structure Enters (strict : Bool) (before : Definitions) (parts : List Schema)
    (after : Definitions) : Prop where
  undotted : ∀ naming ∈ namings parts, hasDot naming.1 = false
  checked : strict = true → ∀ name ∈ enteredNames parts, fullnameFault? name = none
  defines : ∀ name, after.Defines name ↔ before.Defines name ∨ name ∈ enteredNames parts
  free : ∀ name ∈ enteredNames parts, ¬ before.Defines name
  distinct : (∀ part ∈ parts, part.NotWithinItself) → (namings parts).Nodup

theorem enteredNames_append (parts others : List Schema) :
    enteredNames (parts ++ others) = enteredNames parts ++ enteredNames others := by
  unfold enteredNames
  rw [namings_append, List.map_append]

theorem enteredNames_cons (h : part.naming? = some (name, space)) (parts : List Schema) :
    enteredNames (part :: parts) = enteredName name space :: enteredNames parts := by
  unfold enteredNames
  rw [namings_cons h, List.map_cons]

theorem enteredNames_cons_none (h : part.naming? = none) (parts : List Schema) :
    enteredNames (part :: parts) = enteredNames parts := by
  unfold enteredNames
  rw [namings_cons_none h]

theorem enters_nil : Enters strict before [] before where
  undotted := nofun
  checked := fun _ => nofun
  defines := by simp [enteredNames, namings]
  free := nofun
  distinct := fun _ => .nil

theorem Enters.append (first : Enters strict before parts between)
    (second : Enters strict between others after) :
    Enters strict before (parts ++ others) after where
  undotted := by
    rw [namings_append]
    exact List.forall_mem_append.mpr ⟨first.undotted, second.undotted⟩
  checked := by
    rw [enteredNames_append]
    exact fun strict => List.forall_mem_append.mpr ⟨first.checked strict, second.checked strict⟩
  defines name := by
    rw [enteredNames_append, List.mem_append, second.defines, first.defines, or_assoc]
  free := by
    rw [enteredNames_append]
    refine List.forall_mem_append.mpr ⟨first.free, fun name mem defined => ?_⟩
    exact second.free name mem ((first.defines name).mpr (.inl defined))
  distinct within := by
    obtain ⟨within, others⟩ := List.forall_mem_append.mp within
    rw [namings_append]
    refine List.nodup_append.mpr ⟨first.distinct within, second.distinct others, ?_⟩
    rintro naming mem _ again rfl
    have defined := (first.defines _).mpr (.inr (List.mem_map_of_mem mem))
    exact second.free _ (List.mem_map_of_mem again) defined

theorem Enters.cons_none (h : Enters strict before parts after)
    (unnamed : part.naming? = none) : Enters strict before (part :: parts) after := by
  have names := enteredNames_cons_none unnamed parts
  have same := namings_cons_none unnamed parts
  constructor
  · rw [same]
    exact h.undotted
  · rw [names]
    exact h.checked
  · rw [names]
    exact h.defines
  · rw [names]
    exact h.free
  · rw [same]
    exact fun within => h.distinct (List.forall_mem_cons.mp within).2

theorem Enters.of_reference {fullname : String} {kind : Kind}
    (h : Enters strict (before.insert name (.reference fullname kind)) parts after)
    (free : ¬ before.Defines name) : Enters strict before parts after where
  undotted := h.undotted
  checked := h.checked
  defines other := by rw [h.defines, defines_insert_reference free]
  free other mem defined := h.free other mem ((defines_insert_reference free).mpr defined)
  distinct := h.distinct

theorem Enters.definition (takes : Takes p name space q)
    (h : Enters p.strict q.types parts after) (named : part.naming? = some (name, space))
    (complete : part.isReference = false)
    (new : part.NotWithinItself → (name, space) ∉ namings parts) :
    Enters p.strict q.types (part :: parts) (after.insert (enteredName name space) part) := by
  have names := enteredNames_cons named parts
  have same := namings_cons named parts
  constructor
  · rw [same]
    exact List.forall_mem_cons.mpr ⟨takes.undotted, h.undotted⟩
  · rw [names]
    intro strict
    have passes := (strict_heed strict takes.checked).1
    exact List.forall_mem_cons.mpr ⟨checkFullname_eq_ok.mp passes, h.checked strict⟩
  · intro other
    rw [names, List.mem_cons, defines_insert complete, h.defines]
    exact or_left_comm
  · rw [names]
    exact List.forall_mem_cons.mpr ⟨not_not.mpr takes.free, h.free⟩
  · intro within
    obtain ⟨own, inside⟩ := List.forall_mem_cons.mp within
    rw [same]
    exact List.nodup_cons.mpr ⟨new own, h.distinct inside⟩

theorem Takes.types (h : Takes p name space q) : q.types = p.types := by
  obtain ⟨_, rfl⟩ := h.notes
  rfl

mutual

theorem Reads.enters {p q : Parser} {s : Schema} :
    Reads p s q → Enters p.strict p.types s.parts q.types
  | .primitive | .reference _ => enters_nil.cons_none rfl
  | .enumeration takes _ checked _ => by
    obtain ⟨_, rfl⟩ := notes_of_forM (fun _ _ _ => notes_of_heed) checked
    rw [← takes.types]
    exact enters_nil.definition takes rfl rfl fun _ => List.not_mem_nil
  | .fixed takes => by
    rw [← takes.types]
    exact enters_nil.definition takes rfl rfl fun _ => List.not_mem_nil
  | .array inside | .map inside => inside.enters.cons_none rfl
  | .union _ inside checked => by
    obtain ⟨_, rfl⟩ := notes_of_checkBranches checked
    exact inside.enters.cons_none rfl
  | @Reads.record _ q _ role body takes inside _ => by
    -- While the fields are read, a reference stands for the record.
    have free : ¬ q.types.Defines (enteredName body.name body.space) := not_not.mpr takes.free
    have fields : Enters q.strict _ _ _ := inside.enters.of_reference free
    rw [takes.notes.samePlace.strict, ← body.parts_eq_partsList] at fields
    rw [← takes.types]
    refine fields.definition takes rfl rfl fun within again => within ?_
    rw [definedNames_eq]
    exact List.mem_map_of_mem again

theorem ReadsAll.enters {p q : Parser} {branches : List Schema} :
    ReadsAll p branches q → Enters p.strict p.types (Schema.partsList branches) q.types
  | .nil => enters_nil
  | .cons first rest => by
    have others := rest.enters
    rw [first.samePlace.strict] at others
    exact first.enters.append others

theorem ReadsFields.enters {p q : Parser} {fields : List Field} :
    ReadsFields p fields q → Enters p.strict p.types (Field.partsList fields) q.types
  | .nil => enters_nil
  | .cons _ first rest => by
    have others := rest.enters
    rw [first.samePlace.strict] at others
    rw [Field.partsList_cons]
    exact first.enters.append others

end

/-! ## Definitions of one name -/

/--
The definitions of a schema that was accepted have distinct full names, unless a record is defined
within itself or, where bad names are accepted, one of them lies in an empty namespace.
-/
theorem defined_once_iff {document : Json} (accepted : (p.parse document).1 = .ok s) :
    (definedNames s.parts).Nodup ↔ s.Everywhere Schema.NotWithinItself ∧
      (p.strict = false → ∀ name, (name, none) ∈ namings s.parts →
        (name, some "") ∉ namings s.parts) := by
  have given : Gives (Parser.schema document) p s (p.parse document).2 := Prod.ext accepted rfl
  have enters := (reads_of_schema document given).enters
  constructor
  · -- The two full names are one, but the namespaces differ.
    intro distinct
    refine ⟨notWithinItself_of_nodup distinct, fun _ name outside empty => ?_⟩
    rw [definedNames_eq] at distinct
    cases List.inj_on_of_nodup_map distinct outside empty rfl
  · rintro ⟨within, apart⟩
    -- In an empty namespace no name passes its check.
    have apart : ∀ name, (name, none) ∈ namings s.parts → (name, some "") ∉ namings s.parts := by
      cases strict : p.strict with
      | false => exact apart strict
      | true =>
        intro name _ empty
        have valid := enters.checked strict _ (List.mem_map_of_mem empty)
        cases (fullnameFault?_qualify_eq_none.mp valid).1
    rw [definedNames_eq]
    refine (List.nodup_map_iff_inj_on (enters.distinct within)).mpr ?_
    rintro ⟨name, space⟩ mem ⟨name', space'⟩ mem' same
    obtain ⟨rfl, rfl | ⟨rfl, rfl⟩ | ⟨rfl, rfl⟩⟩ :=
      fullnameOf_inj (enters.undotted _ mem) (enters.undotted _ mem') same
    · rfl
    · exact absurd mem' (apart name mem)
    · exact absurd mem (apart name mem')

theorem defined_once_iff_blight :
    (({ strict := true } : Parser).parse Blight.document).1 = .ok Blight.schema ∧
      (definedNames Blight.schema.parts).Nodup := by
  have accepted : (({ strict := true } : Parser).parse Blight.document).1 = .ok Blight.schema := rfl
  exact ⟨accepted, (defined_once_iff accepted).mpr ⟨by decide +kernel, nofun⟩⟩

namespace Crown

def document : Json :=
  let crown := .obj [("type", .str "enum"), ("name", .str "Tree"),
    ("symbols", .arr [.str "ROUND", .str "OPEN"])]
  .obj [("type", .str "record"), ("name", .str "Tree"), ("namespace", .str "forest"),
    ("fields", .arr [.obj [("name", .str "crown"), ("type", crown)]])]

def schema : Schema := .record .record
  { name := "Tree"
    space := some "forest"
    fields := [
      { name := ⟨"crown", by decide⟩
        type := .enumeration
          { name := "Tree", space := some "forest", symbols := ["ROUND", "OPEN"] } }] }

end Crown

/-- Strict or not, a parser lets a record be defined within itself. -/
theorem defined_within_itself_crown :
    (({ strict := true } : Parser).parse Crown.document).1 = .ok Crown.schema ∧
      (({ strict := false } : Parser).parse Crown.document).1 = .ok Crown.schema ∧
      ¬ (definedNames Crown.schema.parts).Nodup :=
  ⟨rfl, rfl, by decide +kernel⟩

end Parser

end SchemaBinding
