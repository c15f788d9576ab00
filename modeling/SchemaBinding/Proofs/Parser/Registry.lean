import SchemaBinding.Proofs.Parser.Validity
import SchemaBinding.Proofs.Schema.Table

/-!
# The table of a parser and the definitions of a record

When no name is defined twice, the table of a parser has what the definitions of a record have.
-/

namespace SchemaBinding.Parser

open Step Definitions

variable {before between after : Definitions} {parts others : List Schema}

/-! ## Tables that answer to references -/

/-- Every reference among the parts finds an entry of its kind in the table. -/
def Answers (table : Definitions) (parts : List Schema) : Prop :=
  ∀ fullname kind, .reference fullname kind ∈ parts →
    (table.find? fullname).map Schema.kind = some kind

/-- A table takes in the definitions among the parts, and then answers to the references. -/
structure Registers (before : Definitions) (parts : List Schema) (after : Definitions) : Prop where
  adds : Adds before parts after
  answers : Answers after parts

theorem registers_nil : Registers before [] before := ⟨adds_nil, nofun⟩

theorem Registers.append (first : Registers before parts between)
    (second : Registers between others after) (room : before.Room (parts ++ others)) :
    Registers before (parts ++ others) after := by
  refine ⟨first.adds.append second.adds room.distinct, fun fullname kind mem => ?_⟩
  rcases List.mem_append.mp mem with earlier | later
  · have found := first.answers fullname kind earlier
    have kept : fullname ∉ definedNames others := by
      intro again
      rw [(room.right first.adds).free fullname again] at found
      cases found
    rw [second.adds.kept fullname kept]
    exact found
  · exact second.answers fullname kind later

theorem Registers.cons_none {part : Schema} (h : Registers before parts after)
    (undefined : part.defined? = none) (other : part.isReference = false) :
    Registers before (part :: parts) after := by
  refine ⟨h.adds.cons_none undefined, fun fullname kind mem => ?_⟩
  rcases List.mem_cons.mp mem with rfl | mem
  · cases other
  · exact h.answers fullname kind mem

theorem registers_insert {part : Schema} {name : String} {kind : Kind}
    (defined : part.defined? = some (name, kind)) (other : part.isReference = false) :
    Registers before [part] (before.insert name part) := by
  refine ⟨adds_insert defined, fun fullname kind mem => ?_⟩
  obtain rfl := List.mem_singleton.mp mem
  cases other

theorem Registers.record {role : RecordRole} {body : RecordSchema}
    (h : Registers (before.insert body.fullname (.reference body.fullname role.kind)) parts after)
    (new : body.fullname ∉ definedNames parts) :
    Registers before (.record role body :: parts)
      (after.insert body.fullname (.record role body)) := by
  refine ⟨h.adds.cons_last rfl new, fun fullname kind mem => ?_⟩
  rcases List.mem_cons.mp mem with other | mem
  · cases other
  · have found := h.answers fullname kind mem
    rw [find?_insert]
    split
    · next same =>
      rw [same, h.adds.kept _ new, find?_insert, if_pos rfl] at found
      exact found
    · exact found

/-! ## What a read registers -/

mutual

theorem Reads.registers {p q : Parser} {s : Schema} (strict : p.strict = true)
    (room : p.types.Room s.parts) : Reads p s q → Registers p.types s.parts q.types
  | .primitive => registers_nil.cons_none rfl rfl
  | .reference finds => by
    refine ⟨adds_nil.cons_none rfl, fun fullname kind mem => ?_⟩
    cases List.mem_singleton.mp mem
    exact finds.entry
  | .enumeration takes _ checked _ => by
    obtain ⟨-, entered, rfl⟩ := takes.strict strict
    obtain ⟨-, rfl⟩ := strict_forM_heed strict checked
    rw [enter, entered]
    exact registers_insert rfl rfl
  | .fixed takes => by
    obtain ⟨-, entered, rfl⟩ := takes.strict strict
    rw [enter, entered]
    exact registers_insert rfl rfl
  | .array inside => (inside.registers strict (room.tail_none rfl)).cons_none rfl rfl
  | .map inside => (inside.registers strict (room.tail_none rfl)).cons_none rfl rfl
  | .union _ inside checked => by
    have all := inside.registers strict (room.tail_none rfl)
    have still := inside.samePlace.strict.trans strict
    obtain ⟨-, -, -, rfl⟩ := strict_checkBranches still checked
    exact all.cons_none rfl rfl
  | @Reads.record _ q _ role body takes inside _ => by
    obtain ⟨-, entered, rfl⟩ := takes.strict strict
    obtain ⟨new, rest⟩ :=
      room.tail (defined?_record role body) (.reference body.fullname role.kind)
    have opened : (q.opening role body).types =
        q.types.insert body.fullname (.reference body.fullname role.kind) := by
      change q.types.insert (enteredName body.name body.space) _ = _
      rw [entered]
      rfl
    rw [← opened, body.parts_eq_partsList] at rest
    have fields := inside.registers ((opening_strict ..).trans strict) rest
    rw [opened, ← body.parts_eq_partsList] at fields
    rw [enter, entered]
    exact fields.record new

theorem ReadsAll.registers {p q : Parser} {branches : List Schema} (strict : p.strict = true)
    (room : p.types.Room (Schema.partsList branches)) :
    ReadsAll p branches q → Registers p.types (Schema.partsList branches) q.types
  | .nil => registers_nil
  | .cons first rest => by
    have one := first.registers strict room.left
    have still := first.samePlace.strict.trans strict
    exact one.append (rest.registers still (room.right one.adds)) room

theorem ReadsFields.registers {p q : Parser} {fields : List Field} (strict : p.strict = true)
    (room : p.types.Room (Field.partsList fields)) :
    ReadsFields p fields q → Registers p.types (Field.partsList fields) q.types
  | .nil => registers_nil
  | .cons _ first rest => by
    rw [Field.partsList_cons] at room ⊢
    have one := first.registers strict room.left
    have still := first.samePlace.strict.trans strict
    exact one.append (rest.registers still (room.right one.adds)) room

end

/-! ## The two tables -/

/--
The table of a parser and the definitions of a record are one, but for the role of the record. Each
reference in the record is to a complete definition of its kind; the record itself may serve as an
error there.
-/
structure Agrees (table : Definitions) (role : RecordRole) (body : RecordSchema) : Prop where
  keys : ∀ name, body.definitions.contains name = table.contains name
  entries : ∀ name, name ≠ body.fullname → body.definitions.find? name = table.find? name
  root : table.find? body.fullname = some (.record role body)
  plainRoot : body.definitions.find? body.fullname = some (.record .record body)
  references : ∀ name kind, .reference name kind ∈ (Schema.record role body).parts →
    ∃ definition, body.definitions.resolve? name = some definition ∧
      (definition.kind = kind ∨
        name = body.fullname ∧ definition = .record .record body ∧ kind = role.kind)

/-- A strict parser that gives out a record knows what the record defines. -/
theorem definitions_agree {document : Json} {role : RecordRole} {body : RecordSchema} {p : Parser}
    (accepted : ({ strict := true } : Parser).parse document = (.ok (.record role body), p))
    (distinct : ((Schema.record role body).names.map (·.1)).Nodup) : Agrees p.types role body := by
  have given : Gives (schema document) { strict := true } (.record role body) p := accepted
  have room : Definitions.empty.Room (Schema.record role body).parts := room_empty distinct
  have registers := (reads_of_schema document given).registers rfl room
  obtain ⟨new, rest⟩ := room.tail (defined?_record role body) (.record .record body)
  have collected : Adds .empty (.record .record body :: body.parts) body.definitions :=
    (body.addDefinitions_adds _ rest).cons_first rfl new
  have root := registers.adds.entered _ List.mem_cons_self _ _ rfl
  have plainRoot := collected.entered _ List.mem_cons_self _ _ rfl
  have entries : ∀ name, name ≠ body.fullname →
      body.definitions.find? name = p.types.find? name :=
    fun name ne => collected.find?_eq_of_ne registers.adds rfl rfl ne
  refine ⟨fun name => ?_, entries, root, plainRoot, fun name kind mem => ?_⟩
  · unfold contains
    by_cases own : name = body.fullname
    · rw [own, root, plainRoot]
      rfl
    · rw [entries name own]
  · obtain ⟨definition, found, rfl⟩ := Option.map_eq_some_iff.mp (registers.answers name kind mem)
    by_cases own : name = body.fullname
    · subst own
      obtain rfl := Option.some.inj (root.symm.trans found)
      exact ⟨_, collected.resolve?_eq plainRoot, .inr ⟨rfl, rfl, rfl⟩⟩
    · rw [← entries name own] at found
      exact ⟨definition, collected.resolve?_eq found, .inl rfl⟩

theorem definitions_agree_blight :
    ((Schema.record .error Blight.body).names.map (·.1)).Nodup ∧
      ∃ p, ({ strict := true } : Parser).parse Blight.document =
        (.ok (.record .error Blight.body), p) ∧ Agrees p.types .error Blight.body := by
  have distinct : ((Schema.record .error Blight.body).names.map (·.1)).Nodup := by decide +kernel
  let p := (({ strict := true } : Parser).parse Blight.document).2
  have accepted : ({ strict := true } : Parser).parse Blight.document =
      (.ok (.record .error Blight.body), p) := Prod.ext rfl rfl
  exact ⟨distinct, p, accepted, definitions_agree accepted distinct⟩

end SchemaBinding.Parser
