import SchemaBinding.Proofs.Parser.DefinedOnce

/-!
# The table after a read

A name has the outermost definition that the schema gives it, or else the entry that it had.
-/

namespace SchemaBinding.Parser

open Step Definitions

variable {p q : Parser} {part : Schema} {parts others : List Schema}
  {before between after : Definitions} {name fullname : String} {space : Option String} {kind : Kind}

/-! ## Outermost definitions -/

/--
The first definition among some schemas that is entered under a name. In document order the record
around a definition comes before it.
-/
def definitionOf? (name : String) (parts : List Schema) : Option Schema :=
  parts.find? fun part => part.naming?.any fun naming => enteredName naming.1 naming.2 == name

theorem definitionOf?_append (name : String) (parts others : List Schema) :
    definitionOf? name (parts ++ others) =
      (definitionOf? name parts).or (definitionOf? name others) := List.find?_append

theorem definitionOf?_cons (h : part.naming? = some (fullname, space)) (parts : List Schema) :
    definitionOf? name (part :: parts) =
      if name = enteredName fullname space then some part else definitionOf? name parts := by
  unfold definitionOf?
  rw [List.find?_cons, h, Option.any_some]
  by_cases same : name = enteredName fullname space
  · simp [same]
  · rw [if_neg same, beq_false_of_ne (Ne.symm same)]

theorem definitionOf?_cons_none (h : part.naming? = none) (parts : List Schema) :
    definitionOf? name (part :: parts) = definitionOf? name parts := by
  unfold definitionOf?
  rw [List.find?_cons, h, Option.any_none]

theorem definitionOf?_eq_none : definitionOf? name parts = none ↔ name ∉ enteredNames parts := by
  induction parts with
  | nil => simp [definitionOf?, enteredNames, namings]
  | cons part parts ih =>
    cases named : part.naming? with
    | none => rw [definitionOf?_cons_none named, enteredNames_cons_none named, ih]
    | some naming =>
      rw [definitionOf?_cons named, enteredNames_cons named, List.mem_cons, not_or, ← ih]
      by_cases same : name = enteredName naming.1 naming.2 <;> simp [same]

theorem complete_of_definitionOf? (h : definitionOf? name parts = some part) :
    part.isReference = false := by
  have named := List.find?_some h
  cases part with
  | reference => cases named
  | _ => rfl

/-! ## What a read does to the table -/

/-- The parts of a schema tell how the table changes and what the references have found in it. -/
structure Settles (before : Definitions) (parts : List Schema) (after : Definitions) : Prop where
  find? : ∀ name, after.find? name = (definitionOf? name parts).or (before.find? name)
  known : ∀ name kind, .reference name kind ∈ parts → name ∉ enteredNames parts →
    (before.find? name).map Schema.kind = some kind
  /-- Where no record is defined within itself, a name is not defined again after a reference. -/
  matched : (∀ part ∈ parts, part.NotWithinItself) → ∀ name kind, .reference name kind ∈ parts →
    ¬ before.Pending name → (after.find? name).map Schema.kind = some kind

theorem settles_nil : Settles before [] before := ⟨fun _ => rfl, nofun, fun _ => nofun⟩

theorem Settles.pending (h : Settles before parts after) :
    after.Pending name ↔ name ∉ enteredNames parts ∧ before.Pending name := by
  unfold Pending
  rw [h.find?, ← definitionOf?_eq_none]
  cases defined : definitionOf? name parts with
  | none => simp
  | some definition => simp [complete_of_definitionOf? defined]

theorem Settles.append (first : Settles before parts between)
    (second : Settles between others after)
    (free : ∀ name ∈ enteredNames others, ¬ between.Defines name) :
    Settles before (parts ++ others) after where
  find? name := by
    rw [second.find?, first.find?, definitionOf?_append, ← Option.or_assoc]
    cases earlier : definitionOf? name parts with
    | none => rw [Option.none_or, Option.or_none]
    | some definition =>
      -- What the first part has defined, the second does not define again.
      have later : definitionOf? name others = none := by
        refine definitionOf?_eq_none.mpr fun again => free name again ?_
        have found := first.find? name
        rw [earlier] at found
        exact defines_of_resolve? (resolve?_eq_some.mpr ⟨found, complete_of_definitionOf? earlier⟩)
      rw [later, Option.none_or, Option.or_none]
  known name kind mem new := by
    rw [enteredNames_append, List.mem_append, not_or] at new
    rcases List.mem_append.mp mem with mem | mem
    · exact first.known name kind mem new.1
    · have found := second.known name kind mem new.2
      rwa [first.find?, definitionOf?_eq_none.mpr new.1] at found
  matched within name kind mem settled := by
    obtain ⟨within, within'⟩ := List.forall_mem_append.mp within
    have settled' : ¬ between.Pending name := fun pending => settled (first.pending.mp pending).2
    rcases List.mem_append.mp mem with mem | mem
    · have found := first.matched within name kind mem settled
      obtain ⟨entry, listed, -⟩ := Option.map_eq_some_iff.mp found
      have defined : between.Defines name :=
        defines_of_resolve? (resolve?_of_find? listed settled')
      rwa [second.find?, definitionOf?_eq_none.mpr fun again => free name again defined]
    · exact second.matched within' name kind mem settled'

theorem reference_mem_of_mem_cons (other : part.isReference = false)
    (mem : .reference name kind ∈ part :: parts) : .reference name kind ∈ parts := by
  rcases List.mem_cons.mp mem with rfl | mem
  · cases other
  · exact mem

theorem Settles.cons_none (h : Settles before parts after) (unnamed : part.naming? = none)
    (other : part.isReference = false) : Settles before (part :: parts) after := by
  refine ⟨fun name => ?_, fun name kind mem new => ?_, fun within name kind mem settled => ?_⟩
  · rw [definitionOf?_cons_none unnamed, h.find?]
  · rw [enteredNames_cons_none unnamed] at new
    exact h.known name kind (reference_mem_of_mem_cons other mem) new
  · exact h.matched (List.forall_mem_cons.mp within).2 name kind
      (reference_mem_of_mem_cons other mem) settled

theorem settles_reference (found : (before.find? fullname).map Schema.kind = some kind) :
    Settles before [.reference fullname kind] before where
  find? _ := rfl
  known name kind mem _ := by
    cases List.mem_singleton.mp mem
    exact found
  matched _ name kind mem _ := by
    cases List.mem_singleton.mp mem
    exact found

theorem settles_insert (named : part.naming? = some (name, space))
    (other : part.isReference = false) :
    Settles before [part] (before.insert (enteredName name space) part) := by
  refine ⟨fun name => ?_, fun _ _ mem => ?_, fun _ _ _ mem => ?_⟩
  · rw [find?_insert, definitionOf?_cons named]
    split <;> rfl
  · cases reference_mem_of_mem_cons other mem
  · cases reference_mem_of_mem_cons other mem

theorem Settles.record {role : RecordRole} {body : RecordSchema}
    (h : Settles (before.insert (enteredName body.name body.space) (.reference fullname role.kind))
      body.parts after)
    (apart : (Schema.record role body).NotWithinItself →
      enteredName body.name body.space ∉ enteredNames body.parts) :
    Settles before (.record role body :: body.parts)
      (after.insert (enteredName body.name body.space) (.record role body)) := by
  have named : (Schema.record role body).naming? = some (body.name, body.space) := rfl
  constructor
  · intro name
    rw [find?_insert, definitionOf?_cons named, h.find?, find?_insert]
    split <;> rfl
  · intro name kind mem new
    rw [enteredNames_cons named, List.mem_cons, not_or] at new
    have found := h.known name kind (reference_mem_of_mem_cons rfl mem) new.2
    rwa [find?_insert, if_neg new.1] at found
  · intro within name kind mem settled
    obtain ⟨own, inside⟩ := List.forall_mem_cons.mp within
    rw [find?_insert]
    split
    · next same =>
      -- The reference was to the place-holder, which has the kind of the record.
      subst same
      have found := h.known _ kind (reference_mem_of_mem_cons rfl mem) (apart own)
      rwa [find?_insert, if_pos rfl] at found
    · next other =>
      refine h.matched inside name kind (reference_mem_of_mem_cons rfl mem) fun pending =>
        settled ?_
      unfold Pending at pending ⊢
      rwa [find?_insert, if_neg other] at pending

/-! ## The whole parser -/

theorem enteredName_inj {name' : String} {space' : Option String} (undotted : hasDot name = false)
    (undotted' : hasDot name' = false) (h : enteredName name space = enteredName name' space') :
    name = name' ∧ space = space' := by
  have split : ∀ {name : String} {space : Option String}, hasDot name = false →
      splitLast (enteredName name space) = (space, name) := by
    rintro name (_ | space) undotted
    · exact splitLast_of_undotted undotted
    · exact splitLast_qualify space undotted
  have same := congrArg splitLast h
  rw [split undotted, split undotted'] at same
  obtain ⟨spaces, names⟩ := Prod.mk.inj same
  exact ⟨names, spaces⟩

theorem Enters.apart {strict : Bool} {role : RecordRole} {body : RecordSchema}
    (h : Enters strict before body.parts after) (undotted : hasDot body.name = false)
    (within : (Schema.record role body).NotWithinItself) :
    enteredName body.name body.space ∉ enteredNames body.parts := by
  intro again
  obtain ⟨naming, mem, same⟩ := List.mem_map.mp again
  obtain ⟨names, spaces⟩ := enteredName_inj (h.undotted naming mem) undotted same
  refine within ?_
  rw [definedNames_eq]
  refine List.mem_map.mpr ⟨naming, mem, ?_⟩
  rw [names, spaces]
  rfl

mutual

theorem Reads.settles {p q : Parser} {s : Schema} :
    Reads p s q → Settles p.types s.parts q.types
  | .primitive => settles_nil.cons_none rfl rfl
  | .reference finds => settles_reference finds.entry
  | .enumeration takes _ checked _ => by
    obtain ⟨_, rfl⟩ := notes_of_forM (fun _ _ _ => notes_of_heed) checked
    rw [← takes.types]
    exact settles_insert rfl rfl
  | .fixed takes => by
    rw [← takes.types]
    exact settles_insert rfl rfl
  | .array inside | .map inside => inside.settles.cons_none rfl rfl
  | .union _ inside checked => by
    obtain ⟨_, rfl⟩ := notes_of_checkBranches checked
    exact inside.settles.cons_none rfl rfl
  | @Reads.record _ q _ role body takes inside _ => by
    have enters := inside.enters
    have fields := inside.settles
    rw [← body.parts_eq_partsList] at enters fields
    rw [← takes.types]
    exact fields.record (enters.apart takes.undotted)

theorem ReadsAll.settles {p q : Parser} {branches : List Schema} :
    ReadsAll p branches q → Settles p.types (Schema.partsList branches) q.types
  | .nil => settles_nil
  | .cons first rest => first.settles.append rest.settles rest.enters.free

theorem ReadsFields.settles {p q : Parser} {fields : List Field} :
    ReadsFields p fields q → Settles p.types (Field.partsList fields) q.types
  | .nil => settles_nil
  | .cons _ first rest => by
    rw [Field.partsList_cons]
    exact first.settles.append rest.settles rest.enters.free

end

end SchemaBinding.Parser
