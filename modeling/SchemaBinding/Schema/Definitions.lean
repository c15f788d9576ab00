import SchemaBinding.Schema.Basic

/-!
# Named definitions

While a record is being read, a reference stands in its place. It is no definition, and `resolve?`
does not give it out.
-/

namespace SchemaBinding

/-- Schemas by full name. A name that is given again keeps its place. -/
structure Definitions where
  entries : List (String × Schema)

namespace Definitions

def empty : Definitions := ⟨[]⟩

def find? (d : Definitions) (fullname : String) : Option Schema := d.entries.lookup fullname

def contains (d : Definitions) (fullname : String) : Bool := (d.find? fullname).isSome

def size (d : Definitions) : Nat := d.entries.length

/-- The complete definition of a name. -/
def resolve? (d : Definitions) (fullname : String) : Option Schema :=
  (d.find? fullname).filter fun schema => !schema.isReference

def setEntry (fullname : String) (schema : Schema) :
    List (String × Schema) → List (String × Schema)
  | [] => [(fullname, schema)]
  | (n, s) :: rest =>
    if n = fullname then (n, schema) :: rest else (n, s) :: setEntry fullname schema rest

def insert (d : Definitions) (fullname : String) (schema : Schema) : Definitions :=
  ⟨setEntry fullname schema d.entries⟩

def ofList (pairs : List (String × Schema)) : Definitions :=
  pairs.foldl (fun d pair => d.insert pair.1 pair.2) .empty

/-! ## Look-up after insertion -/

theorem lookup_cons (n m : String) (s : Schema) (rest : List (String × Schema)) :
    List.lookup n ((m, s) :: rest) = if n = m then some s else rest.lookup n := by
  by_cases h : n = m
  · simp [h]
  · rw [List.lookup_cons, beq_false_of_ne h, if_neg h]

theorem lookup_setEntry (fullname : String) (schema : Schema) (entries : List (String × Schema))
    (n : String) :
    (setEntry fullname schema entries).lookup n =
      if n = fullname then some schema else entries.lookup n := by
  induction entries with
  | nil => rw [setEntry, lookup_cons]
  | cons entry rest ih =>
    obtain ⟨m, s⟩ := entry
    by_cases hm : m = fullname
    · rw [setEntry, if_pos hm, lookup_cons, lookup_cons, hm]
      split <;> rfl
    · rw [setEntry, if_neg hm, lookup_cons, lookup_cons, ih]
      by_cases hn : n = m
      · rw [if_pos hn, if_pos hn, if_neg (fun e => hm (hn ▸ e))]
      · rw [if_neg hn, if_neg hn]

@[simp]
theorem find?_insert (d : Definitions) (fullname : String) (schema : Schema) (n : String) :
    (d.insert fullname schema).find? n = if n = fullname then some schema else d.find? n :=
  lookup_setEntry fullname schema d.entries n

@[simp]
theorem find?_empty (n : String) : empty.find? n = none := rfl

end Definitions

/-! ## The definitions inside a record -/

mutual

/--
Adds every definition inside a schema. A record that is there already is not entered again; an
enumeration or a fixed type takes the place of an earlier one of its name.
-/
def Schema.addDefinitions : Schema → Definitions → Definitions
  | .record role body, d =>
    if d.contains body.fullname then d
    else body.addDefinitions (d.insert body.fullname (.record role body))
  | .enumeration body, d => d.insert body.fullname (.enumeration body)
  | .fixed body, d => d.insert body.fullname (.fixed body)
  | .array items, d => items.addDefinitions d
  | .map values, d => values.addDefinitions d
  | .union branches, d => Schema.addDefinitionsList branches d
  | .primitive _, d => d
  | .reference .., d => d

def RecordSchema.addDefinitions : RecordSchema → Definitions → Definitions
  | ⟨_, _, fields, _, _⟩, d => Field.addDefinitionsList fields d

def Field.addDefinitionsList : List Field → Definitions → Definitions
  | [], d => d
  | ⟨_, type, _, _, _⟩ :: fields, d => Field.addDefinitionsList fields (type.addDefinitions d)

def Schema.addDefinitionsList : List Schema → Definitions → Definitions
  | [], d => d
  | branch :: branches, d => Schema.addDefinitionsList branches (branch.addDefinitions d)

end

/--
Every type that a record defines, the record itself included. The entry of the record itself is a
record even when it serves as an error.
-/
def RecordSchema.definitions (r : RecordSchema) : Definitions :=
  r.addDefinitions (Definitions.empty.insert r.fullname (.record .record r))

end SchemaBinding
