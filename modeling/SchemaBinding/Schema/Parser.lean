import SchemaBinding.Event
import SchemaBinding.Json.Reader
import SchemaBinding.Schema.Definitions

/-!
# Reading schemas

A strict parser refuses malformed type names, malformed symbols and unions that break the union
rules. A permissive one keeps a list of such violations.
-/

namespace SchemaBinding

structure Parser where
  types : Definitions := .empty
  /-- The namespace of the record around the document being read. -/
  space : Option String := none
  strict : Bool := false
  /-- The violations that were let pass, the oldest first. -/
  accepted : List SchemaError := []

/-- A reading step: it may fail, and what it did to the parser stays done. -/
abbrev ParserM := ExceptT SchemaError (StateM Parser)

namespace Parser

/-! ## Violations, namespaces and names -/

/-- A strict parser fails with the violation, a permissive one notes it. -/
def violation (e : SchemaError) : ParserM Unit := do
  if (← get).strict then throw e
  else modify fun p => { p with accepted := p.accepted ++ [e] }

def heed : Except SchemaError Unit → ParserM Unit
  | .ok () => pure ()
  | .error e => violation e

def define (fullname : String) (schema : Schema) : ParserM Unit :=
  modify fun p => { p with types := p.types.insert fullname schema }

/-- Runs a step inside a namespace, and comes back to the outer one even when the step fails. -/
def inSpace {α : Type} (space : Option String) (step : ParserM α) : ParserM α :=
  ExceptT.mk do
    let outer := (← get).space
    modify fun p => { p with space }
    let result ← step.run
    modify fun p => { p with space := outer }
    return result

/-- The full names a type name may stand for, the preferred one first. -/
def candidates (space : Option String) (name : String) : List String :=
  match space, hasDot name with
  | some space, false => [qualify space name, name]
  | _, _ => [name]

/-- The reference that a type name stands for. -/
def reference (name : String) : ParserM Schema := do
  let p ← get
  let found? := (candidates p.space name).findSome? fun fullname =>
    (p.types.find? fullname).map fun schema => Schema.reference fullname schema.kind
  match found? with
  | some schema => return schema
  | none => throw (.unknownType name)

def typeName (name : String) : ParserM Schema :=
  match Primitive.ofName? name with
  | some p => return .primitive p
  | none => reference name

structure DefinitionName where
  name : String
  space : Option String
  fullname : String

/--
The names that the attributes of a definition give it inside a namespace. A dotted name brings its
own namespace; else the attribute counts, and without one the namespace around it.
-/
def DefinitionName.ofText (around : Option String) (space? : Option String) (text : String) :
    DefinitionName :=
  let (space, name) :=
    match splitLast text with
    | (some space, name) => (some space, name)
    | (none, name) => ((space?.or around).filter fun space => !space.isEmpty, name)
  let fullname :=
    match space with
    | some space => qualify space name
    | none => name
  { name, space, fullname }

/-- The checked names of a definition that was not complete before. -/
def definitionName (kind : Kind) (members : Json.Members) : ParserM DefinitionName := do
  match Json.text? "name" members with
  | none => throw (.missingName kind)
  | some text =>
    let names := DefinitionName.ofText (← get).space (Json.text? "namespace" members) text
    heed (checkFullname names.fullname)
    if ((← get).types.resolve? names.fullname).isSome then throw (.redefined names.fullname)
    return names

/-! ## Definitions without inner types -/

def symbols : List Json → Except SchemaError (List String)
  | [] => .ok []
  | .str s :: rest => (symbols rest).map (s :: ·)
  | found :: _ => .error (.symbolNotString found)

def enumeration (members : Json.Members) : ParserM Schema := do
  let names ← definitionName .enumeration members
  match members.lookup "symbols" with
  | some (.arr items) =>
    let symbols ← symbols items
    if symbols.isEmpty then throw .noSymbols
    symbols.forM fun symbol => heed (checkName symbol)
    let default := Json.text? "default" members
    if let some symbol := default then
      unless symbols.contains symbol do throw (.defaultNotSymbol symbol)
    let schema := Schema.enumeration
      { name := names.name, space := names.space, symbols
        doc := Json.text? "doc" members, default }
    define names.fullname schema
    return schema
  | _ => throw .missingSymbols

def size? (members : Json.Members) : Option UInt64 :=
  match members.lookup "size" with
  | some (.num n) => n.toUInt64?
  | _ => none

def fixed (members : Json.Members) : ParserM Schema := do
  let names ← definitionName .fixed members
  match size? members with
  | some size =>
    let schema := Schema.fixed { name := names.name, space := names.space, size }
    define names.fullname schema
    return schema
  | none => throw .missingSize

/-! ## Rules for unions and fields -/

/-- Branches with one key are duplicates: the kind, and for a named type its full name. -/
def branchKey (branch : Schema) : String :=
  match branch.fullname? with
  | some fullname => branch.kind.name ++ ":" ++ fullname
  | none => branch.kind.name

/-- A union has no union among its branches and no two branches with one key. -/
def checkBranches : Nat → List String → List Schema → ParserM Unit
  | _, _, [] => pure ()
  | position, seen, branch :: branches => do
    if branch.isUnion then violation (.nestedUnion position)
    let key := branchKey branch
    if seen.contains key then violation (.duplicateBranch key position)
    checkBranches (position + 1) (key :: seen) branches

/-- The first item that stands earlier in the list too. -/
def firstRepeated? (seen : List String) : List String → Option String
  | [] => none
  | s :: rest => if seen.contains s then some s else firstRepeated? (s :: seen) rest

/-- The sort order that the attributes of a field give; it has to be a string. -/
def orderText (members : Json.Members) : Except SchemaError (Option String) :=
  match members.lookup "order" with
  | none => .ok none
  | some (.str text) => .ok (some text)
  | some other => .error (.invalidOrder other.render)

/-! ## Records, before and after their fields -/

/-- Takes the names of a record; while its fields are read, its name stands for itself. -/
def beginRecord (role : RecordRole) (members : Json.Members) : ParserM DefinitionName := do
  let names ← definitionName role.kind members
  define names.fullname (.reference names.fullname role.kind)
  return names

def endRecord (role : RecordRole) (names : DefinitionName) (members : Json.Members)
    (fields : List Field) : ParserM Schema := do
  if let some field := firstRepeated? [] (fields.map (·.name.text)) then
    throw (.duplicateField field names.fullname)
  let schema := Schema.record role
    { name := names.name, space := names.space, fields, doc := Json.text? "doc" members
      aliases := Json.texts "aliases" members }
  define names.fullname schema
  return schema

/-! ## The types an object can describe -/

inductive TypeWord where
  | primitive (p : Primitive)
  | record (role : RecordRole)
  | enumeration
  | array
  | map
  | fixed
  | name (text : String)

def TypeWord.ofString (text : String) : TypeWord :=
  match Primitive.ofName? text with
  | some p => .primitive p
  | none =>
    if text = "record" then .record .record
    else if text = "error" then .record .error
    else if text = "enum" then .enumeration
    else if text = "array" then .array
    else if text = "map" then .map
    else if text = "fixed" then .fixed
    else .name text

/-! ## Reading a document -/

mutual

/-- Reads a schema: a name, a union as an array, or an object with a `type`. -/
def schema : Json → ParserM Schema
  | .str name => typeName name
  | .arr items => do
    if items.isEmpty then throw .emptyUnion
    let branches ← schemas items
    checkBranches 0 [] branches
    return .union branches
  | .obj members =>
    match members.lookup "type" with
    | some (.str text) =>
      match TypeWord.ofString text with
      | .primitive p => return .primitive p
      | .record role => do
        let names ← beginRecord role members
        let fields ← inSpace names.space (fieldsAt role members)
        endRecord role names members fields
      | .enumeration => enumeration members
      | .array => .array <$> schemaAt "items" .missingItems members
      | .map => .map <$> schemaAt "values" .missingValues members
      | .fixed => fixed members
      | .name name => reference name
    | _ => schemaAt "type" .missingType members
  | other => throw (.notASchema other)
termination_by structural document => document

def schemas : List Json → ParserM (List Schema)
  | [] => return []
  | item :: items => do
    let first ← schema item
    return first :: (← schemas items)

def schemaAt (key : String) (missing : SchemaError) : List (String × Json) → ParserM Schema
  | [] => throw missing
  | (k, value) :: members => if k = key then schema value else schemaAt key missing members

def fieldsAt (role : RecordRole) : List (String × Json) → ParserM (List Field)
  | [] => throw (.missingFields role.kind)
  | (k, value) :: members => if k = "fields" then fieldArray role value else fieldsAt role members

def fieldArray (role : RecordRole) : Json → ParserM (List Field)
  | .arr items => fields items
  | _ => throw (.missingFields role.kind)

def fields : List Json → ParserM (List Field)
  | [] => return []
  | item :: items => do
    let first ← field item
    return first :: (← fields items)

/-- Reads one field. Its type comes first, then its order, then the checks of name and order. -/
def field : Json → ParserM Field
  | .obj members => do
    match Json.text? "name" members with
    | none => throw .fieldWithoutName
    | some name =>
      let type ← schemaAt "type" (.fieldWithoutType name) members
      let order ← orderText members
      Field.ofParts name type type.isReference (members.lookup "default") order
  | _ => throw .fieldNotObject

end

/-! ## Runs -/

def parse (p : Parser) (document : Json) : Except SchemaError Schema × Parser :=
  (schema document).run.run p

/-- Reads a text; one that is no JSON does not touch the parser. -/
def parseText (p : Parser) (text : String) : Except SchemaError Schema × Parser :=
  match Json.read? text with
  | some document => p.parse document
  | none => (.error .malformedText, p)

/-- What a parser reports of the violations it let pass. -/
def acceptedEvents (p : Parser) : List Event :=
  p.accepted.map fun e =>
    ⟨.warn, "Accepting schema violation in permissive mode", [("error", e.message)]⟩

end Parser

def Schema.ofText (text : String) (strict : Bool) : Except SchemaError Schema × Parser :=
  Parser.parseText { strict } text

end SchemaBinding
