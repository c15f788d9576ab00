import SchemaBinding.Schema.Basic

/-!
# Writing schemas

Attributes without a value are left out, and a type from an earlier definition shows only its name.
-/

namespace SchemaBinding

/-- The member `key`, if it has a value. -/
def optionalText (key : String) : Option String → List (String × Json)
  | some text => [(key, .str text)]
  | none => []

def textArray (items : List String) : Json := .arr (items.map .str)

def EnumSchema.toJson (e : EnumSchema) : Json :=
  .obj <|
    [("type", .str "enum"), ("name", .str e.name)] ++ optionalText "namespace" e.space
      ++ optionalText "doc" e.doc ++ [("symbols", textArray e.symbols)]
      ++ optionalText "default" e.default

def FixedSchema.toJson (f : FixedSchema) : Json :=
  .obj <|
    [("type", .str "fixed"), ("name", .str f.name)] ++ optionalText "namespace" f.space
      ++ [("size", .num (.ofUInt64 f.size))]

mutual

def Schema.toJson : Schema → Json
  | .primitive p => .str p.name
  | .record role body => RecordSchema.toJson role body
  | .enumeration body => body.toJson
  | .array items => .obj [("type", .str "array"), ("items", items.toJson)]
  | .map values => .obj [("type", .str "map"), ("values", values.toJson)]
  | .union branches => .arr (Schema.toJsonList branches)
  | .fixed body => body.toJson
  | .reference fullname _ => .str fullname

def RecordSchema.toJson (role : RecordRole) : RecordSchema → Json
  | ⟨name, space, fields, doc, aliases⟩ =>
    .obj <|
      [("type", .str role.kind.name), ("name", .str name)] ++ optionalText "namespace" space
        ++ optionalText "doc" doc
        ++ (if aliases.isEmpty then [] else [("aliases", textArray aliases)])
        ++ [("fields", .arr (Field.toJsonList fields))]

def Field.toJson : Field → Json
  | ⟨name, type, fromRegistry, default, order⟩ =>
    let written :=
      match fromRegistry, type.fullname? with
      | true, some fullname => .str fullname
      | _, _ => type.toJson
    .obj <|
      [("name", .str name.text), ("type", written)]
        ++ (match default with
          | some document => [("default", document)]
          | none => [])
        ++ optionalText "order" (order.map SortOrder.name)

def Field.toJsonList : List Field → List Json
  | [] => []
  | field :: fields => field.toJson :: Field.toJsonList fields

def Schema.toJsonList : List Schema → List Json
  | [] => []
  | schema :: schemas => schema.toJson :: Schema.toJsonList schemas

end

end SchemaBinding
