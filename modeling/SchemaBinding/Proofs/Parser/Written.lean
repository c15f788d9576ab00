import SchemaBinding.Proofs.Parser.Reads
import SchemaBinding.Schema.Printer

/-!
# What a reader finds in a written document

Each construct that is written as an object gives its reader every attribute back.
-/

namespace SchemaBinding.Parser

/-! ## Definitions -/

theorem written_enumeration (e : EnumSchema) : ∃ members,
    schema (Schema.enumeration e).toJson = enumeration members ∧
    Json.text? "name" members = some e.name ∧ Json.text? "namespace" members = e.space ∧
    Json.text? "doc" members = e.doc ∧
    members.lookup "symbols" = some (textArray e.symbols) ∧
    Json.text? "default" members = e.default := by
  obtain ⟨name, space, symbols, doc, default⟩ := e
  refine ⟨_, rfl, ?_⟩
  cases space <;> cases doc <;> cases default <;> exact ⟨rfl, rfl, rfl, rfl, rfl⟩

theorem written_fixed (f : FixedSchema) : ∃ members,
    schema (Schema.fixed f).toJson = fixed members ∧ Json.text? "name" members = some f.name ∧
    Json.text? "namespace" members = f.space ∧ size? members = some f.size := by
  obtain ⟨name, space, size⟩ := f
  refine ⟨_, rfl, rfl, ?_⟩
  have number : (Json.Number.ofUInt64 size).toUInt64? = some size := by
    unfold Json.Number.ofUInt64 Json.Number.toUInt64?
    simp
  cases space <;> exact ⟨rfl, number⟩

theorem symbols_map_str (items : List String) : symbols (items.map .str) = .ok items := by
  induction items with
  | nil => rfl
  | cons item items ih =>
    rw [List.map_cons, symbols, ih]
    rfl

theorem texts_textArray {members : Json.Members} {items : List String}
    (h : members.lookup "aliases" = some (textArray items)) :
    Json.texts "aliases" members = items := by
  unfold Json.texts
  rw [h, textArray]
  dsimp only
  rw [List.filterMap_map]
  exact List.filterMap_some

theorem written_record (role : RecordRole) (body : RecordSchema) : ∃ members,
    schema (Schema.record role body).toJson = (do
      let names ← beginRecord role members
      let fields ← inSpace names.space (fields (Field.toJsonList body.fields))
      endRecord role names members fields) ∧
    Json.text? "name" members = some body.name ∧ Json.text? "namespace" members = body.space ∧
    Json.text? "doc" members = body.doc ∧ Json.texts "aliases" members = body.aliases := by
  obtain ⟨name, space, items, doc, aliases⟩ := body
  let members := [("type", .str role.kind.name), ("name", .str name)]
    ++ optionalText "namespace" space ++ optionalText "doc" doc
    ++ (if aliases.isEmpty then [] else [("aliases", textArray aliases)])
    ++ [("fields", .arr (Field.toJsonList items))]
  have listed : fieldsAt role members = fields (Field.toJsonList items) := by
    cases space <;> cases doc <;> cases aliases <;> rfl
  refine ⟨members, ?_, rfl, ?_⟩
  · dsimp only
    rw [← listed]
    cases role <;> rfl
  · cases aliases with
    | nil => cases space <;> cases doc <;> exact ⟨rfl, rfl, rfl⟩
    | cons first others => cases space <;> cases doc <;> exact ⟨rfl, rfl, texts_textArray rfl⟩

/-! ## Fields -/

theorem written_field (f : Field) (flagged : f.fromRegistry = f.type.isReference) : ∃ members,
    f.toJson = .obj members ∧ Json.text? "name" members = some f.name.text ∧
    (∀ missing, schemaAt "type" missing members = schema f.type.toJson) ∧
    orderText members = .ok (f.order.map SortOrder.name) ∧
    members.lookup "default" = f.default := by
  obtain ⟨name, type, fromRegistry, default, order⟩ := f
  obtain rfl : fromRegistry = type.isReference := flagged
  let members := [("name", .str name.text), ("type", type.toJson)]
    ++ (default.map fun document => ("default", document)).toList
    ++ optionalText "order" (order.map SortOrder.name)
  have written : Field.toJson ⟨name, type, type.isReference, default, order⟩ = .obj members := by
    cases type <;> cases default <;> rfl
  refine ⟨members, written, rfl, fun _ => rfl, ?_⟩
  cases default <;> cases order <;> exact ⟨rfl, rfl⟩

theorem ofParts_of_field (f : Field) :
    Field.ofParts f.name.text f.type f.fromRegistry f.default (f.order.map SortOrder.name) =
      .ok f := by
  obtain ⟨name, type, fromRegistry, default, order⟩ := f
  have ordered : (order.map SortOrder.name).mapM SortOrder.ofString = .ok order := by
    cases order with
    | none => rfl
    | some order =>
      rw [Option.map_some, Option.mapM_some, SortOrder.ofString_name]
      rfl
  unfold Field.ofParts
  rw [Name.ofString_text, ordered]
  rfl

end SchemaBinding.Parser
