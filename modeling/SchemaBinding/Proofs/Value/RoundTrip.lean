import SchemaBinding.Proofs.Decimal.Binary
import SchemaBinding.Proofs.Json.Keys
import SchemaBinding.Proofs.Value.Default
import SchemaBinding.Value.Printer

/-!
# Values as JSON and back

What is read from a document may be written otherwise, but is then read as the same value again.
-/

namespace SchemaBinding

/--
JSON gives back the values of the schema: they are no byte strings and no single floats, and the
fields have distinct names, as the members of their defaults have distinct keys.
-/
def Schema.Lossless : Schema → Prop
  | .primitive p => p ≠ .bytes ∧ p ≠ .float
  | .fixed _ => False
  | .record role body => (Schema.record role body).FieldsDistinct ∧
    ∀ field ∈ body.fields, ∀ default, field.default = some default → default.DistinctKeys
  | _ => True

namespace Value

section

open Json.Number

variable {types : Definitions} {p : Primitive} {e : EnumSchema} {document : Json}
  {s base : Schema} {value content : Value}

/-! ## Values without parts -/

theorem ofPrimitive_int (n : Int32) : ofPrimitive .int (.num (ofInt32 n)) = .ok (.int n) := by
  have least := Int32.le_toInt n
  have greatest := Int32.toInt_lt n
  have whole : (ofInt32 n).toInt64? = some (Int64.ofInt n.toInt) := if_pos (by omega)
  have same : (Int64.ofInt n.toInt).toInt = n.toInt :=
    Int64.toInt_ofInt_of_le (by omega) (by omega)
  simp only [ofPrimitive, whole, same]
  rw [if_pos (by omega), Int32.ofInt_toInt]

theorem ofPrimitive_long (n : Int64) : ofPrimitive .long (.num (ofInt64 n)) = .ok (.long n) := by
  have greatest := Int64.toInt_lt n
  have whole : (ofInt64 n).toInt64? = some (Int64.ofInt n.toInt) := if_pos (by omega)
  simp only [ofPrimitive, whole, Int64.ofInt_toInt]

theorem toJson_double (n : Json.Number) :
    (double n.toFloat).toJson = .ok (.num (.double n.toFloat n.isFinite_toFloat)) := by
  rw [toJson, floatToJson, ofFloat?, dif_pos n.isFinite_toFloat]

theorem ofPrimitive_rereads (notBytes : p ≠ .bytes) (notFloat : p ≠ .float)
    (h : ofPrimitive p document = .ok value) :
    ∃ written, value.toJson = .ok written ∧ ofPrimitive p written = .ok value := by
  unfold ofPrimitive at h
  split at h
  · cases h; exact ⟨_, rfl, rfl⟩
  · cases h; exact ⟨_, rfl, rfl⟩
  · split at h
    · cases h
    · split at h
      · cases h; exact ⟨_, rfl, ofPrimitive_int _⟩
      · cases h
  · split at h
    · cases h
    · cases h; exact ⟨_, rfl, ofPrimitive_long _⟩
  · exact absurd rfl notFloat
  · cases h; exact ⟨_, toJson_double _, rfl⟩
  · exact absurd rfl notBytes
  · cases h; exact ⟨_, rfl, rfl⟩
  · cases h

theorem ofSymbol_rereads (h : ofSymbol e document = .ok value) :
    ∃ written, value.toJson = .ok written ∧ ofSymbol e written = .ok value := by
  have again := h
  unfold ofSymbol at h
  split at h
  · split at h
    · cases h; exact ⟨_, rfl, again⟩
    · cases h
  · cases h

theorem ofPlain_rereads (lossless : s.Lossless) (h : ofPlain document s = .ok value) :
    ∃ written, value.toJson = .ok written ∧ ofPlain written s = .ok value := by
  unfold ofPlain at h
  split at h
  · exact ofPrimitive_rereads lossless.1 lossless.2 h
  · exact ofSymbol_rereads h
  · exact lossless.elim
  · cases h

/-! ## Values with parts -/

theorem toJson_wrap (unions : Nat) (value : Value) : (wrap unions value).toJson = value.toJson := by
  induction unions with
  | zero => rfl
  | succ unions ih => rw [wrap, toJson, ih]

/-- A value of a schema without union or reference is read back, and needs no defaults for it. -/
def Rereads (types : Definitions) (base : Schema) (content : Value) : Prop :=
  ∃ written, content.toJson = .ok written ∧ ∀ fill, Reads types fill written base content

theorem convert_of_holds (h : Holds types (Rereads types) s value) :
    ∃ written, value.toJson = .ok written ∧
      ∀ fill, convert types fill written s = .ok value := by
  obtain ⟨unions, base, content, hb, rfl, written, hw, reads⟩ := h
  exact ⟨written, by rw [toJson_wrap, hw],
    fun fill => convert_eq_ok.mpr ⟨unions, base, content, hb, rfl, reads fill⟩⟩

theorem items_reread {values : List Value}
    (each : ∀ value ∈ values, Holds types (Rereads types) s value) :
    ∃ written, itemsToJson values = .ok written ∧
      ∀ fill, convertItems types fill written s = .ok values := by
  induction values with
  | nil => exact ⟨[], rfl, fun _ => rfl⟩
  | cons value values ih =>
    obtain ⟨own, others⟩ := List.forall_mem_cons.mp each
    obtain ⟨first, hf, readsFirst⟩ := convert_of_holds own
    obtain ⟨rest, hr, readsRest⟩ := ih others
    refine ⟨first :: rest, ?_, fun fill => ?_⟩
    · rw [itemsToJson, hf, hr]; rfl
    · rw [convertItems, readsFirst, readsRest]; rfl

theorem entries_reread {entries : List (String × Value)}
    (each : ∀ entry ∈ entries, Holds types (Rereads types) s entry.2) :
    ∃ written, entriesToJson entries = .ok written ∧
      written.map (·.1) = entries.map (·.1) ∧
        ∀ fill, convertEntries types fill written s = .ok entries := by
  induction entries with
  | nil => exact ⟨[], rfl, rfl, fun _ => rfl⟩
  | cons entry entries ih =>
    obtain ⟨own, others⟩ := List.forall_mem_cons.mp each
    obtain ⟨first, hf, readsFirst⟩ := convert_of_holds own
    obtain ⟨rest, hr, keys, readsRest⟩ := ih others
    refine ⟨(entry.1, first) :: rest, ?_, congrArg (entry.1 :: ·) keys, fun fill => ?_⟩
    · rw [entriesToJson, hf, hr]; rfl
    · rw [convertEntries, readsFirst, readsRest]; rfl

theorem toJson_members {entries : List (String × Value)} {written : List (String × Json)}
    (hw : entriesToJson entries = .ok written) (distinct : (written.map (·.1)).Nodup) :
    (record entries).toJson = .ok (.obj written) ∧ (map entries).toJson = .ok (.obj written) := by
  rw [toJson, toJson, hw, and_self]
  exact congrArg (Except.ok ∘ Json.obj) (Json.Members.ofList_eq_self distinct)

theorem fields_reread {fields : List Field} {entries : List (String × Value)}
    (fieldwise : List.Forall₂ (fun field entry => entry.1 = field.name.text ∧
      Holds types (Rereads types) field.type entry.2) fields entries) :
    ∃ written, entriesToJson entries = .ok written ∧
      written.map (·.1) = fields.map (·.name.text) ∧
        ∀ members : Json.Members,
          (∀ member ∈ written, members.lookup member.1 = some member.2) → ∀ fill record,
            List.Forall₂ (fun field entry => entry.1 = field.name.text ∧
              orDefault fill record field
                (convertMember types fill field.name.text members field.type) = .ok entry.2)
              fields entries := by
  induction fieldwise with
  | nil => exact ⟨[], rfl, rfl, fun _ _ _ _ => .nil⟩
  | @cons field entry fields entries own _ ih =>
    obtain ⟨name, value⟩ := entry
    obtain ⟨rfl, own⟩ := own
    obtain ⟨first, hf, readsFirst⟩ := convert_of_holds own
    obtain ⟨rest, hr, keys, readsRest⟩ := ih
    refine ⟨(field.name.text, first) :: rest, ?_, congrArg (field.name.text :: ·) keys, ?_⟩
    · rw [entriesToJson, hf, hr]; rfl
    · intro members shown fill record
      obtain ⟨shownFirst, shownRest⟩ := List.forall_mem_cons.mp shown
      refine .cons ⟨rfl, ?_⟩ (readsRest members shownRest fill record)
      rw [convertMember_eq, shownFirst, Option.map_some, readsFirst]
      rfl

theorem hereditary_rereads :
    Hereditary types Json.DistinctKeys Schema.Lossless (Rereads types) where
  item good := Json.distinctKeys_arr.mp good
  member good := (Json.distinctKeys_obj.mp good).2
  default lossless mem given := lossless.2 _ mem _ given
  plain lossless read := by
    obtain ⟨written, hw, again⟩ := ofPlain_rereads lossless read
    exact ⟨written, hw, fun _ => .plain again⟩
  array each := by
    obtain ⟨written, hw, again⟩ := items_reread each
    exact ⟨.arr written, by rw [toJson, hw]; rfl, fun fill => .array (again fill)⟩
  map good keys each := by
    obtain ⟨written, hw, same, again⟩ := entries_reread each
    have distinct : (written.map (·.1)).Nodup := by
      rw [same, keys]
      exact (Json.distinctKeys_obj.mp good).1
    exact ⟨.obj written, (toJson_members hw distinct).2, fun fill => .map (again fill)⟩
  record lossless fieldwise := by
    obtain ⟨written, hw, same, again⟩ := fields_reread fieldwise
    have distinct : (written.map (·.1)).Nodup := by
      rw [same]
      exact lossless.1
    have shown : ∀ member ∈ written, written.lookup member.1 = some member.2 :=
      fun member mem => (lookup_eq_some distinct).mpr mem
    exact ⟨.obj written, (toJson_members hw distinct).1,
      fun fill => .record (again written shown fill _)⟩

/-! ## Whole documents -/

theorem ofJson_of_holds (h : Holds types (Rereads types) s value) :
    ∃ written, value.toJson = .ok written ∧ ofJson written s types = .ok value := by
  obtain ⟨written, hw, again⟩ := convert_of_holds h
  obtain ⟨fill, same⟩ := ofJson_eq_convert types s
  exact ⟨written, hw, by rw [same, again]⟩

/--
A value that was read from a document has a JSON form, which is read as that value again. Neither
the schema nor a definition may hold byte strings, fixed types or single floats.
-/
theorem ofJson_toJson (definitions : types.Everywhere Schema.Lossless)
    (lossless : s.Everywhere Schema.Lossless) (keys : document.DistinctKeys)
    (h : ofJson document s types = .ok value) :
    ∃ written, value.toJson = .ok written ∧ ofJson written s types = .ok value :=
  ofJson_of_holds (hereditary_rereads.ofJsonWithin definitions _ document s value keys lossless h)

/-- The keys of a document that was read from a text are distinct, whatever the text repeats. -/
theorem ofText_toJson {text : String} (definitions : types.Everywhere Schema.Lossless)
    (lossless : s.Everywhere Schema.Lossless) (read : Json.read? text = some document)
    (h : ofJson document s types = .ok value) :
    ∃ written, value.toJson = .ok written ∧ ofJson written s types = .ok value :=
  have keys := Json.read?_distinctKeys read
  ofJson_of_holds (hereditary_rereads.ofJsonWithin definitions _ document s value keys lossless h)

end

/-! ### A bough with a twig -/

namespace Bough

/-- A bough may leave out whether it is green, and the boughs that grow on it. -/
def types : Definitions := ⟨[("Bough", .record .record
  { name := "Bough"
    fields := [{ name := ⟨"reach", by decide⟩, type := .primitive .double },
      { name := ⟨"look", by decide⟩
        type := .enumeration { name := "Look", symbols := ["BARE", "GREEN"] }
        default := some (.str "GREEN") },
      { name := ⟨"leaves", by decide⟩, type := .map (.primitive .int) },
      { name := ⟨"twigs", by decide⟩
        type := .union [.array (.reference "Bough" .record), .primitive .null]
        default := some (.arr []) }] })]⟩

def schema : Schema := .reference "Bough" .record

def three : Json.Number := .ofUInt64 3

def document : Json := .obj
  [("leaves", .obj [("red", .num three), ("brown", .num three)]), ("note", .null),
    ("twigs", .arr [.obj [("leaves", .obj []), ("reach", .num three), ("look", .str "BARE")]]),
    ("reach", .num three)]

def value : Value := .record
  [("reach", .double three.toFloat), ("look", .enumeration 1 "GREEN"),
    ("leaves", .map [("red", .int 3), ("brown", .int 3)]),
    ("twigs", .union 0 (.array [.record
      [("reach", .double three.toFloat), ("look", .enumeration 0 "BARE"), ("leaves", .map []),
        ("twigs", .union 0 (.array []))]]))]

theorem types_lossless : types.Everywhere Schema.Lossless := by
  apply Definitions.everywhere_of_entries
  simp [types, Schema.Everywhere, Schema.parts, RecordSchema.parts, Field.partsList,
    Schema.partsList, Schema.Lossless, Schema.FieldsDistinct, Json.DistinctKeys,
    Json.DistinctKeysAll]

theorem schema_lossless : schema.Everywhere Schema.Lossless := by
  simp [schema, Schema.Everywhere, Schema.parts, Schema.Lossless]

theorem document_distinctKeys : document.DistinctKeys := by
  simp [document, Json.DistinctKeys, Json.DistinctKeysAll, Json.DistinctKeysMembers]

end Bough

open Bough in
theorem ofJson_toJson_bough :
    ofJson document schema types = .ok Bough.value ∧
      ∃ written, Bough.value.toJson = .ok written ∧
        ofJson written schema types = .ok Bough.value := by
  have read : ofJson document schema types = .ok Bough.value := rfl
  exact ⟨read, ofJson_toJson types_lossless schema_lossless document_distinctKeys read⟩

end Value

end SchemaBinding
