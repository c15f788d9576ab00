import SchemaBinding.Proofs.Value.Default
import SchemaBinding.Proofs.Value.Specials

/-!
# Numbers out of the range of a single

A number out of the range of a `float` is read as an infinity, and the value has no JSON form.
-/

namespace SchemaBinding

/-- The number is nearer to some single than to `2 ^ 128`, which would be the next one. -/
def Json.Number.FitsSingle (n : Json.Number) : Prop :=
  Binary.magnitude n.toFloat < 2 ^ 128 - 2 ^ 103

namespace Value

section

variable {types : Definitions} {fill : Json → Schema → Except DefaultError Value}
  {document : Json} {s base : Schema} {unions : Nat} {value : Value} {x : Float}

/-! ## Numbers that become infinities -/

/--
Reading the document as a value of the schema makes the infinity `x` out of a number. The number is
read as a single, and stands in the document or in the default of a field that is left out there.
-/
inductive Overflows (types : Definitions) : Json → Schema → Float → Prop
  | number {n : Json.Number} {s : Schema} {unions : Nat}
      (hb : types.base s = .ok (unions, .primitive .float)) (beyond : ¬ n.FitsSingle) :
      Overflows types (.num n) s (Binary.widen (Binary.narrow n.toFloat))
  | item {documents : List Json} {document : Json} {s items : Schema} {unions : Nat} {x : Float}
      (hb : types.base s = .ok (unions, .array items)) (mem : document ∈ documents)
      (h : Overflows types document items x) : Overflows types (.arr documents) s x
  | entry {members : Json.Members} {member : String × Json} {s values : Schema} {unions : Nat}
      {x : Float} (hb : types.base s = .ok (unions, .map values)) (mem : member ∈ members)
      (h : Overflows types member.2 values x) : Overflows types (.obj members) s x
  | field {members : Json.Members} {document : Json} {field : Field} {s : Schema}
      {role : RecordRole} {body : RecordSchema} {unions : Nat} {x : Float}
      (hb : types.base s = .ok (unions, .record role body)) (mem : field ∈ body.fields)
      (taken : (members.lookup field.name.text).or field.default = some document)
      (h : Overflows types document field.type x) : Overflows types (.obj members) s x

theorem Overflows.isInf (h : Overflows types document s x) : x.isInf = true := by
  induction h with
  | @number n _ _ _ beyond =>
    obtain ⟨finite, -, isInf⟩ := Binary.widen_alike (Binary.narrow n.toFloat)
    have number := Binary.isNaN_narrow n.isFinite_toFloat
    rw [Json.Number.FitsSingle, ← Binary.isFinite_narrow n.isFinite_toFloat, Binary.isFinite_single,
      number] at beyond
    rw [isInf]
    simpa using beyond
  | item _ _ _ ih | entry _ _ _ ih | field _ _ _ _ ih => exact ih

theorem overflows_num {n : Json.Number} (hb : types.base s = .ok (unions, .primitive .float)) :
    Overflows types (.num n) s x ↔
      ¬ n.FitsSingle ∧ x = Binary.widen (Binary.narrow n.toFloat) := by
  constructor
  · rintro ⟨hb', beyond⟩
    exact ⟨beyond, rfl⟩
  · rintro ⟨beyond, rfl⟩
    exact .number hb beyond

theorem overflows_arr {documents : List Json} {items : Schema}
    (hb : types.base s = .ok (unions, .array items)) :
    Overflows types (.arr documents) s x ↔
      ∃ document ∈ documents, Overflows types document items x := by
  constructor
  · intro h
    cases h with
    | item hb' mem h =>
      cases hb.symm.trans hb'
      exact ⟨_, mem, h⟩
  · rintro ⟨document, mem, h⟩
    exact .item hb mem h

theorem overflows_map {members : Json.Members} {values : Schema}
    (hb : types.base s = .ok (unions, .map values)) :
    Overflows types (.obj members) s x ↔ ∃ member ∈ members, Overflows types member.2 values x := by
  constructor
  · intro h
    cases h with
    | entry hb' mem h =>
      cases hb.symm.trans hb'
      exact ⟨_, mem, h⟩
    | field hb' => cases hb.symm.trans hb'
  · rintro ⟨member, mem, h⟩
    exact .entry hb mem h

theorem overflows_record {members : Json.Members} {role : RecordRole} {body : RecordSchema}
    (hb : types.base s = .ok (unions, .record role body)) :
    Overflows types (.obj members) s x ↔
      ∃ field ∈ body.fields, ∃ document,
        (members.lookup field.name.text).or field.default = some document ∧
          Overflows types document field.type x := by
  constructor
  · intro h
    cases h with
    | entry hb' => cases hb.symm.trans hb'
    | field hb' mem taken h =>
      cases hb.symm.trans hb'
      exact ⟨_, mem, _, taken, h⟩
  · rintro ⟨field, mem, document, taken, h⟩
    exact .field hb mem taken h

/-! ## Values without parts -/

theorem specials_wrap (unions : Nat) (value : Value) :
    (wrap unions value).specials = value.specials := by
  induction unions with
  | zero => rfl
  | succ unions ih => rw [wrap, specials, ih]

theorem specials_double (n : Json.Number) : (double n.toFloat).specials = [] := by
  have finite := Binary.isFinite_double n.toFloat
  rw [n.isFinite_toFloat] at finite
  rw [specials, if_neg]
  simpa using finite

theorem mem_specials_float (y : Float32) :
    x ∈ (float y).specials ↔ y.isFinite = false ∧ x = Binary.widen y := by
  rw [specials, Binary.isFinite_single]
  cases y.isNaN || y.isInf <;> simp

theorem ofPrimitive_cases {p : Primitive} (h : ofPrimitive p document = .ok value) :
    (∃ n, document = .num n ∧ p = .float ∧ value = .float (Binary.narrow n.toFloat)) ∨
      (p ≠ .float ∧ value.specials = []) := by
  unfold ofPrimitive at h
  split at h
  · cases h; exact .inr ⟨nofun, rfl⟩
  · cases h; exact .inr ⟨nofun, rfl⟩
  · split at h
    · cases h
    · split at h
      · cases h; exact .inr ⟨nofun, rfl⟩
      · cases h
  · split at h
    · cases h
    · cases h; exact .inr ⟨nofun, rfl⟩
  · next n => cases h; exact .inl ⟨n, rfl, rfl, rfl⟩
  · cases h; exact .inr ⟨nofun, specials_double _⟩
  · obtain ⟨data, -, rfl⟩ := Result.map_eq_ok.mp h
    exact .inr ⟨nofun, rfl⟩
  · cases h; exact .inr ⟨nofun, rfl⟩
  · cases h

theorem ofPlain_cases (h : ofPlain document base = .ok value) :
    (∃ n, document = .num n ∧ base = .primitive .float ∧
      value = .float (Binary.narrow n.toFloat)) ∨
    (base ≠ .primitive .float ∧ value.specials = []) := by
  unfold ofPlain at h
  split at h
  · rcases ofPrimitive_cases h with ⟨n, rfl, rfl, rfl⟩ | ⟨notFloat, none⟩
    · exact .inl ⟨n, rfl, rfl, rfl⟩
    · exact .inr ⟨fun same => notFloat (Schema.primitive.inj same), none⟩
  · refine .inr ⟨nofun, ?_⟩
    unfold ofSymbol at h
    split at h
    · split at h <;> cases h
      rfl
    · cases h
  · refine .inr ⟨nofun, ?_⟩
    unfold ofFixed at h
    split at h
    · obtain ⟨data, -, h⟩ := Result.bind_eq_ok.mp h
      split at h <;> cases h
      rfl
    · cases h
  · cases h

/-! ## Whole documents -/

theorem exists_mem_iff_of_forall₂ {α β : Type} {P : α → Prop} {Q : β → Prop} {as : List α}
    {bs : List β} (h : List.Forall₂ (fun a b => Q b ↔ P a) as bs) :
    (∃ b ∈ bs, Q b) ↔ ∃ a ∈ as, P a := by
  induction h with
  | nil => simp
  | cons own _ ih => rw [List.exists_mem_cons_iff, List.exists_mem_cons_iff, own, ih]

theorem sizeOf_lt_arr {item : Json} {items : List Json} (mem : item ∈ items) :
    sizeOf item < sizeOf (Json.arr items) := by
  have part := List.sizeOf_lt_of_mem mem
  simp only [Json.arr.sizeOf_spec]
  omega

theorem sizeOf_lt_obj {member : String × Json} {members : Json.Members} (mem : member ∈ members) :
    sizeOf member.2 < sizeOf (Json.obj members) := by
  have part := sizeOf_lt_of_entry mem
  simp only [Json.obj.sizeOf_spec]
  omega

/-- The special numbers of the value are the infinities that were made out of numbers. -/
def Traced (types : Definitions) (document : Json) (s : Schema) (value : Value) : Prop :=
  ∀ x, x ∈ value.specials ↔ Overflows types document s x

theorem Traced.of_plain (hb : types.base s = .ok (unions, base))
    (h : ofPlain document base = .ok value) : Traced types document s value := by
  intro x
  rcases ofPlain_cases h with ⟨n, rfl, rfl, rfl⟩ | ⟨notFloat, none⟩
  · rw [overflows_num hb, mem_specials_float, Json.Number.FitsSingle,
      ← Binary.isFinite_narrow n.isFinite_toFloat, Bool.not_eq_true]
  · rw [none]
    refine iff_of_false List.not_mem_nil fun overflows => ?_
    cases overflows with
    | number hb' =>
      cases hb.symm.trans hb'
      exact notFloat rfl
    | item hb' | entry hb' | field hb' =>
      cases hb.symm.trans hb'
      cases h

theorem Traced.of_reads (hb : types.base s = .ok (unions, base))
    (part : ∀ part s value, sizeOf part < sizeOf document →
      convert types fill part s = .ok value → Traced types part s value)
    (filled : ∀ default s value, fill default s = .ok value → Traced types default s value)
    (reads : Reads types fill document base value) : Traced types document s value := by
  intro x
  cases reads with
  | plain hp => exact Traced.of_plain hb hp x
  | array hv =>
    rw [convertItems_eq_mapM, Result.mapM_eq_ok] at hv
    rw [specials_array, List.mem_flatMap, overflows_arr hb]
    have each := (List.forall₂_and_left _ _).mpr ⟨fun item mem => mem, hv⟩
    refine exists_mem_iff_of_forall₂ (each.imp ?_)
    rintro item value ⟨mem, read⟩
    exact part item _ value (sizeOf_lt_arr mem) read x
  | map he =>
    rw [convertEntries_eq_mapM, Result.mapM_eq_ok] at he
    rw [specials_map, List.mem_flatMap, overflows_map hb]
    have each := (List.forall₂_and_left _ _).mpr ⟨fun member mem => mem, he⟩
    refine exists_mem_iff_of_forall₂ (each.imp ?_)
    rintro member entry ⟨mem, read⟩
    obtain ⟨value, hv, rfl⟩ := Result.map_eq_ok.mp read
    exact part member.2 _ value (sizeOf_lt_obj mem) hv x
  | record hf =>
    rw [specials_record, List.mem_flatMap, overflows_record hb]
    refine exists_mem_iff_of_forall₂ (hf.imp ?_)
    rintro field ⟨name, value⟩ ⟨-, read⟩
    rcases orDefault_convertMember_eq_ok read with
      ⟨member, found, read⟩ | ⟨absent, default, hd, read⟩
    · have own := part member _ value (sizeOf_lt_obj (mem_of_lookup found)) read x
      simpa [found] using own
    · have own := filled default _ value read x
      simpa [absent, hd] using own

theorem Traced.of_convert
    (filled : ∀ default s value, fill default s = .ok value → Traced types default s value)
    (h : convert types fill document s = .ok value) : Traced types document s value := by
  -- The parts of a document are smaller than it is. A default may not be, and is left to `filled`.
  induction document using (measure (sizeOf (α := Json))).wf.induction generalizing s value with
  | h document ih =>
    obtain ⟨unions, base, content, hb, rfl, reads⟩ := convert_eq_ok.mp h
    have traced : Traced types document s content :=
      .of_reads hb (fun part _ _ smaller read => ih part smaller read) filled reads
    unfold Traced
    rwa [specials_wrap]

theorem Traced.of_ofJson (h : ofJson document s types = .ok value) :
    Traced types document s value := by
  -- Induction on the defaults that are taken inside one another: none are left at the innermost.
  have within : ∀ fills document s value, ofJsonWithin types fills document s = .ok value →
      Traced types document s value := by
    intro fills
    induction fills with
    | zero => exact fun _ _ _ => .of_convert nofun
    | succ fills ih => exact fun _ _ _ => .of_convert ih
  exact within _ _ _ _ h

/--
A value that was read from a document has a JSON form unless some number in the document, or in a
default that was filled in, is out of the range of the single that it became. Such a number has
become an infinity. No number becomes a NaN, and none but those is special.
-/
theorem ofJson_toJson_iff (h : ofJson document s types = .ok value) :
    (∀ x, x ∈ value.specials ↔ Overflows types document s x) ∧
    (∀ x ∈ value.specials, x.isInf = true) ∧
    ((∃ written, value.toJson = .ok written) ↔ ∀ x, ¬ Overflows types document s x) := by
  have traced := Traced.of_ofJson h
  refine ⟨traced, fun x mem => ((traced x).mp mem).isInf, ?_⟩
  rw [(toJson_failsAt value).ok_iff, List.eq_nil_iff_forall_not_mem]
  exact forall_congr' fun x => not_congr (traced x)

/-- The int next to the largest one is no default, but a number far beyond all singles is one. -/
theorem ofJson_float_overflows :
    ofJson (.num (.integer 2147483648 (by decide))) (.primitive .int) ⟨[]⟩ =
      .error (.outOfIntRange 2147483648) ∧
    ofJson (.num (.double (Float.ofBits 0x7e37e43c8800759c) (by decide))) (.primitive .float) ⟨[]⟩ =
      .ok (.float (Float32.ofBits 0x7f800000)) ∧
    (float (Float32.ofBits 0x7f800000)).toJson =
      .error (.notFinite (Float.ofBits 0x7ff0000000000000)) :=
  ⟨rfl, rfl, rfl⟩

end

/-! ### Gauges along a river -/

namespace Gauge

/-- Half a unit beyond the largest single. -/
def halfway : Json.Number := .double (Float.ofBits 0x47effffff0000000) (by decide)

def below : Json.Number := .double (Float.ofBits 0x47efffffefffffff) (by decide)

/-- A gauge without an alarm level has one that no single reaches. -/
def types : Definitions := ⟨[("Gauge", .record .record
  { name := "Gauge"
    fields := [{ name := ⟨"depths", by decide⟩, type := .array (.primitive .float) },
      { name := ⟨"alarm", by decide⟩
        type := .union [.primitive .float, .primitive .null]
        default := some (.num halfway) },
      { name := ⟨"upstream", by decide⟩
        type := .map (.reference "Gauge" .record)
        default := some (.obj []) }] })]⟩

def schema : Schema := .reference "Gauge" .record

def document (alarm : Json.Members) : Json := .obj
  [("depths", .arr [.num (.ofUInt64 18446744073709551615), .num below]), ("alarm", .num below),
    ("upstream", .obj [("bend", .obj (("depths", .arr []) :: alarm))])]

def value (alarm : Float32) : Value := .record
  [("depths", .array [.float (Float32.ofBits 0x5f800000), .float (Float32.ofBits 0x7f7fffff)]),
    ("alarm", .union 0 (.float (Float32.ofBits 0x7f7fffff))),
    ("upstream", .map [("bend", .record [("depths", .array []), ("alarm", .union 0 (.float alarm)),
      ("upstream", .map [])])])]

theorem not_fitsSingle_halfway : ¬ halfway.FitsSingle := by
  rw [Json.Number.FitsSingle, ← Binary.isFinite_narrow halfway.isFinite_toFloat]
  decide

theorem overflows_document :
    Overflows types (document []) schema (Float.ofBits 0x7ff0000000000000) := by
  have alarm : Overflows types (.num halfway) (.union [.primitive .float, .primitive .null])
      (Float.ofBits 0x7ff0000000000000) := .number rfl not_fitsSingle_halfway
  have bend : Overflows types (.obj [("depths", .arr [])]) schema
      (Float.ofBits 0x7ff0000000000000) :=
    .field rfl (.tail _ (.head _)) rfl alarm
  exact .field rfl (.tail _ (.tail _ (.head _))) rfl (.entry rfl (.head _) bend)

end Gauge

open Gauge in
theorem ofJson_toJson_gauge :
    (ofJson (document [("alarm", .num below)]) schema types =
        .ok (Gauge.value (Float32.ofBits 0x7f7fffff)) ∧
      ∃ written, (Gauge.value (Float32.ofBits 0x7f7fffff)).toJson = .ok written) ∧
    ofJson (document []) schema types = .ok (Gauge.value (Float32.ofBits 0x7f800000)) ∧
      ¬ ∃ written, (Gauge.value (Float32.ofBits 0x7f800000)).toJson = .ok written := by
  have fitting : ofJson (document [("alarm", .num below)]) schema types =
      .ok (Gauge.value (Float32.ofBits 0x7f7fffff)) := rfl
  have beyond : ofJson (document []) schema types =
      .ok (Gauge.value (Float32.ofBits 0x7f800000)) := rfl
  obtain ⟨traced, -, shown⟩ := ofJson_toJson_iff fitting
  obtain ⟨-, -, hidden⟩ := ofJson_toJson_iff beyond
  refine ⟨⟨fitting, shown.mpr fun x overflows => ?_⟩, beyond, fun written => ?_⟩
  · exact List.not_mem_nil ((traced x).mpr overflows)
  · exact hidden.mp written _ overflows_document

end Value

end SchemaBinding
