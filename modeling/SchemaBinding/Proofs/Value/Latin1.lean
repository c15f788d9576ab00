import SchemaBinding.Proofs.Value.Default

/-!
# Byte strings as texts

Every byte string has one text as its default, and no other document stands for it.
-/

namespace SchemaBinding

/-! ## Texts and bytes -/

/-- Each character has the code point of the byte in its place. -/
def Spells : List Char → List UInt8 → Prop := List.Forall₂ fun c byte => c.toNat = byte.toNat

namespace Spells

variable {cs cs' : List Char} {data : List UInt8}

theorem text_unique (h : Spells cs data) (h' : Spells cs' data) : cs = cs' := by
  induction h generalizing cs' with
  | nil => cases h'; rfl
  | cons point rest ih =>
    cases h' with
    | cons point' rest' => rw [Char.toNat_inj.mp (point.trans point'.symm), ih rest']

theorem ofUInt8 (data : List UInt8) : Spells (data.map Char.ofUInt8) data :=
  List.forall₂_map_left_iff.mpr (List.forall₂_same.mpr fun _ _ => rfl)

end Spells

theorem latin1Bytes_eq_ok {cs : List Char} {data : List UInt8} :
    latin1Bytes cs = .ok data ↔ Spells cs data := by
  unfold Spells
  induction cs generalizing data with
  | nil => cases data <;> simp [latin1Bytes]
  | cons c cs ih =>
    rw [latin1Bytes]
    split
    · next small =>
      constructor
      · intro h
        obtain ⟨rest, hr, rfl⟩ := Result.map_eq_ok.mp h
        exact .cons (UInt8.toNat_ofNat_of_lt' small).symm (ih.mp hr)
      · intro h
        cases h with
        | cons own rest =>
          refine Result.map_eq_ok.mpr ⟨_, ih.mpr rest, ?_⟩
          rw [own, UInt8.ofNat_toNat]
    · next large =>
      refine ⟨nofun, fun h => ?_⟩
      cases h with
      | @cons _ byte _ _ own _ =>
        rw [own] at large
        exact absurd byte.toNat_lt large

theorem exists_spells_iff {cs : List Char} :
    (∃ data, Spells cs data) ↔ ∀ c ∈ cs, c.toNat ≤ 0xFF := by
  constructor
  · rintro ⟨data, h⟩
    induction h with
    | nil => exact fun _ => nofun
    | @cons c byte _ _ own _ ih =>
      have bounded := byte.toNat_lt
      exact List.forall_mem_cons.mpr ⟨by omega, ih⟩
  · intro small
    induction cs with
    | nil => exact ⟨[], .nil⟩
    | cons c cs ih =>
      obtain ⟨own, others⟩ := List.forall_mem_cons.mp small
      obtain ⟨data, rest⟩ := ih others
      exact ⟨_, .cons (UInt8.toNat_ofNat_of_lt' (by omega : c.toNat < 256)).symm rest⟩

namespace Value

variable {types : Definitions} {document : Json} {text : String} {value : Value}

/-! ## Defaults for bytes -/

theorem ofPrimitive_bytes_eq_ok : ofPrimitive .bytes document = .ok value ↔
    ∃ text data, document = .str text ∧ Spells text.toList data ∧ value = .bytes data := by
  constructor
  · intro h
    cases document with
    | str text =>
      obtain ⟨data, hd, rfl⟩ := Result.map_eq_ok.mp h
      exact ⟨text, data, rfl, latin1Bytes_eq_ok.mp hd, rfl⟩
    | _ => cases h
  · rintro ⟨text, data, rfl, spells, rfl⟩
    exact Result.map_eq_ok.mpr ⟨data, latin1Bytes_eq_ok.mpr spells, rfl⟩

theorem ofFixed_eq_ok {f : FixedSchema} : ofFixed f (.str text) = .ok value ↔
    text.length = f.size.toNat ∧ ∃ data, Spells text.toList data ∧ value = .fixed data := by
  have length {data : List UInt8} (spells : Spells text.toList data) : data.length = text.length :=
    (List.Forall₂.length_eq spells).symm
  change (latin1Bytes text.toList >>= fun data => _) = _ ↔ _
  rw [Result.bind_eq_ok]
  constructor
  · rintro ⟨data, hd, h⟩
    have spells := latin1Bytes_eq_ok.mp hd
    split at h
    · cases h
    · next size =>
      cases h
      exact ⟨by rw [← length spells]; omega, data, spells, rfl⟩
  · rintro ⟨size, data, spells, rfl⟩
    refine ⟨data, latin1Bytes_eq_ok.mpr spells, ?_⟩
    rw [if_neg (by rw [length spells]; omega)]
    rfl

theorem ofJson_bytes_eq_ok : ofJson document (.primitive .bytes) types = .ok value ↔
    ∃ text data, document = .str text ∧ Spells text.toList data ∧ value = .bytes data := by
  rw [ofJson_plain rfl]
  exact ofPrimitive_bytes_eq_ok

theorem ofJson_fixed_eq_ok {f : FixedSchema} :
    ofJson (.str text) (.fixed f) types = .ok value ↔
      text.length = f.size.toNat ∧ ∃ data, Spells text.toList data ∧ value = .fixed data := by
  rw [ofJson_plain rfl]
  exact ofFixed_eq_ok

theorem ofJson_bytes_iff_spells {data : List UInt8} :
    ofJson (.str text) (.primitive .bytes) types = .ok (.bytes data) ↔ Spells text.toList data := by
  rw [ofJson_bytes_eq_ok]
  constructor
  · rintro ⟨_, _, ⟨⟩, spells, ⟨⟩⟩
    exact spells
  · exact fun spells => ⟨text, data, rfl, spells, rfl⟩

theorem exists_ofJson_bytes_iff :
    (∃ value, ofJson (.str text) (.primitive .bytes) types = .ok value) ↔
      ∀ c ∈ text.toList, c.toNat ≤ 0xFF := by
  rw [← exists_spells_iff]
  constructor
  · rintro ⟨value, h⟩
    obtain ⟨_, data, ⟨⟩, spells, -⟩ := ofJson_bytes_eq_ok.mp h
    exact ⟨data, spells⟩
  · rintro ⟨data, spells⟩
    exact ⟨_, ofJson_bytes_iff_spells.mpr spells⟩

/--
For every byte string there is one document, and no other, that bytes are read from: the text whose
characters have the bytes as code points. A text with a character above U+00FF is refused, and any
other is read. A fixed type reads the same texts as the same bytes, if they have as many characters
as its size says.
-/
theorem ofJson_latin1 (types : Definitions) :
    (∀ data, ∃ text, Spells text.toList data ∧ ∀ document,
      ofJson document (.primitive .bytes) types = .ok (.bytes data) ↔ document = .str text) ∧
    (∀ text : String, (∃ e, ofJson (.str text) (.primitive .bytes) types = .error e) ↔
      ∃ c ∈ text.toList, 0xFF < c.toNat) ∧
    ∀ (f : FixedSchema) (text : String),
      ((∃ value, ofJson (.str text) (.fixed f) types = .ok value) ↔
        (∀ c ∈ text.toList, c.toNat ≤ 0xFF) ∧ text.length = f.size.toNat) ∧
      ∀ value, ofJson (.str text) (.fixed f) types = .ok value ↔
        text.length = f.size.toNat ∧ ∃ data, value = .fixed data ∧
          ofJson (.str text) (.primitive .bytes) types = .ok (.bytes data) := by
  refine ⟨fun data => ?_, fun text => ?_, fun f text => ⟨?_, fun value => ?_⟩⟩
  · have spelled : Spells (String.ofList (data.map Char.ofUInt8)).toList data := by
      rw [String.toList_ofList]
      exact .ofUInt8 data
    refine ⟨_, spelled, fun document => ⟨fun h => ?_, ?_⟩⟩
    · obtain ⟨text, _, rfl, spells, ⟨⟩⟩ := ofJson_bytes_eq_ok.mp h
      exact congrArg Json.str (String.toList_inj.mp (spells.text_unique spelled))
    · rintro rfl
      exact ofJson_bytes_iff_spells.mpr spelled
  · have failed : (∃ e, ofJson (.str text) (.primitive .bytes) types = .error e) ↔
        ¬ ∃ value, ofJson (.str text) (.primitive .bytes) types = .ok value := by
      cases ofJson (.str text) (.primitive .bytes) types <;> simp
    rw [failed, exists_ofJson_bytes_iff]
    simp only [not_forall, exists_prop, Nat.not_le]
  · simp only [ofJson_fixed_eq_ok, ← exists_spells_iff]
    constructor
    · rintro ⟨_, size, data, spells, -⟩
      exact ⟨⟨data, spells⟩, size⟩
    · rintro ⟨⟨data, spells⟩, size⟩
      exact ⟨_, size, data, spells, rfl⟩
  · simp only [ofJson_fixed_eq_ok, ofJson_bytes_iff_spells, and_comm]

/-- The one character takes two bytes in UTF-8, and it stands for one. -/
example : ofJson (.str "\u00e9") (.fixed { name := "Mark", size := 1 }) .empty =
    .ok (.fixed [0xE9]) := rfl

end Value

end SchemaBinding
