import SchemaBinding.Proofs.Outcome
import SchemaBinding.Proofs.Value.Conformance
import SchemaBinding.Value.Default

/-!
# Defaults conform

A default that can be read as a value of a schema gives a value that conforms to it.
-/

namespace SchemaBinding

/-! ## The schema that a default belongs to -/

theorem Schema.firstBranch_inherits {P : Schema → Prop}
    {follow : String → Except DefaultError (Nat × Schema)}
    (branch : ∀ first rest, P (.union (first :: rest)) → P first)
    (step : ∀ fullname unions base, follow fullname = .ok (unions, base) → P base)
    {s base : Schema} {unions : Nat} (h : s.firstBranch follow = .ok (unions, base)) (hs : P s) :
    P base := by
  fun_induction Schema.firstBranch follow s generalizing unions with
  | case1 => cases h
  | case2 first rest ih =>
    obtain ⟨⟨n, b⟩, hb, h⟩ := Result.bind_eq_ok.mp h
    cases h
    exact ih hb (branch first rest hs)
  | case3 fullname kind => exact step _ _ _ h
  | case4 => cases h; exact hs

theorem Definitions.base_inherits {types : Definitions} {P : Schema → Prop}
    (branch : ∀ first rest, P (.union (first :: rest)) → P first)
    (definition : ∀ fullname schema, types.find? fullname = some schema → P schema)
    {s base : Schema} {unions : Nat} (h : types.base s = .ok (unions, base)) (hs : P s) :
    P base := by
  have within : ∀ hops s unions base, types.baseWithin hops s = .ok (unions, base) → P s →
      P base := by
    intro hops
    induction hops with
    | zero =>
      intro s unions base h hs
      refine Schema.firstBranch_inherits branch ?_ h hs
      intro fullname unions base found
      split at found <;> cases found
    | succ hops ih =>
      intro s unions base h hs
      refine Schema.firstBranch_inherits branch ?_ h hs
      intro fullname unions base found
      split at found
      · cases found
      · next schema resolved =>
        exact ih _ _ _ found (definition _ _ (find?_of_resolve? resolved))
  exact within _ _ _ _ h hs

theorem Schema.anyBranch_of_firstBranch {follow : String → Except DefaultError (Nat × Schema)}
    {test : Schema → Bool} {go : String → Bool}
    (step : ∀ fullname unions base, follow fullname = .ok (unions, base) → test base = true →
      go fullname = true)
    {s base : Schema} {unions : Nat} (h : s.firstBranch follow = .ok (unions, base))
    (pass : test base = true) : s.anyBranch test go = true := by
  fun_induction Schema.firstBranch follow s generalizing unions with
  | case1 => cases h
  | case2 first rest ih =>
    obtain ⟨⟨n, b⟩, hb, h⟩ := Result.bind_eq_ok.mp h
    cases h
    rw [Schema.anyBranch, Schema.anyBranchList, ih hb, Bool.true_or]
  | case3 fullname kind => exact step _ _ _ h pass
  | case4 _ notEmpty notUnion notReference =>
    cases h
    rwa [Schema.anyBranch]
    · intro branches hu
      cases branches with
      | nil => exact notEmpty hu
      | cons first rest => exact notUnion first rest hu
    · exact notReference

theorem Definitions.base_plain (types : Definitions) {s : Schema} (notUnion : s.isUnion = false)
    (notReference : s.isReference = false) : types.base s = .ok (0, s) := by
  unfold Definitions.base
  cases s with
  | union => cases notUnion
  | reference => cases notReference
  | _ => cases types.size <;> rfl

/-- The defaults of the schema have no parts, and no table is needed for them. -/
def Schema.isPlain : Schema → Bool
  | .primitive _ | .enumeration _ | .fixed _ => true
  | _ => false

theorem Definitions.any_of_base {types : Definitions} {test : Schema → Bool} {s base : Schema}
    {unions : Nat} (h : types.base s = .ok (unions, base)) (pass : test base = true) :
    types.any test s = true := by
  have within : ∀ hops s unions base, types.baseWithin hops s = .ok (unions, base) →
      test base = true → types.anyWithin test hops s = true := by
    intro hops
    induction hops with
    | zero =>
      intro s unions base h pass
      refine Schema.anyBranch_of_firstBranch ?_ h pass
      intro fullname unions base found
      split at found <;> cases found
    | succ hops ih =>
      intro s unions base h pass
      refine Schema.anyBranch_of_firstBranch ?_ h pass
      intro fullname unions base found pass
      cases resolved : types.resolve? fullname with
      | none => rfl
      | some schema =>
        rw [resolved] at found
        exact ih _ _ _ found pass
  exact within _ _ _ _ h pass

namespace Value

/-! ## Values without parts -/

theorem fits_wrap (types : Definitions) (unions : Nat) (value : Value) (s : Schema) :
    (wrap unions value).fits types s = value.fits types s := by
  induction unions with
  | zero => rfl
  | succ unions ih => rw [wrap, fits, ih]

theorem ofPrimitive_fits {types : Definitions} {p : Primitive} {document : Json} {value : Value}
    (h : ofPrimitive p document = .ok value) : value.fits types (.primitive p) = true := by
  unfold ofPrimitive at h
  split at h
  · cases h; rfl
  · cases h; rfl
  · split at h
    · cases h
    · split at h
      · cases h; rfl
      · cases h
  · split at h
    · cases h
    · cases h; rfl
  · cases h; rfl
  · cases h; rfl
  · obtain ⟨data, -, rfl⟩ := Result.map_eq_ok.mp h
    rfl
  · cases h; rfl
  · cases h

theorem ofSymbol_fits {types : Definitions} {e : EnumSchema} {document : Json} {value : Value}
    (h : ofSymbol e document = .ok value) : value.fits types (.enumeration e) = true := by
  unfold ofSymbol at h
  split at h
  · split at h
    · next index found =>
      cases h
      rw [fits, found]
      rfl
    · cases h
  · cases h

theorem ofFixed_fits {types : Definitions} {f : FixedSchema} {document : Json} {value : Value}
    (h : ofFixed f document = .ok value) : value.fits types (.fixed f) = true := by
  unfold ofFixed at h
  split at h
  · obtain ⟨data, -, h⟩ := Result.bind_eq_ok.mp h
    split at h
    · cases h
    · next size =>
      cases h
      rw [fits, beq_iff_eq]
      exact not_not.mp size
  · cases h

/-! ## Records -/

theorem lookup_eq_some {β : Type} {entries : List (String × β)} {name : String} {b : β}
    (distinct : (entries.map (·.1)).Nodup) :
    entries.lookup name = some b ↔ (name, b) ∈ entries := by
  induction entries with
  | nil => simp
  | cons entry entries ih =>
    obtain ⟨m, c⟩ := entry
    obtain ⟨fresh, others⟩ := List.nodup_cons.mp distinct
    rw [List.lookup_cons, List.mem_cons, ← ih others]
    by_cases same : name = m
    · subst same
      have absent : entries.lookup name ≠ some b := fun found =>
        fresh (List.mem_map.mpr ⟨(name, b), (ih others).mp found, rfl⟩)
      simp [absent, eq_comm]
    · simp [same, beq_false_of_ne same]

theorem lookup_of_forall₂ {α : Type} {key : α → String} {Q : α → Value → Prop} {as : List α}
    {members : List (String × Value)}
    (h : List.Forall₂ (fun a member => member.1 = key a ∧ Q a member.2) as members)
    (distinct : (as.map key).Nodup) :
    ∀ a ∈ as, ∃ value, members.lookup (key a) = some value ∧ Q a value := by
  induction h with
  | nil => intro a mem; cases mem
  | @cons first member as members hm _ ih =>
    obtain ⟨n, value⟩ := member
    obtain ⟨rfl, hq⟩ := hm
    rw [List.map_cons, List.nodup_cons] at distinct
    obtain ⟨fresh, distinct⟩ := distinct
    intro a mem
    rcases List.mem_cons.mp mem with rfl | mem
    · exact ⟨value, List.lookup_cons_self, hq⟩
    · obtain ⟨value', found, hq'⟩ := ih distinct a mem
      have other : key a ≠ key first := fun same => fresh (same ▸ List.mem_map_of_mem mem)
      exact ⟨value', by rw [List.lookup_cons, beq_false_of_ne other, found], hq'⟩

theorem record_fits {types : Definitions} {role : RecordRole} {body : RecordSchema}
    {members : List (String × Value)}
    (h : List.Forall₂ (fun field member =>
      member.1 = field.name.text ∧ member.2.conforms field.type types = true) body.fields members)
    (distinct : (body.fields.map (·.name.text)).Nodup) :
    (Value.record members).fits types (.record role body) = true := by
  rw [fits, List.all_eq_true]
  intro field mem
  obtain ⟨value, found, conforms⟩ := lookup_of_forall₂
    (Q := fun field value => value.conforms field.type types = true) h distinct field mem
  rw [memberConforms?_eq, found, Option.map_some, Option.getD_some, conforms]

/-! ## Documents with parts -/

section

variable {types : Definitions} {fill : Json → Schema → Except DefaultError Value}

/-- How a document is read as a value of a schema that is neither a union nor a reference. -/
inductive Reads (types : Definitions) (fill : Json → Schema → Except DefaultError Value) :
    Json → Schema → Value → Prop
  | plain {document : Json} {base : Schema} {value : Value}
      (h : ofPlain document base = .ok value) : Reads types fill document base value
  | array {documents : List Json} {items : Schema} {values : List Value}
      (h : convertItems types fill documents items = .ok values) :
      Reads types fill (.arr documents) (.array items) (.array values)
  | map {members : Json.Members} {schema : Schema} {entries : List (String × Value)}
      (h : convertEntries types fill members schema = .ok entries) :
      Reads types fill (.obj members) (.map schema) (.map entries)
  | record {members : Json.Members} {role : RecordRole} {body : RecordSchema}
      {fields : List (String × Value)}
      (h : List.Forall₂ (fun field member => member.1 = field.name.text ∧
        orDefault fill body.name field (convertMember types fill field.name.text members field.type)
          = .ok member.2) body.fields fields) :
      Reads types fill (.obj members) (.record role body) (.record fields)

theorem convert_eq_ok {document : Json} {s : Schema} {value : Value} :
    convert types fill document s = .ok value ↔
      ∃ unions base content, types.base s = .ok (unions, base) ∧ value = wrap unions content ∧
        Reads types fill document base content := by
  unfold convert
  constructor
  · intro h
    obtain ⟨⟨unions, base⟩, hb, h⟩ := Result.bind_eq_ok.mp h
    obtain ⟨content, hc, rfl⟩ := Result.map_eq_ok.mp h
    refine ⟨unions, base, content, hb, rfl, ?_⟩
    split at hc
    · split at hc
      · obtain ⟨values, hv, rfl⟩ := Result.map_eq_ok.mp hc
        exact .array hv
      · exact .plain hc
    · split at hc
      · obtain ⟨entries, he, rfl⟩ := Result.map_eq_ok.mp hc
        exact .map he
      · obtain ⟨fields, hf, rfl⟩ := Result.map_eq_ok.mp hc
        refine .record ((Result.mapM_eq_ok.mp hf).imp ?_)
        intro field member hm
        obtain ⟨value, hv, rfl⟩ := Result.map_eq_ok.mp hm
        exact ⟨rfl, hv⟩
      · exact .plain hc
    · exact .plain hc
  · rintro ⟨unions, base, content, hb, rfl, reads⟩
    refine Result.bind_eq_ok.mpr ⟨_, hb, Result.map_eq_ok.mpr ⟨content, ?_, rfl⟩⟩
    cases reads with
    | plain hp =>
      split
      · split
        · cases hp
        · exact hp
      · split
        · cases hp
        · cases hp
        · exact hp
      · exact hp
    | array hv => exact Result.map_eq_ok.mpr ⟨_, hv, rfl⟩
    | map he => exact Result.map_eq_ok.mpr ⟨_, he, rfl⟩
    | record hf =>
      refine Result.map_eq_ok.mpr ⟨_, Result.mapM_eq_ok.mpr (hf.imp ?_), rfl⟩
      rintro field ⟨name, value⟩ ⟨rfl, hv⟩
      exact Result.map_eq_ok.mpr ⟨value, hv, rfl⟩

theorem convertItems_eq_mapM (documents : List Json) (s : Schema) :
    convertItems types fill documents s =
      documents.mapM fun document => convert types fill document s := by
  induction documents with
  | nil => rfl
  | cons document documents ih => rw [convertItems, ih, List.mapM_cons]

theorem convertEntries_eq_mapM (members : Json.Members) (s : Schema) :
    convertEntries types fill members s =
      members.mapM fun member => (member.1, ·) <$> convert types fill member.2 s := by
  induction members with
  | nil => rfl
  | cons member members ih =>
    rw [convertEntries, ih, List.mapM_cons]
    cases convert types fill member.2 s <;> rfl

theorem convertMember_eq (key : String) (members : Json.Members) (s : Schema) :
    convertMember types fill key members s =
      (members.lookup key).map fun document => convert types fill document s := by
  induction members with
  | nil => rfl
  | cons member members ih =>
    obtain ⟨k, document⟩ := member
    rw [convertMember]
    by_cases same : k = key
    · rw [if_pos same, same, List.lookup_cons_self, Option.map_some]
    · rw [if_neg same, List.lookup_cons, beq_false_of_ne (Ne.symm same), ih]

theorem orDefault_eq_ok {record : String} {field : Field}
    {given : Option (Except DefaultError Value)} {value : Value}
    (h : orDefault fill record field given = .ok value) :
    given = some (.ok value) ∨
      ∃ default, field.default = some default ∧ fill default field.type = .ok value := by
  unfold orDefault at h
  split at h
  · exact .inl (by rw [h])
  · next default hd => exact .inr ⟨default, hd, h⟩
  · cases h

theorem orDefault_convertMember_eq_ok {record key : String} {field : Field}
    {members : Json.Members} {value : Value}
    (h : orDefault fill record field (convertMember types fill key members field.type) =
      .ok value) :
    (∃ document, members.lookup key = some document ∧
      convert types fill document field.type = .ok value) ∨
    (members.lookup key = none ∧
      ∃ default, field.default = some default ∧ fill default field.type = .ok value) := by
  rw [convertMember_eq] at h
  cases found : members.lookup key with
  | some document =>
    rw [found] at h
    exact .inl ⟨document, rfl, h⟩
  | none =>
    rw [found] at h
    rcases orDefault_eq_ok h with given | filled
    · cases given
    · exact .inr ⟨rfl, filled⟩

theorem ofPlain_fits {document : Json} {s : Schema} {value : Value}
    (h : ofPlain document s = .ok value) : value.fits types s = true := by
  unfold ofPlain at h
  split at h
  · exact ofPrimitive_fits h
  · exact ofSymbol_fits h
  · exact ofFixed_fits h
  · cases h

/-! ## Induction on the document -/

theorem base_everywhere {P : Schema → Prop} (definitions : types.Everywhere P) {s base : Schema}
    {unions : Nat} (hb : types.base s = .ok (unions, base)) (hs : s.Everywhere P) :
    base.Everywhere P :=
  Definitions.base_inherits (fun _ _ h => h.branch List.mem_cons_self) definitions hb hs

/-- Under the wrappers of a schema there is a value of which `F` holds. -/
def Holds (types : Definitions) (F : Schema → Value → Prop) (s : Schema) (value : Value) : Prop :=
  ∃ unions base content, types.base s = .ok (unions, base) ∧ value = wrap unions content ∧
    F base content

/--
A property of values that passes from the parts of a document to the whole, where the document is
`Good` and the schemas follow a rule. The rule sees to it that defaults of fields are good too.
-/
structure Hereditary (types : Definitions) (Good : Json → Prop) (P : Schema → Prop)
    (F : Schema → Value → Prop) : Prop where
  item : ∀ {documents}, Good (.arr documents) → ∀ document ∈ documents, Good document
  member : ∀ {members : Json.Members}, Good (.obj members) → ∀ member ∈ members, Good member.2
  default : ∀ {role body field document}, P (.record role body) → field ∈ body.fields →
    field.default = some document → Good document
  plain : ∀ {document s value}, P s → ofPlain document s = .ok value → F s value
  array : ∀ {items values}, (∀ value ∈ values, Holds types F items value) →
    F (.array items) (.array values)
  map : ∀ {members values} {entries : List (String × Value)}, Good (.obj members) →
    entries.map (·.1) = members.map (·.1) → (∀ entry ∈ entries, Holds types F values entry.2) →
      F (.map values) (.map entries)
  record : ∀ {role body entries}, P (.record role body) →
    List.Forall₂ (fun field entry => entry.1 = field.name.text ∧ Holds types F field.type entry.2)
      body.fields entries → F (.record role body) (.record entries)

namespace Hereditary

variable {Good : Json → Prop} {P : Schema → Prop} {F : Schema → Value → Prop}

/-- A reader of defaults gives values with the property. -/
def Filled (types : Definitions) (Good : Json → Prop) (P : Schema → Prop)
    (F : Schema → Value → Prop) (fill : Json → Schema → Except DefaultError Value) : Prop :=
  ∀ document s value, Good document → s.Everywhere P → fill document s = .ok value →
    Holds types F s value

mutual

theorem convert (h : Hereditary types Good P F) (definitions : types.Everywhere P)
    (filled : Filled types Good P F fill) : ∀ (document : Json) (s : Schema) (value : Value),
      Good document → s.Everywhere P → Value.convert types fill document s = .ok value →
        Holds types F s value
  | .arr documents, s, value, good, hs, read => by
    obtain ⟨unions, base, content, hb, rfl, hc⟩ := convert_eq_ok.mp read
    have rule := base_everywhere definitions hb hs
    refine ⟨unions, base, content, hb, rfl, ?_⟩
    cases hc with
    | plain hp => exact h.plain rule.self hp
    | array hv => exact h.array (h.items definitions filled _ _ _ (h.item good) rule.items hv)
  | .obj members, s, value, good, hs, read => by
    obtain ⟨unions, base, content, hb, rfl, hc⟩ := convert_eq_ok.mp read
    have rule := base_everywhere definitions hb hs
    refine ⟨unions, base, content, hb, rfl, ?_⟩
    cases hc with
    | plain hp => exact h.plain rule.self hp
    | map he =>
      obtain ⟨keys, each⟩ := h.entries definitions filled _ _ _ (h.member good) rule.values he
      exact h.map good keys each
    | record hf =>
      have fieldwise := (List.forall₂_and_left _ _).mpr ⟨fun field mem => mem, hf⟩
      refine h.record rule.self (fieldwise.imp ?_)
      rintro field ⟨name, member⟩ ⟨mem, rfl, hm⟩
      refine ⟨rfl, ?_⟩
      rcases orDefault_eq_ok hm with given | ⟨default, hd, read⟩
      · exact h.named definitions filled _ _ _ _ (h.member good) (rule.field mem) given
      · exact filled default _ _ (h.default rule.self mem hd) (rule.field mem) read
  | .null, s, value, _, hs, read | .bool _, s, value, _, hs, read
  | .num _, s, value, _, hs, read | .str _, s, value, _, hs, read => by
    obtain ⟨unions, base, content, hb, rfl, hc⟩ := convert_eq_ok.mp read
    cases hc with
    | plain hp =>
      exact ⟨unions, base, content, hb, rfl, h.plain (base_everywhere definitions hb hs).self hp⟩
termination_by structural document => document

theorem items (h : Hereditary types Good P F) (definitions : types.Everywhere P)
    (filled : Filled types Good P F fill) :
    ∀ (documents : List Json) (s : Schema) (values : List Value),
      (∀ document ∈ documents, Good document) → s.Everywhere P →
        convertItems types fill documents s = .ok values → ∀ value ∈ values, Holds types F s value
  | [], s, values, _, hs, read => by
    cases read
    exact List.forall_mem_nil _
  | document :: rest, s, values, good, hs, read => by
    obtain ⟨own, others⟩ := List.forall_mem_cons.mp good
    rw [convertItems] at read
    obtain ⟨first, hf, read⟩ := Result.bind_eq_ok.mp read
    obtain ⟨later, hl, read⟩ := Result.bind_eq_ok.mp read
    cases read
    exact List.forall_mem_cons.mpr ⟨h.convert definitions filled document s first own hs hf,
      h.items definitions filled rest s later others hs hl⟩

theorem entries (h : Hereditary types Good P F) (definitions : types.Everywhere P)
    (filled : Filled types Good P F fill) :
    ∀ (members : List (String × Json)) (s : Schema) (entries : List (String × Value)),
      (∀ member ∈ members, Good member.2) → s.Everywhere P →
        convertEntries types fill members s = .ok entries →
          entries.map (·.1) = members.map (·.1) ∧ ∀ entry ∈ entries, Holds types F s entry.2
  | [], s, entries, _, hs, read => by
    cases read
    exact ⟨rfl, List.forall_mem_nil _⟩
  | (key, document) :: rest, s, entries, good, hs, read => by
    obtain ⟨own, others⟩ := List.forall_mem_cons.mp good
    rw [convertEntries] at read
    obtain ⟨first, hf, read⟩ := Result.bind_eq_ok.mp read
    obtain ⟨later, hl, read⟩ := Result.bind_eq_ok.mp read
    cases read
    obtain ⟨keys, each⟩ := h.entries definitions filled rest s later others hs hl
    exact ⟨congrArg (key :: ·) keys, List.forall_mem_cons.mpr
      ⟨h.convert definitions filled document s first own hs hf, each⟩⟩

theorem named (h : Hereditary types Good P F) (definitions : types.Everywhere P)
    (filled : Filled types Good P F fill) :
    ∀ (members : List (String × Json)) (key : String) (s : Schema) (value : Value),
      (∀ member ∈ members, Good member.2) → s.Everywhere P →
        convertMember types fill key members s = some (.ok value) → Holds types F s value
  | [], key, s, value, _, hs, read => by cases read
  | (k, document) :: rest, key, s, value, good, hs, read => by
    obtain ⟨own, others⟩ := List.forall_mem_cons.mp good
    rw [convertMember] at read
    split at read
    · exact h.convert definitions filled document s value own hs (Option.some.inj read)
    · exact h.named definitions filled rest key s value others hs read

end

theorem ofJsonWithin (h : Hereditary types Good P F) (definitions : types.Everywhere P)
    (fills : Nat) : Filled types Good P F (Value.ofJsonWithin types fills) := by
  induction fills with
  | zero => exact h.convert definitions fun _ _ _ _ _ read => nomatch read
  | succ fills ih => exact h.convert definitions ih

end Hereditary

end

/-! ## Whole defaults -/

variable {types : Definitions}

theorem conforms_of_holds {s : Schema} {value : Value}
    (h : Holds types (fun base content => content.fits types base = true) s value) :
    value.conforms s types = true := by
  obtain ⟨unions, base, content, hb, rfl, fits⟩ := h
  exact Definitions.any_of_base hb (by rw [fits_wrap, fits])

theorem hereditary_fits : Hereditary types (fun _ => True) Schema.FieldsDistinct
    (fun base content => content.fits types base = true) where
  item _ _ _ := trivial
  member _ _ _ := trivial
  default _ _ _ := trivial
  plain _ read := ofPlain_fits read
  array each := by
    rw [fits, allConform_eq, List.all_eq_true]
    exact fun value mem => conforms_of_holds (each value mem)
  map _ _ each := by
    rw [fits, allEntriesConform_eq, List.all_eq_true]
    exact fun entry mem => conforms_of_holds (each entry mem)
  record distinct fieldwise :=
    record_fits (fieldwise.imp fun _ _ h => ⟨h.1, conforms_of_holds h.2⟩) distinct

theorem ofJson_conforms (definitions : types.Everywhere Schema.FieldsDistinct) {document : Json}
    {s : Schema} {value : Value} (hs : s.Everywhere Schema.FieldsDistinct)
    (h : ofJson document s types = .ok value) : value.conforms s types = true :=
  conforms_of_holds (hereditary_fits.ofJsonWithin definitions _ document s value trivial hs h)

/-! ## Defaults of arrays and maps -/

theorem ofJson_eq_convert (types : Definitions) (s : Schema) :
    ∃ fill, ∀ document, ofJson document s types = convert types fill document s := by
  unfold ofJson
  cases s.defaultCount + types.defaultCount with
  | zero => exact ⟨_, fun _ => rfl⟩
  | succ fills => exact ⟨_, fun _ => rfl⟩

theorem ofJson_plain {s : Schema} (plain : s.isPlain = true) (document : Json) :
    ofJson document s types = ofPlain document s := by
  obtain ⟨fill, same⟩ := ofJson_eq_convert types s
  have bare (read : Except DefaultError Value) : wrap 0 <$> read = read := by cases read <;> rfl
  suffices read : convert types fill document s = wrap 0 <$> ofPlain document s by
    rw [same, read, bare]
  rw [convert]
  cases s with
  | primitive | enumeration | fixed =>
    rw [types.base_plain rfl rfl]
    cases document <;> rfl
  | _ => cases plain

theorem ofJson_cases {document : Json} {s : Schema} {value : Value} (notUnion : s.isUnion = false)
    (notReference : s.isReference = false) (h : ofJson document s types = .ok value) :
    ∃ fill, Reads types fill document s value := by
  obtain ⟨fill, same⟩ := ofJson_eq_convert types s
  rw [same] at h
  obtain ⟨unions, base, content, hb, rfl, reads⟩ := convert_eq_ok.mp h
  rw [types.base_plain notUnion notReference] at hb
  cases hb
  exact ⟨fill, reads⟩

theorem ofJson_array {document : Json} {items : Schema} {value : Value}
    (h : ofJson document (.array items) types = .ok value) : ∃ values, value = .array values := by
  obtain ⟨fill, reads⟩ := ofJson_cases rfl rfl h
  cases reads with
  | plain other => cases other
  | array => exact ⟨_, rfl⟩

theorem ofJson_map {document : Json} {values : Schema} {value : Value}
    (h : ofJson document (.map values) types = .ok value) : ∃ entries, value = .map entries := by
  obtain ⟨fill, reads⟩ := ofJson_cases rfl rfl h
  cases reads with
  | plain other => cases other
  | map => exact ⟨_, rfl⟩

end Value

end SchemaBinding
