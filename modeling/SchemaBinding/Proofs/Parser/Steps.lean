import SchemaBinding.Proofs.Parser.Checks

/-!
# The steps of the parser

When a step succeeds, and with what result.
-/

namespace SchemaBinding.Parser

open Step

variable {p q : Parser} {s : Schema} {members : Json.Members}

/-! ## Defining and placing -/

theorem gives_define {fullname : String} {schema : Schema} :
    Gives (do define fullname schema; return schema) p s q ↔
      schema = s ∧ { p with types := p.types.insert fullname schema } = q := by
  unfold define
  rw [gives_bind]
  constructor
  · rintro ⟨_, r, defined, h⟩
    obtain rfl := gives_modify.mp defined
    exact gives_pure.mp h
  · rintro ⟨rfl, rfl⟩
    exact ⟨(), _, gives_modify.mpr rfl, gives_pure.mpr ⟨rfl, rfl⟩⟩

theorem gives_inSpace {α : Type} {space : Option String} {step : ParserM α} {a : α} :
    Gives (inSpace space step) p a q ↔
      ∃ r, Gives step { p with space } a r ∧ { r with space := p.space } = q := by
  change ((step.run.run { p with space }).1,
    { (step.run.run { p with space }).2 with space := p.space }) = _ ↔ _
  unfold Gives
  constructor
  · intro h
    obtain ⟨given, rfl⟩ := Prod.mk.inj h
    exact ⟨_, Prod.ext given rfl, rfl⟩
  · rintro ⟨r, ran, rfl⟩
    rw [ran]

/-! ## Definitions -/

theorem gives_definitionName {kind : Kind} {names : DefinitionName} :
    Gives (definitionName kind members) p names q ↔
      ∃ text, Json.text? "name" members = some text ∧
        DefinitionName.ofText p.space (Json.text? "namespace" members) text = names ∧
        Gives (heed (checkFullname names.fullname)) p () q ∧
        q.types.resolve? names.fullname = none := by
  unfold definitionName
  cases Json.text? "name" members with
  | none => simp [not_gives_throw]
  | some text =>
    dsimp only
    rw [gives_get_bind, gives_bind]
    constructor
    · rintro ⟨_, r, checked, h⟩
      rw [gives_get_bind] at h
      split at h
      · exact (not_gives_throw_bind h).elim
      · next free =>
        obtain ⟨rfl, rfl⟩ := gives_pure.mp h
        exact ⟨text, rfl, rfl, checked, by simpa using free⟩
    · rintro ⟨_, ⟨⟩, rfl, checked, free⟩
      refine ⟨(), q, checked, ?_⟩
      rw [gives_get_bind, if_neg (by simp [free])]
      exact gives_pure.mpr ⟨rfl, rfl⟩

theorem gives_enumeration : Gives (enumeration members) p s q ↔
    ∃ names p₁ items symbols p₂, Gives (definitionName .enumeration members) p names p₁ ∧
      members.lookup "symbols" = some (.arr items) ∧ Parser.symbols items = .ok symbols ∧
      symbols ≠ [] ∧ Gives (symbols.forM fun symbol => heed (checkName symbol)) p₁ () p₂ ∧
      (∀ symbol, Json.text? "default" members = some symbol → symbol ∈ symbols) ∧
      Schema.enumeration
        { name := names.name, space := names.space, symbols, doc := Json.text? "doc" members
          default := Json.text? "default" members } = s ∧
      { p₂ with types := p₂.types.insert names.fullname s } = q := by
  unfold enumeration
  rw [gives_bind]
  constructor
  · rintro ⟨names, p₁, named, h⟩
    split at h
    · next items listed =>
      obtain ⟨symbols, _, lifted, h⟩ := gives_bind.mp h
      obtain ⟨read, rfl⟩ := gives_lift.mp lifted
      by_cases empty : symbols.isEmpty = true
      · rw [if_pos empty] at h
        exact (not_gives_throw_bind h).elim
      · rw [if_neg empty] at h
        obtain ⟨_, p₂, checked, h⟩ := gives_bind.mp h
        have nonempty : symbols ≠ [] := by simpa using empty
        refine ⟨names, p₁, items, symbols, p₂, named, listed, read, nonempty, checked, ?_⟩
        dsimp only at h
        split at h
        · next symbol chosen =>
          split at h
          · next mem =>
            obtain ⟨rfl, rfl⟩ := gives_define.mp h
            refine ⟨fun other same => ?_, rfl, rfl⟩
            obtain rfl := Option.some.inj (chosen.symm.trans same)
            exact List.contains_iff_mem.mp mem
          · exact (not_gives_throw_bind h).elim
        · next unchosen =>
          obtain ⟨rfl, rfl⟩ := gives_define.mp h
          exact ⟨fun other same => (unchosen other same).elim, rfl, rfl⟩
    · exact (not_gives_throw h).elim
  · rintro ⟨names, p₁, items, symbols, p₂, named, listed, read, nonempty, checked, default, rfl,
      rfl⟩
    refine ⟨names, p₁, named, ?_⟩
    rw [listed]
    refine gives_bind.mpr ⟨symbols, p₁, gives_lift.mpr ⟨read, rfl⟩, ?_⟩
    rw [if_neg (by simpa using nonempty)]
    refine gives_bind.mpr ⟨(), p₂, checked, ?_⟩
    dsimp only
    split
    · next symbol chosen =>
      rw [if_pos (List.contains_iff_mem.mpr (default symbol chosen))]
      exact gives_define.mpr ⟨rfl, rfl⟩
    · exact gives_define.mpr ⟨rfl, rfl⟩

theorem gives_fixed : Gives (fixed members) p s q ↔
    ∃ names p₁ size, Gives (definitionName .fixed members) p names p₁ ∧
      size? members = some size ∧
      Schema.fixed { name := names.name, space := names.space, size } = s ∧
      { p₁ with types := p₁.types.insert names.fullname s } = q := by
  unfold fixed
  rw [gives_bind]
  constructor
  · rintro ⟨names, p₁, named, h⟩
    split at h
    · next size sized =>
      obtain ⟨rfl, rfl⟩ := gives_define.mp h
      exact ⟨names, p₁, size, named, sized, rfl, rfl⟩
    · exact (not_gives_throw h).elim
  · rintro ⟨names, p₁, size, named, sized, rfl, rfl⟩
    refine ⟨names, p₁, named, ?_⟩
    rw [sized]
    exact gives_define.mpr ⟨rfl, rfl⟩

theorem gives_record {role : RecordRole} {step : ParserM (List Field)} :
    Gives (do
      let names ← beginRecord role members
      let fields ← inSpace names.space step
      endRecord role names members fields) p s q ↔
    ∃ names p₁ fields p₂, Gives (definitionName role.kind members) p names p₁ ∧
      Gives step
        { p₁ with
          types := p₁.types.insert names.fullname (.reference names.fullname role.kind)
          space := names.space } fields p₂ ∧
      (fields.map (·.name.text)).Nodup ∧
      Schema.record role
        { name := names.name, space := names.space, fields, doc := Json.text? "doc" members
          aliases := Json.texts "aliases" members } = s ∧
      { p₂ with types := p₂.types.insert names.fullname s, space := p₁.space } = q := by
  constructor
  · intro h
    obtain ⟨names, _, begun, h⟩ := gives_bind.mp h
    obtain ⟨fields, _, placed, h⟩ := gives_bind.mp h
    obtain ⟨_, p₁, named, begun⟩ := gives_bind.mp begun
    obtain ⟨_, _, defined, begun⟩ := gives_bind.mp begun
    obtain rfl := gives_modify.mp defined
    obtain ⟨rfl, rfl⟩ := gives_pure.mp begun
    obtain ⟨p₂, inside, rfl⟩ := gives_inSpace.mp placed
    unfold endRecord at h
    dsimp only at h
    split at h
    · exact (not_gives_throw_bind h).elim
    · next distinct =>
      obtain ⟨rfl, rfl⟩ := gives_define.mp h
      have none := firstRepeated?_eq_none.mp (Option.eq_none_iff_forall_ne_some.mpr distinct)
      exact ⟨_, p₁, fields, p₂, named, inside, none.1, rfl, rfl⟩
  · rintro ⟨names, p₁, fields, p₂, named, inside, distinct, rfl, rfl⟩
    have begun : Gives (beginRecord role members) p names
        { p₁ with types := p₁.types.insert names.fullname (.reference names.fullname role.kind) } :=
      gives_bind.mpr ⟨names, p₁, named,
        gives_bind.mpr ⟨(), _, gives_modify.mpr rfl, gives_pure.mpr ⟨rfl, rfl⟩⟩⟩
    refine gives_bind.mpr ⟨names, _, begun, ?_⟩
    refine gives_bind.mpr ⟨fields, _, gives_inSpace.mpr ⟨p₂, inside, rfl⟩, ?_⟩
    unfold endRecord
    rw [firstRepeated?_eq_none.mpr ⟨distinct, fun _ _ => List.not_mem_nil⟩]
    exact gives_define.mpr ⟨rfl, rfl⟩

/-! ## Fields and branches -/

theorem gives_field {f : Field} : Gives (field (.obj members)) p f q ↔
    ∃ name type order, Json.text? "name" members = some name ∧
      Gives (schemaAt "type" (.fieldWithoutType name) members) p type q ∧
      orderText members = .ok order ∧
      Field.ofParts name type type.isReference (members.lookup "default") order = .ok f := by
  unfold field
  cases Json.text? "name" members with
  | none => simp [not_gives_throw]
  | some name =>
    dsimp only
    constructor
    · intro h
      obtain ⟨type, _, read, h⟩ := gives_bind.mp h
      obtain ⟨order, _, lifted, h⟩ := gives_bind.mp h
      obtain ⟨ordered, rfl⟩ := gives_lift.mp lifted
      obtain ⟨parts, rfl⟩ := gives_lift.mp h
      exact ⟨name, type, order, rfl, read, ordered, parts⟩
    · rintro ⟨_, type, order, ⟨⟩, read, ordered, parts⟩
      refine gives_bind.mpr ⟨type, q, read, gives_bind.mpr ⟨order, q, ?_, ?_⟩⟩
      · exact gives_lift.mpr ⟨ordered, rfl⟩
      · exact gives_lift.mpr ⟨parts, rfl⟩

theorem gives_fields_cons {item : Json} {items : List Json} {fs : List Field} :
    Gives (fields (item :: items)) p fs q ↔
      ∃ f others r, Gives (field item) p f r ∧ Gives (fields items) r others q ∧
        f :: others = fs := by
  rw [fields, gives_bind]
  constructor
  · rintro ⟨f, r, first, h⟩
    obtain ⟨others, _, rest, h⟩ := gives_bind.mp h
    obtain ⟨rfl, rfl⟩ := gives_pure.mp h
    exact ⟨f, others, r, first, rest, rfl⟩
  · rintro ⟨f, others, r, first, rest, rfl⟩
    exact ⟨f, r, first, gives_bind.mpr ⟨others, q, rest, gives_pure.mpr ⟨rfl, rfl⟩⟩⟩

theorem gives_schemas_cons {item : Json} {items : List Json} {branches : List Schema} :
    Gives (schemas (item :: items)) p branches q ↔
      ∃ branch others r, Gives (schema item) p branch r ∧ Gives (schemas items) r others q ∧
        branch :: others = branches := by
  rw [schemas, gives_bind]
  constructor
  · rintro ⟨branch, r, first, h⟩
    obtain ⟨others, _, rest, h⟩ := gives_bind.mp h
    obtain ⟨rfl, rfl⟩ := gives_pure.mp h
    exact ⟨branch, others, r, first, rest, rfl⟩
  · rintro ⟨branch, others, r, first, rest, rfl⟩
    exact ⟨branch, r, first, gives_bind.mpr ⟨others, q, rest, gives_pure.mpr ⟨rfl, rfl⟩⟩⟩

theorem gives_union {items : List Json} : Gives (schema (.arr items)) p s q ↔
    ∃ branches p₁, items ≠ [] ∧ Gives (schemas items) p branches p₁ ∧
      Gives (checkBranches 0 [] branches) p₁ () q ∧ Schema.union branches = s := by
  rw [schema]
  by_cases empty : items.isEmpty = true
  · rw [if_pos empty]
    refine ⟨fun h => (not_gives_throw_bind h).elim, ?_⟩
    rintro ⟨_, _, nonempty, -⟩
    exact absurd (List.isEmpty_iff.mp empty) nonempty
  · rw [if_neg empty, gives_bind]
    constructor
    · rintro ⟨branches, p₁, read, h⟩
      obtain ⟨_, _, checked, h⟩ := gives_bind.mp h
      obtain ⟨rfl, rfl⟩ := gives_pure.mp h
      exact ⟨branches, p₁, by simpa using empty, read, checked, rfl⟩
    · rintro ⟨branches, p₁, -, read, checked, rfl⟩
      exact ⟨branches, p₁, read,
        gives_bind.mpr ⟨(), q, checked, gives_pure.mpr ⟨rfl, rfl⟩⟩⟩

end SchemaBinding.Parser
