import SchemaBinding.Proofs.Value.Termination

/-!
# Indices

The check looks at no index of a branch or a symbol: it finds a branch and a place itself.
-/

namespace SchemaBinding

namespace Definitions

def Resolved (types : Definitions) : Schema → Prop
  | .reference name _ => (types.resolve? name).isSome = true
  | _ => True

instance (types : Definitions) : DecidablePred types.Resolved := fun s =>
  match s with
  | .reference name _ => inferInstanceAs (Decidable ((types.resolve? name).isSome = true))
  | .primitive _ | .record .. | .enumeration _ | .array _ | .map _ | .union _ | .fixed _ =>
    isTrue trivial

def CompleteFor (types : Definitions) (s : Schema) : Prop :=
  s.Everywhere types.Resolved ∧ types.Everywhere types.Resolved

end Definitions

namespace Value

variable {types : Definitions} {points : Int32 → Nat → Prop} {v : Value} {s : Schema}

/-! ## A check with its indices -/

/--
What a successful check has found out, down to all parts of the value. Wherever an index stands
for the place of a branch or of a symbol, `points` holds of the two.
-/
inductive Checked (types : Definitions) (points : Int32 → Nat → Prop) : Value → Schema → Prop
  | unknown {v : Value} {name : String} {kind : Kind} (absent : types.resolve? name = none) :
      Checked types points v (.reference name kind)
  | definition {v : Value} {name : String} {kind : Kind} {definition : Schema}
      (found : types.resolve? name = some definition) (h : Checked types points v definition) :
      Checked types points v (.reference name kind)
  | chosen {index : Int32} {content : Value} {branches : List Schema} {place : Nat}
      {branch : Schema} (here : branches[place]? = some branch) (pointed : points index place)
      (h : Checked types points content branch) :
      Checked types points (.union index content) (.union branches)
  | bare {v : Value} {branches : List Schema} {branch : Schema}
      (bare : ∀ index content, v ≠ .union index content) (mem : branch ∈ branches)
      (h : Checked types points v branch) : Checked types points v (.union branches)
  | content {index : Int32} {content : Value} {s : Schema} (notUnion : s.isUnion = false)
      (notReference : s.isReference = false) (h : Checked types points content s) :
      Checked types points (.union index content) s
  | primitive {v : Value} {p : Primitive} (same : v.kind = .primitive p) :
      Checked types points v (.primitive p)
  | fixed {data : List UInt8} {f : FixedSchema} (size : data.length = f.size.toNat) :
      Checked types points (.fixed data) (.fixed f)
  | symbol {index : Int32} {symbol : String} {e : EnumSchema} {place : Nat}
      (here : e.symbols[place]? = some symbol) (pointed : points index place) :
      Checked types points (.enumeration index symbol) (.enumeration e)
  | items {items : List Value} {s : Schema} (each : ∀ item ∈ items, Checked types points item s) :
      Checked types points (.array items) (.array s)
  | entries {entries : List (String × Value)} {s : Schema}
      (each : ∀ entry ∈ entries, Checked types points entry.2 s) :
      Checked types points (.map entries) (.map s)
  | fields {fields : List (String × Value)} {role : RecordRole} {body : RecordSchema}
      (given : ∀ field ∈ body.fields, ∀ value,
        (record fields).field? field.name.text = some value → Checked types points value field.type)
      (left : ∀ field ∈ body.fields, (record fields).field? field.name.text = none →
        field.hasDefault = true) :
      Checked types points (.record fields) (.record role body)

def PointsTo (index : Int32) (place : Nat) : Prop := index.toInt = place

def Anywhere (_ : Int32) (_ : Nat) : Prop := True

theorem checked_union {index : Int32} {content : Value} {branches : List Schema} :
    Checked types points (.union index content) (.union branches) ↔
      ∃ place branch, branches[place]? = some branch ∧ points index place ∧
        Checked types points content branch := by
  constructor
  · intro h
    cases h with
    | chosen here pointed h => exact ⟨_, _, here, pointed, h⟩
    | bare bare => exact absurd rfl (bare index content)
    | content notUnion => cases notUnion
  · rintro ⟨place, branch, here, pointed, h⟩
    exact .chosen here pointed h

theorem checked_symbol {index : Int32} {symbol : String} {e : EnumSchema} :
    Checked types points (.enumeration index symbol) (.enumeration e) ↔
      ∃ place, e.symbols[place]? = some symbol ∧ points index place := by
  constructor
  · intro h
    cases h with
    | symbol here pointed => exact ⟨_, here, pointed⟩
  · rintro ⟨place, here, pointed⟩
    exact .symbol here pointed

/-! ## What is checked conforms -/

theorem isSome_indexOf? {e : EnumSchema} {symbol : String} :
    (e.indexOf? symbol).isSome = true ↔ symbol ∈ e.symbols := by
  rw [EnumSchema.indexOf?, List.findIdx?_isSome, List.any_beq', List.contains_iff_mem]

theorem Checked.conforms (unionFree : types.UnionFree) (h : Checked types points v s) :
    v.conforms s types = true := by
  induction h with
  | unknown absent => exact conforms_absent absent
  | definition found _ ih => rwa [conforms_named unionFree found]
  | chosen here _ _ ih =>
    rw [conforms_wrapped, conforms_union, List.any_eq_true]
    exact ⟨_, List.mem_of_getElem? here, ih⟩
  | bare _ mem _ ih =>
    rw [conforms_union, List.any_eq_true]
    exact ⟨_, mem, ih⟩
  | content _ _ _ ih => rwa [conforms_wrapped]
  | @primitive v p same =>
    have bare : ∀ index content, v ≠ union index content := by
      rintro index content rfl
      cases same
    rw [conforms_plain rfl rfl, fits_primitive, unwrap_of_bare bare, same, beq_self_eq_true]
  | fixed size => rwa [conforms_plain rfl rfl, fits, beq_iff_eq]
  | symbol here _ =>
    rw [conforms_plain rfl rfl, fits, isSome_indexOf?]
    exact List.mem_of_getElem? here
  | items _ ih =>
    rw [conforms_items, List.all_eq_true]
    exact ih
  | entries _ ih =>
    rw [conforms_entries, List.all_eq_true]
    exact ih
  | fields _ left ih =>
    rw [conforms_members, List.all_eq_true]
    intro field mem
    split
    · next value found => exact ih field mem value found
    · next absent => exact left field mem absent

/-! ## What conforms is checked -/

theorem Checked.of_conforms (unionFree : types.UnionFree) (h : v.conforms s types = true) :
    Checked types Anywhere v s := by
  induction v, s using question_induction unionFree with
  | step v s ih =>
    -- The cases are the rules of the answer, and each asks what one constructor is made from.
    rw [conforms_eq_answer unionFree] at h
    revert ih h
    fun_cases answer types (fun w t => w.conforms t types) v s
    all_goals intro ih h
    case case1 found => exact .definition found (ih _ _ (.definition found) h)
    case case2 absent => exact .unknown absent
    case case3 index content branches =>
      obtain ⟨branch, mem, passed⟩ := List.any_eq_true.mp h
      obtain ⟨place, here⟩ := List.getElem?_of_mem mem
      exact .chosen here trivial (ih _ _ (.contentBranch mem) passed)
    case case4 branches bare =>
      obtain ⟨branch, mem, passed⟩ := List.any_eq_true.mp h
      exact .bare bare mem (ih _ _ (.branch bare mem) passed)
    case case5 index content notReference notUnion =>
      have checked := ih _ _ (.content notReference notUnion) h
      cases s with
      | reference => exact (notReference _ _ rfl).elim
      | union => exact (notUnion _ rfl).elim
      | _ => exact .content rfl rfl checked
    case case6 => exact .primitive (beq_iff_eq.mp h)
    case case7 => exact .fixed (beq_iff_eq.mp h)
    case case8 =>
      obtain ⟨place, here⟩ := List.getElem?_of_mem (isSome_indexOf?.mp h)
      exact .symbol here trivial
    case case9 items s =>
      rw [List.all_eq_true] at h
      exact .items fun item mem => ih _ _ (.item mem) (h item mem)
    case case10 entries s =>
      rw [List.all_eq_true] at h
      exact .entries fun entry mem => ih _ _ (.entry mem) (h entry mem)
    case case11 fields role body =>
      rw [List.all_eq_true] at h
      refine .fields (fun field mem value found => ?_) (fun field mem absent => ?_)
      · have conforms := h field mem
        rw [found] at conforms
        exact ih _ _ (.member mem found) conforms
      · have default := h field mem
        rwa [absent] at default
    case case12 => cases h

/-! ## Values that differ in indices -/

mutual

/-- Puts zero in the place of every index. -/
def eraseIndices : Value → Value
  | .union _ content => .union 0 content.eraseIndices
  | .enumeration _ symbol => .enumeration 0 symbol
  | .array items => .array (eraseIndicesItems items)
  | .map entries => .map (eraseIndicesEntries entries)
  | .record fields => .record (eraseIndicesEntries fields)
  | value => value

def eraseIndicesItems : List Value → List Value
  | [] => []
  | item :: items => item.eraseIndices :: eraseIndicesItems items

def eraseIndicesEntries : List (String × Value) → List (String × Value)
  | [] => []
  | (name, value) :: entries => (name, value.eraseIndices) :: eraseIndicesEntries entries

end

mutual

theorem fits_eraseIndices : ∀ v : Value, v.eraseIndices.fits types = v.fits types
  | .union index content => funext fun s => by
    rw [eraseIndices, fits, fits, fits_eraseIndices content]
  | .enumeration index symbol => funext fun s => by cases s <;> rfl
  | .array items => funext fun s => by
    cases s with
    | array s => exact allConform_eraseIndices items s
    | _ => rfl
  | .map entries => funext fun s => by
    cases s with
    | map s => exact allEntriesConform_eraseIndices entries s
    | _ => rfl
  | .record fields => funext fun s => by
    cases s with
    | record role body =>
      rw [eraseIndices, fits, fits]
      simp only [memberConforms?_eraseIndices fields]
    | _ => rfl
  | .null | .boolean _ | .int _ | .long _ | .float _ | .double _ | .bytes _ | .string _
  | .fixed _ => rfl

theorem allConform_eraseIndices : ∀ (items : List Value) (s : Schema),
    allConform types (eraseIndicesItems items) s = allConform types items s
  | [], _ => rfl
  | item :: items, s => by
    rw [eraseIndicesItems, allConform, allConform, fits_eraseIndices item,
      allConform_eraseIndices items]

theorem allEntriesConform_eraseIndices : ∀ (entries : List (String × Value)) (s : Schema),
    allEntriesConform types (eraseIndicesEntries entries) s = allEntriesConform types entries s
  | [], _ => rfl
  | (name, value) :: entries, s => by
    rw [eraseIndicesEntries, allEntriesConform, allEntriesConform, fits_eraseIndices value,
      allEntriesConform_eraseIndices entries]

theorem memberConforms?_eraseIndices : ∀ (fields : List (String × Value)) (name : String)
    (s : Schema), memberConforms? types name (eraseIndicesEntries fields) s =
      memberConforms? types name fields s
  | [], _, _ => rfl
  | (n, value) :: fields, name, s => by
    rw [eraseIndicesEntries, memberConforms?, memberConforms?, fits_eraseIndices value,
      memberConforms?_eraseIndices fields]

end

theorem conforms_eraseIndices (v : Value) (s : Schema) :
    v.eraseIndices.conforms s types = v.conforms s types := by
  rw [conforms, conforms, fits_eraseIndices]

/-! ## What indices count for -/

/--
Where no name stands for a union, a value conforms just when a check succeeds that ignores all
indices: a wrapped content belongs to some branch, and a symbol stands at some place. So right
indices are as good as any others, and values that differ in nothing but indices conform to the
same schemas.
-/
theorem conforms_iff_checked (types : Definitions) (unionFree : types.UnionFree) (v : Value)
    (s : Schema) :
    (v.conforms s types = true ↔ Checked types Anywhere v s) ∧
    (Checked types PointsTo v s → v.conforms s types = true) ∧
    ∀ w : Value, w.eraseIndices = v.eraseIndices → w.conforms s types = v.conforms s types := by
  refine ⟨⟨Checked.of_conforms unionFree, Checked.conforms unionFree⟩,
    Checked.conforms unionFree, fun w same => ?_⟩
  rw [← conforms_eraseIndices w, same, conforms_eraseIndices]

namespace Bloom

def time : Schema := .union [.primitive .null, .reference "Season" .enumeration]

def table : Definitions :=
  ⟨[("Season", .enumeration { name := "Season", symbols := ["SPRING", "FALL"] })]⟩

theorem table_unionFree : table.UnionFree := Definitions.unionFree_of_entries (by decide)

def fall (branch place : Int32) : Value := .union branch (.enumeration place "FALL")

theorem complete : table.CompleteFor time :=
  ⟨by decide, Definitions.everywhere_of_entries (by decide)⟩

theorem pointed : Checked table PointsTo (fall 1 1) time :=
  .chosen rfl rfl (.definition rfl (.symbol rfl rfl))

end Bloom

theorem conforms_iff_checked_bloom :
    (Bloom.fall 1 1).conforms Bloom.time Bloom.table = true ∧
    (Bloom.fall 0 (-1)).conforms Bloom.time Bloom.table = true := by
  obtain ⟨-, right, others⟩ :=
    conforms_iff_checked Bloom.table Bloom.table_unionFree (Bloom.fall 1 1) Bloom.time
  exact ⟨right Bloom.pointed, (others (Bloom.fall 0 (-1)) rfl).trans (right Bloom.pointed)⟩

/--
All definitions are there, and yet a branch that does not exist, another branch and a place before
the first symbol are let pass.
-/
theorem conforms_astray_bloom :
    Bloom.table.CompleteFor Bloom.time ∧
    ((Bloom.fall 7 1).conforms Bloom.time Bloom.table = true ∧
      ¬ Checked Bloom.table PointsTo (Bloom.fall 7 1) Bloom.time) ∧
    ((Bloom.fall 0 1).conforms Bloom.time Bloom.table = true ∧
      ¬ Checked Bloom.table PointsTo (Bloom.fall 0 1) Bloom.time) ∧
    ((Bloom.fall 1 (-1)).conforms Bloom.time Bloom.table = true ∧
      ¬ Checked Bloom.table PointsTo (Bloom.fall 1 (-1)) Bloom.time) := by
  have noBranch : ¬ Checked Bloom.table PointsTo (Bloom.fall 7 1) Bloom.time := by
    intro checked
    obtain ⟨place, _, here, pointed, -⟩ := checked_union.mp checked
    obtain rfl : place = 7 := Int.ofNat.inj pointed.symm
    cases here
  have otherBranch : ¬ Checked Bloom.table PointsTo (Bloom.fall 0 1) Bloom.time := by
    intro checked
    obtain ⟨place, _, here, pointed, h⟩ := checked_union.mp checked
    obtain rfl : place = 0 := Int.ofNat.inj pointed.symm
    cases here
    cases h.conforms Bloom.table_unionFree
  have noSymbol : ¬ Checked Bloom.table PointsTo (Bloom.fall 1 (-1)) Bloom.time := by
    intro checked
    obtain ⟨place, _, here, pointed, h⟩ := checked_union.mp checked
    obtain rfl : place = 1 := Int.ofNat.inj pointed.symm
    cases here
    cases h with
    | unknown absent => cases absent
    | definition found h =>
      cases found
      obtain ⟨place, -, pointed⟩ := checked_symbol.mp h
      cases pointed
  exact ⟨Bloom.complete, ⟨rfl, noBranch⟩, ⟨rfl, otherBranch⟩, ⟨rfl, noSymbol⟩⟩

end Value

end SchemaBinding
