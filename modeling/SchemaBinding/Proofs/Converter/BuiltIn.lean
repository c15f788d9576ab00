import SchemaBinding.Converter.Basic
import SchemaBinding.Proofs.Value.Access

/-!
# The converters of the library

What each direction accepts, and what it makes of it, is one equation. The two laws between the
directions follow.
-/

namespace SchemaBinding

namespace Converter

variable {symbols : List String} {symbol : String} {place : Nat} {index : Int32}
  {value result : Value}

/-! ## Where a symbol is found -/

/-- The symbol stands at this place and at none before. -/
structure FirstAt (symbols : List String) (place : Nat) (symbol : String) : Prop where
  here : symbols[place]? = some symbol
  fresh : symbol ∉ symbols.take place

theorem findIdx?_eq_some :
    symbols.findIdx? (· == symbol) = some place ↔ FirstAt symbols place symbol := by
  rw [List.findIdx?_eq_some_iff_getElem]
  constructor
  · rintro ⟨bound, same, before⟩
    refine ⟨List.getElem?_eq_some_iff.mpr ⟨bound, beq_iff_eq.mp same⟩, fun mem => ?_⟩
    obtain ⟨earlier, low, rfl⟩ := List.mem_take_iff_getElem.mp mem
    exact before earlier (by omega) (beq_self_eq_true _)
  · rintro ⟨here, fresh⟩
    obtain ⟨bound, rfl⟩ := List.getElem?_eq_some_iff.mp here
    refine ⟨bound, beq_self_eq_true _, fun earlier low same => fresh ?_⟩
    rw [← beq_iff_eq.mp same]
    exact List.mem_take_iff_getElem.mpr ⟨earlier, by omega, rfl⟩

theorem FirstAt.exists_of_mem (mem : symbol ∈ symbols) :
    ∃ place < symbols.length, FirstAt symbols place symbol := by
  have found : (symbols.findIdx? (· == symbol)).isSome = true := by
    rwa [List.findIdx?_isSome, List.any_beq', List.contains_iff_mem]
  obtain ⟨place, found⟩ := Option.isSome_iff_exists.mp found
  have first := findIdx?_eq_some.mp found
  exact ⟨place, (List.getElem?_eq_some_iff.mp first.here).1, first⟩

theorem symbolIndex_eq_ok : symbolIndex symbols symbol = .ok index ↔
    ∃ place : Nat, index.toInt = place ∧ FirstAt symbols place symbol := by
  simp only [← findIdx?_eq_some]
  unfold symbolIndex
  cases symbols.findIdx? (· == symbol) with
  | none => simp
  | some first =>
    simp only [Option.some.injEq, exists_eq_right']
    split
    · next low =>
      rw [Except.ok.injEq, ← Int32.toInt_inj, Int32.toInt_ofNat_of_lt low, eq_comm]
    · next high =>
      have below := index.toInt_lt
      simp only [reduceCtorEq, false_iff]
      omega

theorem FirstAt.exists_index (first : FirstAt symbols place symbol) (low : place < 0x80000000) :
    ∃ index : Int32, index.toInt = place ∧ symbolIndex symbols symbol = .ok index := by
  have pointed : (Int32.ofNat place).toInt = place := Int32.toInt_ofNat_of_lt low
  exact ⟨_, pointed, symbolIndex_eq_ok.mpr ⟨place, pointed, first⟩⟩

/-! ## What each direction makes -/

theorem toSchema_enumeration {found : Int32} (lookedUp : symbolIndex symbols symbol = .ok found) :
    (enumSymbols symbols).toSchema (.enumeration index symbol) =
      if found = index then .ok (.string symbol) else .error (.symbolElsewhere symbol index) := by
  simp only [enumSymbols, lookedUp, bind, Except.bind]
  by_cases same : found = index
  · simp only [same, ne_eq, not_true_eq_false, if_false, if_true]
    rfl
  · simp only [same, ne_eq, not_false_eq_true, if_false, if_true]
    rfl

theorem enumSymbols_toSchema : (enumSymbols symbols).toSchema value = .ok result ↔
    ∃ index symbol, value = .enumeration index symbol ∧
      symbolIndex symbols symbol = .ok index ∧ .string symbol = result := by
  constructor
  · intro h
    cases value with
    | enumeration index symbol =>
      obtain ⟨found, lookedUp, -⟩ := Result.bind_eq_ok.mp h
      rw [toSchema_enumeration lookedUp] at h
      split at h
      · next same =>
        subst same
        exact ⟨_, _, rfl, lookedUp, Except.ok.inj h⟩
      · cases h
    | _ => cases h
  · rintro ⟨index, symbol, rfl, lookedUp, rfl⟩
    rw [toSchema_enumeration lookedUp, if_pos rfl]

theorem enumSymbols_fromSchema : (enumSymbols symbols).fromSchema value = .ok result ↔
    ∃ index symbol, value.unwrap = .string symbol ∧
      symbolIndex symbols symbol = .ok index ∧ .enumeration index symbol = result := by
  unfold enumSymbols
  dsimp only
  split
  · next symbol here =>
    rw [here, Result.bind_eq_ok]
    constructor
    · rintro ⟨index, lookedUp, h⟩
      exact ⟨index, symbol, rfl, lookedUp, Except.ok.inj h⟩
    · rintro ⟨index, _, ⟨⟩, lookedUp, rfl⟩
      exact ⟨index, lookedUp, rfl⟩
  · next other notString =>
    constructor
    · nofun
    · rintro ⟨_, symbol, here, -⟩
      exact absurd here (notString symbol)

theorem timestamp_toSchema : timestamp.toSchema value = .ok result ↔
    ∃ millis, value.field? millisName = some (.long millis) ∧ .long millis = result := by
  unfold timestamp
  dsimp only
  split
  · next millis here => simp [here]
  · next other notLong here =>
    simp only [here, Option.some.injEq, reduceCtorEq, false_iff]
    rintro ⟨millis, rfl, -⟩
    exact notLong millis rfl
  · next here => simp [here]

theorem timestamp_fromSchema : timestamp.fromSchema value = .ok result ↔
    ∃ millis, value.unwrap = .long millis ∧ .record [(millisName, .long millis)] = result := by
  unfold timestamp
  dsimp only
  rw [Result.bind_eq_ok]
  simp only [Value.read_eq_ok, pure, Except.pure, Except.ok.injEq]
  rfl

/-! ## Coming back from the schema -/

theorem enumSymbols_restored (h : (enumSymbols symbols).toSchema value = .ok result) :
    (enumSymbols symbols).fromSchema result = .ok value := by
  obtain ⟨index, symbol, rfl, lookedUp, rfl⟩ := enumSymbols_toSchema.mp h
  exact enumSymbols_fromSchema.mpr ⟨index, symbol, rfl, lookedUp, rfl⟩

theorem eq_singleton_iff {millis : Int64} (held : value.field? millisName = some (.long millis)) :
    value = .record [(millisName, .long millis)] ↔ ∃ member, value = .record [member] := by
  constructor
  · rintro rfl
    exact ⟨_, rfl⟩
  · rintro ⟨⟨name, content⟩, rfl⟩
    rw [Value.field?, List.lookup_cons] at held
    split at held
    · next same =>
      rw [beq_iff_eq.mp same, Option.some.inj held]
    · cases held

/--
What the converter for enumerations takes to the schema comes back unchanged, whatever the symbols.
The converter for points in time brings back the milliseconds that it took, and with them the whole
of a record that has no other member.
-/
theorem fromSchema_of_toSchema (value result : Value) :
    (∀ symbols, (enumSymbols symbols).toSchema value = .ok result →
      (enumSymbols symbols).fromSchema result = .ok value) ∧
    (timestamp.toSchema value = .ok result → ∃ millis,
      value.field? millisName = some (.long millis) ∧
      timestamp.fromSchema result = .ok (.record [(millisName, .long millis)]) ∧
      (timestamp.fromSchema result = .ok value ↔ ∃ member, value = .record [member])) := by
  refine ⟨fun symbols => enumSymbols_restored, fun h => ?_⟩
  obtain ⟨millis, held, rfl⟩ := timestamp_toSchema.mp h
  have back : timestamp.fromSchema (.long millis) = .ok (.record [(millisName, .long millis)]) :=
    timestamp_fromSchema.mpr ⟨millis, rfl, rfl⟩
  refine ⟨millis, held, back, ?_⟩
  rw [back, Except.ok.injEq, eq_comm]
  exact eq_singleton_iff held

theorem fromSchema_of_toSchema_repeated :
    (enumSymbols ["SPRING", "FALL", "SPRING"]).toSchema (.enumeration 1 "FALL") =
        .ok (.string "FALL") ∧
      (enumSymbols ["SPRING", "FALL", "SPRING"]).fromSchema (.string "FALL") =
        .ok (.enumeration 1 "FALL") ∧
      timestamp.toSchema (.record [(millisName, .long 5)]) = .ok (.long 5) ∧
      timestamp.fromSchema (.long 5) = .ok (.record [(millisName, .long 5)]) := by
  obtain ⟨millis, -, -, whole⟩ :=
    (fromSchema_of_toSchema (.record [(millisName, .long 5)]) (.long 5)).2 rfl
  exact ⟨rfl, (fromSchema_of_toSchema (.enumeration 1 "FALL") (.string "FALL")).1 _ rfl, rfl,
    whole.mpr ⟨_, rfl⟩⟩

def zoned : Value := .record [(millisName, .long 5), ("zone", .string "UTC")]

/-- The zone does not come back. -/
theorem fromSchema_of_toSchema_zoned :
    timestamp.toSchema zoned = .ok (.long 5) ∧ timestamp.fromSchema (.long 5) ≠ .ok zoned :=
  ⟨rfl, nofun⟩

/-! ## Coming back to the schema -/

theorem isOk_fromSchema (short : symbols.length < 0x80000000) :
    ((enumSymbols symbols).fromSchema value).isOk = true ↔
      ∃ symbol ∈ symbols, value.unwrap = .string symbol := by
  rw [Result.isOk_eq_true]
  constructor
  · rintro ⟨result, h⟩
    obtain ⟨index, symbol, here, lookedUp, -⟩ := enumSymbols_fromSchema.mp h
    obtain ⟨place, -, first⟩ := symbolIndex_eq_ok.mp lookedUp
    exact ⟨symbol, List.mem_of_getElem? first.here, here⟩
  · rintro ⟨symbol, mem, here⟩
    obtain ⟨place, bound, first⟩ := FirstAt.exists_of_mem mem
    obtain ⟨index, -, lookedUp⟩ := first.exists_index (by omega)
    exact ⟨_, enumSymbols_fromSchema.mpr ⟨index, symbol, here, lookedUp, rfl⟩⟩

/--
What a converter made of a value of the schema goes back to that value, without its union wrappers.
The converter for enumerations makes something of its symbols and of nothing else.
-/
theorem toSchema_of_fromSchema (value : Value) :
    (∀ symbols result, (enumSymbols symbols).fromSchema value = .ok result →
      (enumSymbols symbols).toSchema result = .ok value.unwrap) ∧
    (∀ symbols : List String, symbols.length < 0x80000000 →
      (((enumSymbols symbols).fromSchema value).isOk = true ↔
        ∃ symbol ∈ symbols, value.unwrap = .string symbol)) ∧
    ∀ result, timestamp.fromSchema value = .ok result →
      timestamp.toSchema result = .ok value.unwrap := by
  refine ⟨fun symbols result h => ?_, fun symbols => isOk_fromSchema, fun result h => ?_⟩
  · obtain ⟨index, symbol, here, lookedUp, rfl⟩ := enumSymbols_fromSchema.mp h
    rw [here]
    exact enumSymbols_toSchema.mpr ⟨index, symbol, rfl, lookedUp, rfl⟩
  · obtain ⟨millis, here, rfl⟩ := timestamp_fromSchema.mp h
    rw [here]
    exact timestamp_toSchema.mpr ⟨millis, rfl, rfl⟩

theorem toSchema_of_fromSchema_wrapped :
    (enumSymbols ["SPRING", "FALL", "SPRING"]).toSchema (.enumeration 0 "SPRING") =
        .ok (.string "SPRING") ∧
      ((enumSymbols ["SPRING", "FALL", "SPRING"]).fromSchema
        (.union 1 (.union 0 (.string "SPRING")))).isOk = true ∧
      timestamp.toSchema (.record [(millisName, .long 5)]) = .ok (.long 5) := by
  obtain ⟨restored, accepted, -⟩ :=
    toSchema_of_fromSchema (.union 1 (.union 0 (.string "SPRING")))
  exact ⟨restored _ _ rfl, (accepted _ (by decide)).mpr ⟨"SPRING", by decide, rfl⟩,
    (toSchema_of_fromSchema (.union 1 (.long 5))).2.2 _ rfl⟩

end Converter

end SchemaBinding
