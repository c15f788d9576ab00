import SchemaBinding.Proofs.Converter.BuiltIn
import SchemaBinding.Proofs.Parser.RoundTrip
import SchemaBinding.Proofs.Parser.Validity
import SchemaBinding.Proofs.Value.Default

/-!
# Symbols and their indices

The parser lets a symbol stand in a list twice. All others know its first place only.
-/

namespace SchemaBinding

open Converter (FirstAt findIdx?_eq_some symbolIndex_eq_ok toSchema_enumeration
  enumSymbols_toSchema enumSymbols_fromSchema)

variable {e : EnumSchema} {place : Nat} {index : Int32} {symbol : String}

/-! ## Symbols that can be used -/

namespace EnumSchema

/-- The symbol with this index becomes a string, and from a string or a default it comes back. -/
structure Usable (e : EnumSchema) (index : Int32) (symbol : String) : Prop where
  toSchema : (Converter.ofEnum e).toSchema (.enumeration index symbol) = .ok (.string symbol)
  fromSchema : (Converter.ofEnum e).fromSchema (.string symbol) = .ok (.enumeration index symbol)
  default : ∀ types, Value.ofJson (.str symbol) (.enumeration e) types =
    .ok (.enumeration index symbol)

theorem ofJson_of_ofSymbol {types : Definitions} {document : Json} {value : Value}
    (h : Value.ofSymbol e document = .ok value) :
    Value.ofJson document (.enumeration e) types = .ok value := by
  rw [Value.ofJson_plain rfl]
  exact h

theorem ofSymbol_of_firstAt (pointed : index.toInt = place)
    (first : FirstAt e.symbols place symbol) :
    Value.ofSymbol e (.str symbol) = .ok (.enumeration index symbol) := by
  have found : e.indexOf? symbol = some place := findIdx?_eq_some.mpr first
  have back : Int32.ofInt place = index := by rw [← pointed, Int32.ofInt_toInt]
  simp only [Value.ofSymbol, found, back]

theorem usable_of_firstAt (pointed : index.toInt = place) (first : FirstAt e.symbols place symbol) :
    e.Usable index symbol := by
  have found : Converter.symbolIndex e.symbols symbol = .ok index :=
    symbolIndex_eq_ok.mpr ⟨place, pointed, first⟩
  exact {
    toSchema := enumSymbols_toSchema.mpr ⟨index, symbol, rfl, found, rfl⟩
    fromSchema := enumSymbols_fromSchema.mpr ⟨index, symbol, rfl, found, rfl⟩
    default := fun _ => ofJson_of_ofSymbol (ofSymbol_of_firstAt pointed first) }

theorem usable_iff_fresh (pointed : index.toInt = place) (here : e.symbols[place]? = some symbol) :
    e.Usable index symbol ↔ symbol ∉ e.symbols.take place := by
  constructor
  · intro usable
    obtain ⟨_, _, ⟨⟩, found, -⟩ := enumSymbols_toSchema.mp usable.toSchema
    obtain ⟨first, at', isFirst⟩ := symbolIndex_eq_ok.mp found
    obtain rfl : first = place := by omega
    exact isFirst.fresh
  · exact fun fresh => usable_of_firstAt pointed ⟨here, fresh⟩

theorem usable_earlier (pointed : index.toInt = place) (repeated : symbol ∈ e.symbols.take place) :
    (Converter.ofEnum e).toSchema (.enumeration index symbol) =
        .error (.symbolElsewhere symbol index) ∧
      ∃ first < index, e.Usable first symbol := by
  obtain ⟨first, -, isFirst⟩ := FirstAt.exists_of_mem (List.mem_of_mem_take repeated)
  have earlier : first < place := by
    by_contra late
    exact isFirst.fresh (List.take_subset_take_left _ (by omega) repeated)
  have bounded := index.toInt_lt
  obtain ⟨index', pointed', found⟩ := isFirst.exists_index (by omega)
  have less : index' < index := by
    rw [Int32.lt_iff_toInt_lt]
    omega
  refine ⟨?_, index', less, usable_of_firstAt pointed' isFirst⟩
  rw [Converter.ofEnum, toSchema_enumeration found, if_neg (Int32.ne_of_lt less)]

/-! ## Symbols that a parser accepts -/

/-- Some strict parser gives out a schema with this enumeration in it. -/
def Parsed (e : EnumSchema) : Prop :=
  ∃ (p : Parser) (document : Json) (s : Schema),
    p.strict = true ∧ (p.parse document).1 = .ok s ∧ .enumeration e ∈ s.parts

theorem Parsed.wellFormed (parsed : e.Parsed) : e.WellFormed := by
  obtain ⟨p, document, s, strict, accepted, mem⟩ := parsed
  have given : Step.Gives (Parser.schema document) p s (p.parse document).2 := Prod.ext accepted rfl
  exact ((Parser.reads_of_schema document given).valid strict _ mem).2

theorem parsed_of_wellFormed (named : Definable none [] e.name e.space) (h : e.WellFormed) :
    e.Parsed := by
  obtain ⟨_, run, -⟩ := Parser.restores_schema (.enumeration e) { strict := true } [] ⟨named, h⟩
    .empty Definitions.lists_empty
  exact ⟨{ strict := true }, _, _, rfl, congrArg Prod.fst run, List.mem_singleton_self _⟩

theorem exists_parsed_iff {symbols : List String} :
    (∃ e : EnumSchema, e.Parsed ∧ e.symbols = symbols) ↔
      symbols ≠ [] ∧ ∀ symbol ∈ symbols, nameFault? symbol = none := by
  constructor
  · rintro ⟨e, parsed, rfl⟩
    exact ⟨parsed.wellFormed.nonempty, parsed.wellFormed.symbols⟩
  · rintro ⟨nonempty, names⟩
    have named : Definable none [] "Season" none := ⟨by decide, rfl, by decide⟩
    exact ⟨{ name := "Season", symbols }, parsed_of_wellFormed named ⟨nonempty, names, nofun⟩, rfl⟩

/--
A strict parser makes an enumeration of any names, even if some of them are the same. A symbol is
usable at its first place and nowhere else: at a later one the converter refuses it, and as a text
or a default it comes back with an earlier index.
-/
theorem usable_iff_first (symbols : List String) :
    ((∃ e : EnumSchema, e.Parsed ∧ e.symbols = symbols) ↔
      symbols ≠ [] ∧ ∀ symbol ∈ symbols, nameFault? symbol = none) ∧
    ∀ (e : EnumSchema) (place : Nat) (index : Int32) (symbol : String),
      e.symbols = symbols → symbols[place]? = some symbol → index.toInt = place →
        (e.Usable index symbol ↔ symbol ∉ symbols.take place) ∧
        (symbol ∈ symbols.take place →
          (Converter.ofEnum e).toSchema (.enumeration index symbol) =
              .error (.symbolElsewhere symbol index) ∧
            ∃ first < index, e.Usable first symbol) := by
  refine ⟨exists_parsed_iff, ?_⟩
  rintro e place index symbol rfl here pointed
  exact ⟨usable_iff_fresh pointed here, usable_earlier pointed⟩

def seasons : EnumSchema := { name := "Season", symbols := ["SPRING", "FALL", "SPRING"] }

theorem usable_iff_first_seasons :
    (∃ e : EnumSchema, e.Parsed ∧ e.symbols = seasons.symbols) ∧
    seasons.Usable 1 "FALL" ∧ ∃ first < (2 : Int32), seasons.Usable first "SPRING" := by
  obtain ⟨parsed, places⟩ := usable_iff_first seasons.symbols
  have fall := (places seasons 1 1 "FALL" rfl rfl rfl).1
  have again := (places seasons 2 2 "SPRING" rfl rfl rfl).2
  exact ⟨parsed.mpr ⟨by decide, by decide⟩, fall.mpr (by decide), (again (by decide)).2⟩

/-- The third symbol is accepted by the parser and refused by the converter. -/
theorem repeated_symbol_seasons :
    (({ strict := true } : Parser).parse seasons.toJson).1 = .ok (.enumeration seasons) ∧
    seasons.symbols[2]? = some "SPRING" ∧ ¬ seasons.Usable 2 "SPRING" ∧
    (Converter.ofEnum seasons).toSchema (.enumeration 2 "SPRING") =
      .error (.symbolElsewhere "SPRING" 2) ∧
    (Converter.ofEnum seasons).fromSchema (.string "SPRING") = .ok (.enumeration 0 "SPRING") ∧
    Value.ofJson (.str "SPRING") (.enumeration seasons) .empty = .ok (.enumeration 0 "SPRING") :=
  ⟨rfl, rfl, fun usable => (nomatch usable.toSchema), rfl, rfl, rfl⟩

end EnumSchema

end SchemaBinding
