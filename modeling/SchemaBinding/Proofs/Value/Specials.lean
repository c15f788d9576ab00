import SchemaBinding.Proofs.Decimal.Narrowing
import SchemaBinding.Proofs.Outcome
import SchemaBinding.Value.Printer

/-!
# Numbers without a JSON form

A value has no JSON form just when it has a number that is NaN or infinite.
-/

namespace SchemaBinding.Value

/-! ## Finding them -/

mutual

/-- The singles and doubles in a value that are NaN or infinite, from left to right. -/
def specials : Value → List Float
  | .float x => if x.isNaN || x.isInf then [Binary.widen x] else []
  | .double x => if x.isNaN || x.isInf then [x] else []
  | .record fields => specialsOfEntries fields
  | .array items => specialsOfItems items
  | .map entries => specialsOfEntries entries
  | .union _ content => content.specials
  | _ => []

def specialsOfItems : List Value → List Float
  | [] => []
  | item :: items => item.specials ++ specialsOfItems items

def specialsOfEntries : List (String × Value) → List Float
  | [] => []
  | (_, value) :: entries => value.specials ++ specialsOfEntries entries

end

theorem specials_array (items : List Value) :
    (array items).specials = items.flatMap specials := by
  rw [specials]
  induction items with
  | nil => rfl
  | cons item items ih => rw [specialsOfItems, ih, List.flatMap_cons]

theorem specialsOfEntries_eq (entries : List (String × Value)) :
    specialsOfEntries entries = entries.flatMap fun entry => entry.2.specials := by
  induction entries with
  | nil => rfl
  | cons entry entries ih => rw [specialsOfEntries, ih, List.flatMap_cons]

theorem specials_record (fields : List (String × Value)) :
    (record fields).specials = fields.flatMap fun field => field.2.specials := by
  rw [specials, specialsOfEntries_eq]

theorem specials_map (entries : List (String × Value)) :
    (map entries).specials = entries.flatMap fun entry => entry.2.specials := by
  rw [specials, specialsOfEntries_eq]

/-! ## The first one -/

/-- The first of the numbers found is the error; without any there is none. -/
def FailsAt {α : Type} (result : Except ValueError α) (found : List Float) : Prop :=
  ∀ e, result = .error e ↔ ∃ x others, found = x :: others ∧ e = .notFinite x

section

variable {α β : Type} {result : Except ValueError α} {found later : List Float}

theorem failsAt_ok (a : α) : FailsAt (.ok a) [] := by
  intro e
  constructor
  · intro failed
    cases failed
  · rintro ⟨_, _, ⟨⟩, _⟩

theorem FailsAt.ok_iff (h : FailsAt result found) : (∃ a, result = .ok a) ↔ found = [] := by
  constructor
  · rintro ⟨a, rfl⟩
    cases found with
    | nil => rfl
    | cons x others => exact nomatch (h (.notFinite x)).mpr ⟨x, others, rfl, rfl⟩
  · rintro rfl
    cases result with
    | ok a => exact ⟨a, rfl⟩
    | error e =>
      obtain ⟨_, _, ⟨⟩, _⟩ := (h e).mp rfl

theorem FailsAt.bind {f : α → Except ValueError β} (h : FailsAt result found)
    (rest : ∀ a, FailsAt (f a) later) : FailsAt (result >>= f) (found ++ later) := by
  cases result with
  | error cause =>
    obtain ⟨x, others, rfl, rfl⟩ := (h cause).mp rfl
    intro e
    constructor
    · rintro ⟨⟩
      exact ⟨x, others ++ later, rfl, rfl⟩
    · rintro ⟨_, _, ⟨⟩, rfl⟩
      rfl
  | ok a =>
    rw [h.ok_iff.mp ⟨a, rfl⟩]
    exact rest a

theorem FailsAt.map {f : α → β} (h : FailsAt result found) :
    FailsAt (result >>= fun a => pure (f a)) found := by
  have mapped := h.bind fun a => failsAt_ok (f a)
  rwa [List.append_nil] at mapped

end

theorem floatToJson_failsAt (x : Float) :
    FailsAt (floatToJson x) (if x.isNaN || x.isInf then [x] else []) := by
  have finite := Binary.isFinite_double x
  unfold floatToJson Json.Number.ofFloat?
  cases special : x.isNaN || x.isInf with
  | true =>
    rw [special, Bool.not_true] at finite
    rw [dif_neg (by rw [finite]; decide), if_pos rfl]
    intro e
    constructor
    · rintro ⟨⟩
      exact ⟨x, [], rfl, rfl⟩
    · rintro ⟨_, _, ⟨⟩, rfl⟩
      rfl
  | false =>
    rw [special, Bool.not_false] at finite
    rw [dif_pos finite]
    exact failsAt_ok _

mutual

theorem toJson_failsAt : ∀ value : Value, FailsAt value.toJson value.specials
  | .null | .boolean _ | .int _ | .long _ | .bytes _ | .fixed _ | .string _ | .enumeration .. =>
    failsAt_ok _
  | .float x => by
    obtain ⟨-, isNaN, isInf⟩ := Binary.widen_alike x
    have failsAt := floatToJson_failsAt (Binary.widen x)
    rwa [isNaN, isInf] at failsAt
  | .double x => floatToJson_failsAt x
  | .record fields => (entriesToJson_failsAt fields).map
  | .array items => (itemsToJson_failsAt items).map
  | .map entries => (entriesToJson_failsAt entries).map
  | .union _ content => toJson_failsAt content

theorem itemsToJson_failsAt : ∀ items, FailsAt (itemsToJson items) (specialsOfItems items)
  | [] => failsAt_ok _
  | item :: items => (toJson_failsAt item).bind fun _ => (itemsToJson_failsAt items).map

theorem entriesToJson_failsAt :
    ∀ entries, FailsAt (entriesToJson entries) (specialsOfEntries entries)
  | [] => failsAt_ok _
  | (_, value) :: entries => (toJson_failsAt value).bind fun _ => (entriesToJson_failsAt entries).map

end

/--
A value has no JSON form just when a number in it is NaN or infinite, at any depth. The first one
from left to right is the error, which is one of range and names the number.
-/
theorem toJson_fails_at_first (value : Value) (e : ValueError) :
    value.toJson = .error e ↔
      ∃ x others, value.specials = x :: others ∧ e = .notFinite x ∧ e.category = .outOfRange ∧
        e.message =
          "Value out of range: " ++ (ValueError.specialName x ++ " has no JSON representation") := by
  rw [toJson_failsAt value e]
  constructor
  · rintro ⟨x, others, found, rfl⟩
    exact ⟨x, others, found, rfl, rfl, rfl⟩
  · rintro ⟨x, others, found, about, -, -⟩
    exact ⟨x, others, found, about⟩

/-- Under one name the later entry would have taken the place of the first, which is the error. -/
example : (record [("girth", .double (Float.ofBits 0x7ff0000000000000)),
    ("girth", .double (Float.ofBits 0))]).toJson =
      .error (.notFinite (Float.ofBits 0x7ff0000000000000)) := rfl

end SchemaBinding.Value
