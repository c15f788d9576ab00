import SchemaBinding.Json.Number

/-!
# JSON documents

Objects keep the order of their keys. A text gives each key of an object once, which is what
`Json.DistinctKeys` says.
-/

namespace SchemaBinding

inductive Json where
  | null
  | bool (b : Bool)
  | num (n : Json.Number)
  | str (s : String)
  | arr (items : List Json)
  | obj (members : List (String × Json))

instance : Inhabited Json := ⟨.null⟩

namespace Json

/-! ## Members of an object -/

abbrev Members := List (String × Json)

/-- Gives `key` a value: in place if the key is there, else as the last member. -/
def Members.set (key : String) (value : Json) : Members → Members
  | [] => [(key, value)]
  | (k, v) :: rest => if k = key then (k, value) :: rest else (k, v) :: Members.set key value rest

/-- Members in the order of first mention, each key with the last value it was given. -/
def Members.ofList (pairs : List (String × Json)) : Members :=
  pairs.foldl (fun members pair => Members.set pair.1 pair.2 members) []

theorem Members.set_of_not_mem {key : String} {value : Json} {members : Members}
    (fresh : key ∉ members.map (·.1)) : members.set key value = members ++ [(key, value)] := by
  induction members with
  | nil => rfl
  | cons member members ih =>
    rw [List.map_cons, List.mem_cons, not_or] at fresh
    rw [Members.set, if_neg (Ne.symm fresh.1), ih fresh.2, List.cons_append]

theorem Members.ofList_eq_self {pairs : List (String × Json)}
    (distinct : (pairs.map (·.1)).Nodup) : Members.ofList pairs = pairs := by
  have after (added members : Members) (distinct : ((members ++ added).map (·.1)).Nodup) :
      added.foldl (fun members pair => Members.set pair.1 pair.2 members) members =
        members ++ added := by
    induction added generalizing members with
    | nil => rw [List.foldl_nil, List.append_nil]
    | cons pair added ih =>
      have fresh : pair.1 ∉ members.map (·.1) := by
        rw [List.map_append, List.nodup_append] at distinct
        exact fun mem => distinct.2.2 _ mem _ List.mem_cons_self rfl
      rw [List.append_cons] at distinct ⊢
      rw [List.foldl_cons, set_of_not_mem fresh, ih _ distinct]
  exact after pairs [] distinct

mutual

/-- Every object of the document has each key once. -/
def DistinctKeys : Json → Prop
  | .arr items => DistinctKeysAll items
  | .obj members => (members.map (·.1)).Nodup ∧ DistinctKeysMembers members
  | _ => True

def DistinctKeysAll : List Json → Prop
  | [] => True
  | item :: items => item.DistinctKeys ∧ DistinctKeysAll items

def DistinctKeysMembers : List (String × Json) → Prop
  | [] => True
  | (_, value) :: members => value.DistinctKeys ∧ DistinctKeysMembers members

end

theorem distinctKeys_arr {items : List Json} :
    (arr items).DistinctKeys ↔ ∀ item ∈ items, item.DistinctKeys := by
  rw [DistinctKeys]
  induction items with
  | nil => simp [DistinctKeysAll]
  | cons item items ih => rw [DistinctKeysAll, ih, List.forall_mem_cons]

theorem distinctKeys_obj {members : Members} :
    (obj members).DistinctKeys ↔
      (members.map (·.1)).Nodup ∧ ∀ member ∈ members, member.2.DistinctKeys := by
  rw [DistinctKeys]
  refine and_congr Iff.rfl ?_
  induction members with
  | nil => simp [DistinctKeysMembers]
  | cons member members ih => rw [DistinctKeysMembers, ih, List.forall_mem_cons]

/-! ## Attributes -/

def text? (key : String) (members : Members) : Option String :=
  match members.lookup key with
  | some (.str s) => some s
  | _ => none

/-- The strings in the array under `key`; whatever else is there is passed over. -/
def texts (key : String) (members : Members) : List String :=
  match members.lookup key with
  | some (.arr items) => items.filterMap fun
    | .str s => some s
    | _ => none
  | _ => []

/-! ## Equality -/

mutual

/-- Objects are equal whatever the order of their members. -/
def beq : Json → Json → Bool
  | .null, .null => true
  | .bool a, .bool b => a == b
  | .num a, .num b => a == b
  | .str a, .str b => a == b
  | .arr a, .arr b => beqItems a b
  | .obj a, .obj b => a.length == b.length && beqMembers a b
  | _, _ => false

def beqItems : List Json → List Json → Bool
  | [], [] => true
  | a :: as, b :: bs => a.beq b && beqItems as bs
  | _, _ => false

def beqMembers : List (String × Json) → List (String × Json) → Bool
  | [], _ => true
  | (key, a) :: rest, others =>
    (match others.lookup key with
      | some b => a.beq b
      | none => false) && beqMembers rest others

end

instance : BEq Json := ⟨beq⟩

end Json

end SchemaBinding
