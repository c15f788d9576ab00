import SchemaBinding.Proofs.Value.Conformance

/-!
# Unions as sets of branches

To a value a union is the set of the schemas that it offers.
-/

namespace SchemaBinding

namespace Schema

/-! ## Branches of branches -/

mutual

/-- The branches of a union and of the unions inside it. Any other schema is its only branch. -/
def flatBranches : Schema → List Schema
  | .union branches => flatBranchesList branches
  | schema => [schema]

def flatBranchesList : List Schema → List Schema
  | [] => []
  | branch :: branches => branch.flatBranches ++ flatBranchesList branches

end

/-- The two offer the same branches, however often and in whatever order. -/
def SameBranches (s t : Schema) : Prop :=
  ∀ branch, branch ∈ s.flatBranches ↔ branch ∈ t.flatBranches

/--
One way to write a union differently: to put the branches of an inner union in its place, to change
the order, to give a branch again, or to do such a thing to an inner union.
-/
inductive Rearranged : Schema → Schema → Prop
  | flatten (before inner after : List Schema) :
      Rearranged (.union (before ++ .union inner :: after)) (.union (before ++ inner ++ after))
  | permute {branches others : List Schema} (h : branches.Perm others) :
      Rearranged (.union branches) (.union others)
  | again {branches : List Schema} {branch : Schema} (mem : branch ∈ branches) :
      Rearranged (.union branches) (.union (branch :: branches))
  | within {s t : Schema} (before after : List Schema) (h : Rearranged s t) :
      Rearranged (.union (before ++ s :: after)) (.union (before ++ t :: after))

variable {branches : List Schema} {branch s t : Schema}

theorem flatBranchesList_eq (branches : List Schema) :
    flatBranchesList branches = branches.flatMap flatBranches := by
  induction branches with
  | nil => rfl
  | cons branch branches ih => rw [flatBranchesList, ih, List.flatMap_cons]

theorem mem_flatBranches_union :
    branch ∈ (union branches).flatBranches ↔ ∃ b ∈ branches, branch ∈ b.flatBranches := by
  rw [flatBranches, flatBranchesList_eq, List.mem_flatMap]

theorem Rearranged.sameBranches (h : s.Rearranged t) : s.SameBranches t := by
  intro branch
  induction h with
  | flatten before inner after =>
    simp only [mem_flatBranches_union, List.mem_append, List.mem_cons, or_and_right, exists_or,
      exists_eq_left, or_assoc]
  | permute h => simp only [mem_flatBranches_union, h.mem_iff]
  | again mem =>
    simp only [mem_flatBranches_union, List.mem_cons, or_and_right, exists_or, exists_eq_left]
    exact ⟨.inr, fun either => either.elim (fun own => ⟨_, mem, own⟩) id⟩
  | within before after _ ih =>
    simp only [mem_flatBranches_union, List.mem_append, List.mem_cons, or_and_right, exists_or,
      exists_eq_left, ih]

end Schema

/-! ## Conformance to a set of branches -/

namespace Value

variable {types : Definitions} {v : Value}

mutual

theorem conforms_flatBranches : ∀ s : Schema,
    v.conforms s types = s.flatBranches.any (v.conforms · types)
  | .union branches => by
    rw [conforms_union]
    exact conforms_flatBranchesList branches
  | .primitive _ | .record .. | .enumeration _ | .array _ | .map _ | .fixed _ | .reference .. => by
    rw [Schema.flatBranches, List.any_cons, List.any_nil, Bool.or_false]
    nofun

theorem conforms_flatBranchesList : ∀ branches : List Schema,
    branches.any (v.conforms · types) =
      (Schema.flatBranchesList branches).any (v.conforms · types)
  | [] => rfl
  | branch :: branches => by
    rw [List.any_cons, Schema.flatBranchesList, List.any_append, conforms_flatBranches branch,
      conforms_flatBranchesList branches]

end

theorem conforms_iff_branch {s : Schema} : v.conforms s types = true ↔
    ∃ branch ∈ s.flatBranches, v.conforms branch types = true := by
  rw [conforms_flatBranches, List.any_eq_true]

theorem conforms_congr {s t : Schema} (same : s.SameBranches t) :
    v.conforms s types = v.conforms t types := by
  unfold Schema.SameBranches at same
  rw [Bool.eq_iff_iff, conforms_iff_branch, conforms_iff_branch]
  simp only [same]

/--
Wrappers make no difference to conformance, and of a union only the set of its branches counts. So
none of the ways to write a union differently changes what conforms to it.
-/
theorem conforms_to_branchSet (types : Definitions) (v : Value) (s : Schema) :
    v.conforms s types = v.unwrap.conforms s types ∧
    (∀ branch, (union branch v).conforms s types = v.conforms s types) ∧
    (v.conforms s types = true ↔ ∃ branch ∈ s.flatBranches, v.conforms branch types = true) ∧
    v.conforms (.union s.flatBranches) types = v.conforms s types ∧
    (∀ t, s.SameBranches t → v.conforms t types = v.conforms s types) ∧
    ∀ t, s.Rearranged t → s.SameBranches t := by
  refine ⟨(conforms_unwrap s).symm, fun branch => ?_, conforms_iff_branch, ?_, fun t same => ?_,
    fun t rearranged => rearranged.sameBranches⟩
  · rw [← conforms_unwrap, unwrap_union, conforms_unwrap]
  · rw [conforms_union, conforms_flatBranches s]
  · exact (conforms_congr same).symm

namespace Bark

def nested : Schema :=
  .union [.primitive .null, .union [.primitive .string, .primitive .int]]

def opened : Schema := .union [.primitive .null, .primitive .string, .primitive .int]

def shuffled : Schema :=
  .union [.primitive .int, .primitive .string, .primitive .null, .primitive .string]

def smooth : Value := .union 1 (.union 0 (.string "smooth"))

theorem nested_opened : nested.Rearranged opened :=
  .flatten [.primitive .null] [.primitive .string, .primitive .int] []

theorem nested_shuffled : nested.SameBranches shuffled := by
  intro branch
  simp only [nested, shuffled, Schema.flatBranches, Schema.flatBranchesList, List.mem_append,
    List.mem_singleton, List.not_mem_nil]
  grind

end Bark

theorem conforms_to_branchSet_bark :
    Bark.smooth.conforms Bark.nested .empty = true ∧
    (Value.string "smooth").conforms Bark.nested .empty = true ∧
    Bark.smooth.conforms Bark.shuffled .empty = true ∧
    Bark.smooth.conforms Bark.opened .empty = true := by
  have conforms : Bark.smooth.conforms Bark.nested .empty = true := rfl
  obtain ⟨bare, -, -, -, same, rearranged⟩ := conforms_to_branchSet .empty Bark.smooth Bark.nested
  refine ⟨conforms, bare.symm.trans conforms, ?_, ?_⟩
  · exact (same _ Bark.nested_shuffled).trans conforms
  · exact (same _ (rearranged _ Bark.nested_opened)).trans conforms

end Value

end SchemaBinding
