import SchemaBinding.Proofs.Parser.Checks
import SchemaBinding.Proofs.Schema.WellFormed

/-!
# The keys of branches

The parser compares the branches of a union by a text, which tells the same branches apart as the
rules do.
-/

namespace SchemaBinding.Parser

open Step

/-! ## Texts of keys -/

theorem append_colon_inj {as bs cs ds : List Char} (ha : ':' ∉ as) (hb : ':' ∉ bs)
    (h : as ++ ':' :: cs = bs ++ ':' :: ds) : as = bs ∧ cs = ds := by
  induction as generalizing bs with
  | nil =>
    cases bs with
    | nil => exact ⟨rfl, (List.cons.inj h).2⟩
    | cons b bs =>
      obtain ⟨rfl, -⟩ := List.cons.inj h
      exact absurd List.mem_cons_self hb
  | cons a as ih =>
    cases bs with
    | nil =>
      obtain ⟨rfl, -⟩ := List.cons.inj h
      exact absurd List.mem_cons_self ha
    | cons b bs =>
      obtain ⟨rfl, rest⟩ := List.cons.inj h
      obtain ⟨rfl, rfl⟩ := ih (fun mem => ha (List.mem_cons_of_mem _ mem))
        (fun mem => hb (List.mem_cons_of_mem _ mem)) rest
      exact ⟨rfl, rfl⟩

theorem colon_notMem_kind (k : Kind) : ':' ∉ k.name.toList := by
  have all : ∀ k ∈ Kind.all, ':' ∉ k.name.toList := by decide
  exact all k (Kind.mem_all k)

theorem kind_name_inj {a b : Kind} (h : a.name = b.name) : a = b := by
  have all : ∀ a ∈ Kind.all, ∀ b ∈ Kind.all, a.name = b.name → a = b := by decide
  exact all a (Kind.mem_all a) b (Kind.mem_all b) h

theorem branchKey_eq_iff {a b : Schema} : branchKey a = branchKey b ↔ a.key = b.key := by
  constructor
  · intro h
    have chars : (branchKey a).toList = (branchKey b).toList := by rw [h]
    unfold branchKey at chars h
    unfold Schema.key
    cases ha : a.fullname? <;> cases hb : b.fullname? <;> rw [ha, hb] at chars h
    · rw [kind_name_inj h]
    · refine absurd ?_ (colon_notMem_kind a.kind)
      dsimp only at chars
      rw [chars]
      simp
    · refine absurd ?_ (colon_notMem_kind b.kind)
      dsimp only at chars
      rw [← chars]
      simp
    · simp only [String.toList_append, List.append_assoc] at chars
      obtain ⟨kinds, names⟩ := append_colon_inj (colon_notMem_kind _) (colon_notMem_kind _) chars
      rw [kind_name_inj (String.toList_inj.mp kinds), String.toList_inj.mp names]
  · intro h
    obtain ⟨kinds, names⟩ := Prod.mk.inj h
    unfold branchKey
    rw [kinds, names]

theorem nodup_branchKey {branches : List Schema} :
    (branches.map branchKey).Nodup ↔ (branches.map Schema.key).Nodup := by
  unfold List.Nodup
  rw [List.pairwise_map, List.pairwise_map]
  simp only [ne_eq, branchKey_eq_iff]

/-! ## The rules for unions -/

variable {p q : Parser} {branches : List Schema}

theorem checkBranches_of_rules (rules : UnionRules branches) :
    Gives (checkBranches 0 [] branches) p () p :=
  gives_checkBranches rules.flat (nodup_branchKey.mpr rules.distinct) fun _ _ => List.not_mem_nil

theorem unionRules_of_checkBranches (strict : p.strict = true) (nonempty : branches ≠ [])
    (h : Gives (checkBranches 0 [] branches) p () q) : UnionRules branches := by
  obtain ⟨flat, distinct, -, -⟩ := strict_checkBranches strict h
  exact ⟨nonempty, flat, nodup_branchKey.mp distinct⟩

end SchemaBinding.Parser
