import Mathlib.Computability.Language
import Mathlib.Data.Char
import SchemaBinding.Proofs.Schema.Name

/-!
# The grammar of names

The checks accept the words of two regular languages, and report the leftmost part that is no name.
-/

open scoped Computability

namespace SchemaBinding

/-! ## The grammar -/

namespace Grammar

/-- The class `[A-Za-z_]`. -/
def starts : Set Char := Set.Icc 'A' 'Z' ∪ Set.Icc 'a' 'z' ∪ {'_'}

/-- The class `[A-Za-z0-9_]`. -/
def others : Set Char := starts ∪ Set.Icc '0' '9'

def oneOf (chars : Set Char) : Language Char := {word | ∃ c ∈ chars, word = [c]}

/-- The words `[A-Za-z_][A-Za-z0-9_]*`. -/
def simpleNames : Language Char := oneOf starts * (oneOf others)∗

/-- The words `[A-Za-z_][A-Za-z0-9_]*(\.[A-Za-z_][A-Za-z0-9_]*)*`. -/
def fullNames : Language Char := simpleNames * (oneOf {'.'} * simpleNames)∗

end Grammar

open Grammar

/-! ## Classes -/

theorem mem_range_iff {c first last : Char} :
    (decide (first ≤ c) && decide (c ≤ last)) = true ↔ c ∈ Set.Icc first last := by
  rw [Bool.and_eq_true, decide_eq_true_eq, decide_eq_true_eq]
  rfl

theorem isNameStart_iff {c : Char} : isNameStart c = true ↔ c ∈ starts := by
  have upper : c.isUpper = true ↔ c ∈ Set.Icc 'A' 'Z' := decide_eq_true_iff
  have lower : c.isLower = true ↔ c ∈ Set.Icc 'a' 'z' := mem_range_iff
  change ((c.isUpper || c.isLower) || c == '_') = true ↔ _
  rw [Bool.or_eq_true, Bool.or_eq_true, upper, lower, beq_iff_eq]
  rfl

theorem isNameChar_iff {c : Char} : isNameChar c = true ↔ c ∈ others := by
  have digit : c.isDigit = true ↔ c ∈ Set.Icc '0' '9' := mem_range_iff
  change ((c.isAlpha || c.isDigit) || c == '_') = true ↔ _
  rw [Bool.or_right_comm, Bool.or_eq_true, digit]
  exact or_congr_left isNameStart_iff

theorem mem_star_oneOf {chars : Set Char} {cs : List Char} :
    cs ∈ (oneOf chars)∗ ↔ ∀ c ∈ cs, c ∈ chars := by
  rw [Language.mem_kstar]
  constructor
  · rintro ⟨words, rfl, each⟩ c mem
    obtain ⟨word, hw, hc⟩ := List.mem_flatten.mp mem
    obtain ⟨d, hd, rfl⟩ := each word hw
    rwa [List.mem_singleton.mp hc]
  · intro each
    refine ⟨cs.map ([·]), by rw [← List.flatMap_def, List.flatMap_singleton'], ?_⟩
    intro word mem
    obtain ⟨c, hc, rfl⟩ := List.mem_map.mp mem
    exact ⟨c, each c hc, rfl⟩

/-! ## Simple names -/

theorem mem_simpleNames {cs : List Char} :
    cs ∈ simpleNames ↔ ∃ c rest, cs = c :: rest ∧ c ∈ starts ∧ ∀ d ∈ rest, d ∈ others := by
  unfold simpleNames
  rw [Language.mem_mul]
  constructor
  · rintro ⟨_, ⟨c, hc, rfl⟩, rest, hrest, rfl⟩
    exact ⟨c, rest, rfl, hc, mem_star_oneOf.mp hrest⟩
  · rintro ⟨c, rest, rfl, hc, hrest⟩
    exact ⟨[c], ⟨c, hc, rfl⟩, rest, mem_star_oneOf.mpr hrest, rfl⟩

/-- Why a text is no simple name: of the characters that may not stand in one, the first counts. -/
inductive HasFault : List Char → NameFault → Prop
  | empty : HasFault [] .empty
  | start {c : Char} {rest : List Char} (h : c ∉ starts) : HasFault (c :: rest) .badStart
  | character {c d : Char} {fine later : List Char} (first : c ∈ starts)
      (before : ∀ x ∈ fine, x ∈ others) (h : d ∉ others) :
      HasFault (c :: (fine ++ d :: later)) (.badCharacter d)

theorem nameFaultOf?_eq_none {cs : List Char} : nameFaultOf? cs = none ↔ cs ∈ simpleNames := by
  rw [mem_simpleNames]
  cases cs with
  | nil => simp [nameFaultOf?]
  | cons c cs =>
    by_cases first : c ∈ starts
    · rw [nameFaultOf?, if_pos (isNameStart_iff.mpr first), Option.map_eq_none_iff,
        List.find?_eq_none]
      simp [first, isNameChar_iff]
    · rw [nameFaultOf?, if_neg (first ∘ isNameStart_iff.mp)]
      simp [first]

theorem nameFaultOf?_eq_some {cs : List Char} {fault : NameFault} :
    nameFaultOf? cs = some fault ↔ HasFault cs fault := by
  constructor
  · intro h
    cases cs with
    | nil => cases h; exact .empty
    | cons c cs =>
      rw [nameFaultOf?] at h
      split at h
      · next first =>
        obtain ⟨d, found, rfl⟩ := Option.map_eq_some_iff.mp h
        obtain ⟨bad, fine, later, rfl, before⟩ := List.find?_eq_some_iff_append.mp found
        refine .character (isNameStart_iff.mp first) (fun x mem => ?_) ?_
        · exact isNameChar_iff.mp (by simpa using before x mem)
        · rw [← isNameChar_iff]
          simpa using bad
      · next first =>
        cases h
        exact .start (first ∘ isNameStart_iff.mpr)
  · intro h
    cases h with
    | empty => rfl
    | start h => rw [nameFaultOf?, if_neg (h ∘ isNameStart_iff.mp)]
    | @character c d fine later first before h =>
      rw [← isNameChar_iff] at h
      have found : (fine ++ d :: later).find? (fun x => !isNameChar x) = some d := by
        rw [List.find?_eq_some_iff_append]
        refine ⟨by simpa using h, fine, later, rfl, fun x mem => ?_⟩
        simpa [isNameChar_iff] using before x mem
      rw [nameFaultOf?, if_pos (isNameStart_iff.mpr first), found]
      rfl

theorem undotted_of_mem_simpleNames {cs : List Char} (h : cs ∈ simpleNames) : '.' ∉ cs :=
  undotted_of_nameFaultOf? (nameFaultOf?_eq_none.mpr h)

/-! ## Full names -/

theorem append_mem_fullNames {part cs : List Char} (hp : part ∈ simpleNames)
    (hcs : cs ∈ fullNames) : part ++ '.' :: cs ∈ fullNames := by
  obtain ⟨first, hf, _, tail, rfl⟩ := Language.mem_mul.mp hcs
  obtain ⟨words, rfl, each⟩ := Language.mem_kstar.mp tail
  have dot : ['.'] ∈ oneOf {'.'} := ⟨'.', rfl, rfl⟩
  have second : '.' :: first ∈ oneOf {'.'} * simpleNames := Language.append_mem_mul dot hf
  have tail : (('.' :: first) :: words).flatten ∈ (oneOf {'.'} * simpleNames)∗ :=
    Language.join_mem_kstar (List.forall_mem_cons.mpr ⟨second, each⟩)
  exact Language.append_mem_mul hp tail

theorem joinDots_mem_fullNames {parts : List (List Char)} (nonempty : parts ≠ [])
    (each : ∀ part ∈ parts, part ∈ simpleNames) : joinDots parts ∈ fullNames := by
  induction parts with
  | nil => exact absurd rfl nonempty
  | cons part parts ih =>
    obtain ⟨first, rest⟩ := List.forall_mem_cons.mp each
    by_cases last : parts = []
    · subst last
      have none := Language.nil_mem_kstar (oneOf {'.'} * simpleNames)
      have word := Language.append_mem_mul first none
      rwa [List.append_nil] at word
    · rw [joinDots_cons last]
      exact append_mem_fullNames first (ih last rest)

theorem mem_fullNames {cs : List Char} :
    cs ∈ fullNames ↔ ∀ part ∈ splitDots cs, part ∈ simpleNames := by
  constructor
  · intro h
    obtain ⟨first, hf, _, tail, rfl⟩ := Language.mem_mul.mp h
    obtain ⟨words, rfl, each⟩ := Language.mem_kstar.mp tail
    clear h tail
    -- Each further word begins with the dot where the text is split.
    induction words generalizing first with
    | nil =>
      rw [List.flatten_nil, List.append_nil, splitDots_of_undotted (undotted_of_mem_simpleNames hf)]
      simpa using hf
    | cons word words ih =>
      obtain ⟨own, rest⟩ := List.forall_mem_cons.mp each
      obtain ⟨_, ⟨_, rfl, rfl⟩, next, hn, rfl⟩ := Language.mem_mul.mp own
      have split : splitDots (first ++ (('.' :: next) :: words).flatten) =
          first :: splitDots (next ++ words.flatten) := by
        have parts := splitDots_append first (next ++ words.flatten)
        rwa [splitDots_of_undotted (undotted_of_mem_simpleNames hf)] at parts
      change ∀ part ∈ splitDots (first ++ (('.' :: next) :: words).flatten), part ∈ simpleNames
      rw [split]
      exact List.forall_mem_cons.mpr ⟨hf, ih next hn rest⟩
  · intro each
    rw [← joinDots_splitDots cs]
    exact joinDots_mem_fullNames (splitDots_ne_nil cs) each

theorem mem_simpleNames_iff_undotted {cs : List Char} :
    cs ∈ simpleNames ↔ cs ∈ fullNames ∧ '.' ∉ cs := by
  rw [mem_fullNames]
  constructor
  · intro h
    have undotted := undotted_of_mem_simpleNames h
    rw [splitDots_of_undotted undotted]
    exact ⟨List.forall_mem_singleton.mpr h, undotted⟩
  · rintro ⟨each, undotted⟩
    rw [splitDots_of_undotted undotted] at each
    exact List.forall_mem_singleton.mp each

theorem fullnameFault?_eq_none {text : String} :
    fullnameFault? text = none ↔ text.toList ∈ fullNames := by
  unfold fullnameFault?
  rw [List.findSome?_eq_none_iff, mem_fullNames]
  simp only [Option.map_eq_none_iff, nameFaultOf?_eq_none]

/-! ## The leftmost malformed part -/

theorem splitDots_eq_splitOn (cs : List Char) : splitDots cs = cs.splitOn '.' := by
  induction cs with
  | nil => rfl
  | cons c cs ih =>
    rw [splitDots, List.splitOn_cons_eq_if_modifyHead, ← ih]
    by_cases dot : c = '.'
    · simp [dot]
    · rw [if_neg dot, if_neg (by simpa using dot)]
      cases parts : splitDots cs with
      | nil => exact absurd parts (splitDots_ne_nil cs)
      | cons part parts => rfl

theorem intercalate_eq_iff {text : String} {parts : List String} (nonempty : parts ≠ []) :
    (".".intercalate parts = text ∧ ∀ part ∈ parts, '.' ∉ part.toList) ↔
      splitDots text.toList = parts.map String.toList := by
  have joined : (".".intercalate parts).toList = ['.'].intercalate (parts.map String.toList) :=
    String.toList_intercalate
  rw [splitDots_eq_splitOn]
  constructor
  · rintro ⟨rfl, undotted⟩
    rw [joined, List.splitOn_intercalate '.' (by simpa using undotted) (by simpa using nonempty)]
  · intro split
    refine ⟨?_, fun part mem => ?_⟩
    · rw [← String.toList_inj, joined, ← split, List.intercalate_splitOn]
    · rw [← splitDots_eq_splitOn] at split
      exact undotted_of_mem_splitDots (split ▸ List.mem_map_of_mem mem)

/-- The leftmost of the parts between the dots of a text that is no simple name, and its fault. -/
inductive LeftmostFault (text part : String) (fault : NameFault) : Prop
  | mk {before after : List String} (joined : ".".intercalate (before ++ part :: after) = text)
      (undotted : ∀ p ∈ before ++ part :: after, '.' ∉ p.toList)
      (earlier : ∀ p ∈ before, checkName p = .ok ())
      (own : checkName part = .error (.invalidName part fault))

theorem checkName_eq_error {text : String} {e : SchemaError} :
    checkName text = .error e ↔
      ∃ fault, nameFault? text = some fault ∧ e = .invalidName text fault := by
  unfold checkName
  cases nameFault? text <;> simp [eq_comm]

theorem fullnameFault?_eq_some {text : String} {fault : NameFault} :
    fullnameFault? text = some fault ↔
      ∃ part own, LeftmostFault text part own ∧ fault = .inComponent part own := by
  unfold fullnameFault?
  rw [List.findSome?_eq_some_iff]
  constructor
  · rintro ⟨before, part, after, split, found, earlier⟩
    obtain ⟨own, hown, rfl⟩ := Option.map_eq_some_iff.mp found
    have parts : splitDots text.toList = (before.map String.ofList ++
        String.ofList part :: after.map String.ofList).map String.toList := by
      simp [split, Function.comp_def]
    obtain ⟨joined, undotted⟩ := (intercalate_eq_iff (by simp)).mpr parts
    refine ⟨_, own, ⟨joined, undotted, fun p mem => ?_, ?_⟩, rfl⟩
    · obtain ⟨cs, hcs, rfl⟩ := List.mem_map.mp mem
      rw [checkName_eq_ok, nameFault?, String.toList_ofList]
      exact Option.map_eq_none_iff.mp (earlier cs hcs)
    · rw [checkName_eq_error, nameFault?, String.toList_ofList]
      exact ⟨own, hown, rfl⟩
  · rintro ⟨part, own, @⟨before, after, joined, undotted, earlier, failed⟩, rfl⟩
    have split := (intercalate_eq_iff (by simp)).mp ⟨joined, undotted⟩
    rw [List.map_append, List.map_cons] at split
    obtain ⟨_, hown, ⟨⟩⟩ := checkName_eq_error.mp failed
    refine ⟨_, _, _, split, ?_, fun cs mem => ?_⟩
    · rw [String.ofList_toList]
      exact Option.map_eq_some_iff.mpr ⟨own, hown, rfl⟩
    · obtain ⟨p, hp, rfl⟩ := List.mem_map.mp mem
      exact Option.map_eq_none_iff.mpr (checkName_eq_ok.mp (earlier p hp))

theorem checkFullname_eq_error {text : String} {e : SchemaError} :
    checkFullname text = .error e ↔
      ∃ part fault, LeftmostFault text part fault ∧
        e = .invalidName text (.inComponent part fault) := by
  unfold checkFullname
  constructor
  · intro h
    split at h
    · cases h
    · next found =>
      cases h
      obtain ⟨part, own, leftmost, rfl⟩ := fullnameFault?_eq_some.mp found
      exact ⟨part, own, leftmost, rfl⟩
  · rintro ⟨part, own, leftmost, rfl⟩
    rw [fullnameFault?_eq_some.mpr ⟨part, own, leftmost, rfl⟩]

theorem message_inComponent (text part : String) (fault : NameFault) :
    (SchemaError.invalidName text (.inComponent part fault)).message =
      "Invalid name '" ++ text ++ "': component '" ++ part ++ "' " ++ fault.message := by
  have opening : "Invalid name '" = "Invalid name " ++ "'" := by decide
  have middle : "': component '" = "': " ++ "component '" := by decide
  change "Invalid name " ++
    ("'" ++ text ++ "': " ++ ("component '" ++ part ++ "' " ++ fault.message)) = _
  rw [opening, middle]
  simp only [String.append_assoc]

/--
The texts that pass as full names are the words `[A-Za-z_][A-Za-z0-9_]*(\.[A-Za-z_][A-Za-z0-9_]*)*`,
and of these the ones without a dot pass as simple names. The error about a simple name is its first
fault. The error about a full name has the whole text, and quotes the leftmost of the parts between
the dots that does not pass as a simple name, with what is wrong with that part.
-/
theorem checks_follow_grammar (text : String) :
    (checkFullname text = .ok () ↔ text.toList ∈ fullNames) ∧
    (checkName text = .ok () ↔ text.toList ∈ fullNames ∧ '.' ∉ text.toList) ∧
    (∀ e, checkName text = .error e ↔
      ∃ fault, HasFault text.toList fault ∧ e = .invalidName text fault) ∧
    ∀ e, checkFullname text = .error e ↔
      ∃ part fault, LeftmostFault text part fault ∧
        e = .invalidName text (.inComponent part fault) ∧
        e.message =
          "Invalid name '" ++ text ++ "': component '" ++ part ++ "' " ++ fault.message := by
  refine ⟨?_, ?_, fun e => ?_, fun e => ?_⟩
  · rw [checkFullname_eq_ok, fullnameFault?_eq_none]
  · rw [checkName_eq_ok, nameFault?, nameFaultOf?_eq_none, mem_simpleNames_iff_undotted]
  · simp only [checkName_eq_error, nameFault?, nameFaultOf?_eq_some]
  · rw [checkFullname_eq_error]
    constructor
    · rintro ⟨part, fault, leftmost, rfl⟩
      exact ⟨part, fault, leftmost, rfl, message_inComponent text part fault⟩
    · rintro ⟨part, fault, leftmost, rfl, -⟩
      exact ⟨part, fault, leftmost, rfl⟩

example : checkFullname "com..1User" =
    .error (.invalidName "com..1User" (.inComponent "" .empty)) := rfl

end SchemaBinding
