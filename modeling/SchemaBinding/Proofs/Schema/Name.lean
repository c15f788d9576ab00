import SchemaBinding.Schema.Basic

/-!
# Names and dots

A dot between a full name and a simple name is where the whole is split again.
-/

namespace SchemaBinding

/-! ## Splitting at dots -/

theorem splitDots_of_undotted {cs : List Char} (h : '.' ∉ cs) : splitDots cs = [cs] := by
  induction cs with
  | nil => rfl
  | cons c cs ih =>
    obtain ⟨hc, hcs⟩ := not_or.mp fun mem => h (List.mem_cons.mpr mem)
    unfold splitDots
    rw [if_neg (Ne.symm hc), ih hcs]

theorem splitDots_append (cs ds : List Char) :
    splitDots (cs ++ '.' :: ds) = splitDots cs ++ splitDots ds := by
  induction cs with
  | nil => rfl
  | cons c cs ih =>
    rw [List.cons_append, splitDots, ih, splitDots]
    by_cases hc : c = '.'
    · rw [if_pos hc, if_pos hc, List.cons_append]
    · rw [if_neg hc, if_neg hc]
      cases parts : splitDots cs with
      | nil => exact absurd parts (splitDots_ne_nil cs)
      | cons part parts => rfl

theorem undotted_of_mem_splitDots {cs part : List Char} (h : part ∈ splitDots cs) : '.' ∉ part := by
  induction cs generalizing part with
  | nil =>
    rcases List.mem_singleton.mp h with rfl
    exact List.not_mem_nil
  | cons c cs ih =>
    unfold splitDots at h
    split at h
    · rcases List.mem_cons.mp h with rfl | later
      · exact List.not_mem_nil
      · exact ih later
    · next other =>
      cases parts : splitDots cs with
      | nil => exact absurd parts (splitDots_ne_nil cs)
      | cons first others =>
        rw [parts] at h ih
        rcases List.mem_cons.mp h with rfl | later
        · exact List.not_mem_cons_of_ne_of_not_mem (Ne.symm other) (ih List.mem_cons_self)
        · exact ih (List.mem_cons_of_mem _ later)

theorem hasDot_eq_false {text : String} : hasDot text = false ↔ '.' ∉ text.toList := by
  unfold hasDot
  rw [Bool.eq_false_iff, ne_eq, List.contains_iff_mem]

theorem toList_qualify (space name : String) :
    (qualify space name).toList = space.toList ++ '.' :: name.toList := by
  unfold qualify
  rw [String.toList_append, String.toList_append, List.append_assoc]
  rfl

theorem hasDot_qualify (space name : String) : hasDot (qualify space name) = true := by
  unfold hasDot qualify
  simp

theorem hasDot_splitLast (text : String) : hasDot (splitLast text).2 = false := by
  rw [hasDot_eq_false]
  unfold splitLast
  split
  · next last first before parts =>
    have mem : last ∈ splitDots text.toList := by
      rw [← List.mem_reverse, parts]
      exact List.mem_cons_self
    rw [String.toList_ofList]
    exact undotted_of_mem_splitDots mem
  · next single =>
    cases parts : (splitDots text.toList).reverse with
    | nil => exact absurd (List.reverse_eq_nil_iff.mp parts) (splitDots_ne_nil _)
    | cons last before =>
      cases before with
      | cons first others => exact absurd parts (single last first others)
      | nil =>
        have whole : splitDots text.toList = [last] := by
          rw [← List.reverse_reverse (splitDots text.toList), parts]
          rfl
        have same := joinDots_splitDots text.toList
        rw [whole] at same
        change '.' ∉ text.toList
        rw [← same]
        have mem : last ∈ splitDots text.toList := by
          rw [whole]
          exact List.mem_cons_self
        exact undotted_of_mem_splitDots mem

/-! ## Simple names -/

theorem undotted_of_nameFaultOf? {cs : List Char} (h : nameFaultOf? cs = none) : '.' ∉ cs := by
  cases cs with
  | nil => exact List.not_mem_nil
  | cons c cs =>
    rw [nameFaultOf?] at h
    split at h
    · next start =>
      intro dot
      rcases List.mem_cons.mp dot with rfl | mem
      · exact absurd start (by decide)
      · have fine := List.find?_eq_none.mp (Option.map_eq_none_iff.mp h) '.' mem
        exact absurd (by decide) fine
    · cases h

variable {name : String}

theorem hasDot_of_name (h : nameFault? name = none) : hasDot name = false :=
  hasDot_eq_false.mpr (undotted_of_nameFaultOf? h)

theorem splitLast_of_undotted (h : hasDot name = false) : splitLast name = (none, name) := by
  unfold splitLast
  rw [splitDots_of_undotted (hasDot_eq_false.mp h)]
  rfl

theorem splitLast_qualify (space : String) (h : hasDot name = false) :
    splitLast (qualify space name) = (some space, name) := by
  have parts : (splitDots (qualify space name).toList).reverse =
      name.toList :: (splitDots space.toList).reverse := by
    rw [toList_qualify, splitDots_append, splitDots_of_undotted (hasDot_eq_false.mp h),
      List.reverse_append]
    rfl
  unfold splitLast
  rw [parts]
  cases before : (splitDots space.toList).reverse with
  | nil => exact absurd (List.reverse_eq_nil_iff.mp before) (splitDots_ne_nil _)
  | cons part others =>
    dsimp only
    rw [← before, List.reverse_reverse, joinDots_splitDots, String.ofList_toList,
      String.ofList_toList]

theorem checkName_eq_ok : checkName name = .ok () ↔ nameFault? name = none := by
  unfold checkName
  cases nameFault? name <;> simp

theorem checkName_of_name (h : nameFault? name = none) : checkName name = .ok () :=
  checkName_eq_ok.mpr h

theorem Name.ofString_text (name : Name) : Name.ofString name.text = .ok name := by
  unfold Name.ofString
  split
  · rfl
  · next fault =>
    rw [name.wellFormed] at fault
    cases fault

/-! ## Full names -/

theorem fullnameFault?_of_name (h : nameFault? name = none) : fullnameFault? name = none := by
  unfold fullnameFault?
  rw [splitDots_of_undotted (undotted_of_nameFaultOf? h), List.findSome?_singleton]
  unfold nameFault? at h
  rw [h]
  rfl

theorem fullnameFault?_qualify_eq_none {space : String} :
    fullnameFault? (qualify space name) = none ↔
      fullnameFault? space = none ∧ fullnameFault? name = none := by
  unfold fullnameFault?
  rw [toList_qualify, splitDots_append, List.findSome?_append, Option.or_eq_none_iff]

theorem fullnameFault?_qualify {space : String} (hs : fullnameFault? space = none)
    (h : nameFault? name = none) : fullnameFault? (qualify space name) = none :=
  fullnameFault?_qualify_eq_none.mpr ⟨hs, fullnameFault?_of_name h⟩

theorem checkFullname_eq_ok {fullname : String} :
    checkFullname fullname = .ok () ↔ fullnameFault? fullname = none := by
  unfold checkFullname
  cases fullnameFault? fullname <;> simp

theorem checkFullname_of_fullname {fullname : String} (h : fullnameFault? fullname = none) :
    checkFullname fullname = .ok () := checkFullname_eq_ok.mpr h

theorem isEmpty_of_fullname {space : String} (h : fullnameFault? space = none) :
    space.isEmpty = false := by
  rw [Bool.eq_false_iff]
  intro empty
  rw [String.isEmpty_iff.mp empty] at h
  cases h

theorem fullnameOf_undotted {space : String} (hs : fullnameFault? space = none)
    (h : hasDot name = false) : fullnameOf name (some space) = qualify space name := by
  change (if (space.isEmpty || hasDot name) = true then name else qualify space name) = _
  rw [isEmpty_of_fullname hs, h]
  rfl

theorem splitLast_fullnameOf (space : Option String) (h : hasDot name = false) :
    splitLast (fullnameOf name space) = (space.filter fun space => !space.isEmpty, name) := by
  cases space with
  | none => exact splitLast_of_undotted h
  | some space =>
    change splitLast (if (space.isEmpty || hasDot name) = true then name else _) = _
    rw [h, Bool.or_false, Option.filter_some]
    cases space.isEmpty with
    | true => exact splitLast_of_undotted h
    | false => exact splitLast_qualify space h

theorem fullnameOf_inj {name' : String} {space space' : Option String}
    (undotted : hasDot name = false) (undotted' : hasDot name' = false)
    (h : fullnameOf name space = fullnameOf name' space') :
    name = name' ∧
      (space = space' ∨ space = none ∧ space' = some "" ∨ space = some "" ∧ space' = none) := by
  have same := congrArg splitLast h
  rw [splitLast_fullnameOf space undotted, splitLast_fullnameOf space' undotted'] at same
  obtain ⟨spaces, names⟩ := Prod.mk.inj same
  have lost : ∀ {space : Option String}, space.filter (fun space => !space.isEmpty) = none →
      space = none ∨ space = some "" := by
    rintro (_ | space) none
    · exact .inl rfl
    · exact .inr (by simpa using none)
  refine ⟨names, ?_⟩
  cases kept : space.filter fun space => !space.isEmpty with
  | some found =>
    rw [kept] at spaces
    rw [(Option.filter_eq_some_iff.mp kept).1, (Option.filter_eq_some_iff.mp spaces.symm).1]
    exact .inl rfl
  | none =>
    rw [kept] at spaces
    rcases lost kept with rfl | rfl <;> rcases lost spaces.symm with rfl | rfl
    · exact .inl rfl
    · exact .inr (.inl ⟨rfl, rfl⟩)
    · exact .inr (.inr ⟨rfl, rfl⟩)
    · exact .inl rfl

theorem fullnameOf_some {space : String} (hs : fullnameFault? space = none)
    (h : nameFault? name = none) : fullnameOf name (some space) = qualify space name :=
  fullnameOf_undotted hs (hasDot_of_name h)

end SchemaBinding
