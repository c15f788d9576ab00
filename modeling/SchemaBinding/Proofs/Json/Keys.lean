import SchemaBinding.Json.Reader

/-!
# Keys of documents that were read

No document of a text has a key twice in one object, at any depth.
-/

namespace SchemaBinding.Json

/-! ## Members -/

theorem Members.mem_keys_set {key k : String} {value : Json} {members : Members} :
    k ∈ (members.set key value).map (·.1) ↔ k = key ∨ k ∈ members.map (·.1) := by
  induction members with
  | nil => simp [Members.set]
  | cons member members ih =>
    unfold Members.set
    split
    · next same => simp [same]
    · rw [List.map_cons, List.mem_cons, ih, List.map_cons, List.mem_cons]
      exact or_left_comm

theorem distinctKeys_set {key : String} {value : Json} {members : Members}
    (hm : (obj members).DistinctKeys) (hv : value.DistinctKeys) :
    (obj (members.set key value)).DistinctKeys := by
  rw [distinctKeys_obj] at hm ⊢
  induction members with
  | nil => simpa [Members.set] using hv
  | cons member members ih =>
    obtain ⟨distinct, values⟩ := hm
    obtain ⟨fresh, distinct⟩ := List.nodup_cons.mp distinct
    obtain ⟨own, others⟩ := List.forall_mem_cons.mp values
    unfold Members.set
    split
    · exact ⟨List.nodup_cons.mpr ⟨fresh, distinct⟩, List.forall_mem_cons.mpr ⟨hv, others⟩⟩
    · next other =>
      obtain ⟨distinct', values'⟩ := ih ⟨distinct, others⟩
      refine ⟨List.nodup_cons.mpr ⟨fun again => ?_, distinct'⟩,
        List.forall_mem_cons.mpr ⟨own, values'⟩⟩
      rcases Members.mem_keys_set.mp again with same | again
      · exact other same
      · exact fresh again

/-! ## Tokens -/

namespace Token

/-- A scalar is no object, nor has it one inside. -/
def Plain : Token → Prop
  | .scalar value => value.DistinctKeys
  | _ => True

/-- Whatever a move of the machine puts out is plain. -/
def Puts (move : Option (Mode × List Token)) : Prop :=
  ∀ next tokens, move = some (next, tokens) → ∀ token ∈ tokens, token.Plain

variable {move other : Option (Mode × List Token)} {mode next : Mode} {c : Char} {text : List Char}
  {token : Token} {tokens : List Token}

theorem puts_fail : Puts none := nofun

theorem puts_nothing : Puts (some (next, [])) := by
  rintro _ _ ⟨⟩
  exact List.forall_mem_nil _

theorem puts_one (plain : token.Plain) : Puts (some (next, [token])) := by
  rintro _ _ ⟨⟩
  exact List.forall_mem_singleton.mpr plain

theorem puts_ite {condition : Prop} [Decidable condition] (hm : Puts move) (ho : Puts other) :
    Puts (if condition then move else other) := by
  split
  · exact hm
  · exact ho

theorem puts_bind {α : Type} {first : Option α} {rest : α → Option (Mode × List Token)}
    (hr : ∀ a, Puts (rest a)) : Puts (first >>= rest) := by
  intro next tokens h
  obtain ⟨a, -, h⟩ := Option.bind_eq_some_iff.mp h
  exact hr a next tokens h

theorem puts_start : Puts (start c) := by
  unfold start
  repeat' apply puts_ite
  all_goals first | exact puts_nothing | exact puts_one trivial | exact puts_fail

theorem plain_of_word? {value : Json} (h : word? text = some value) : (scalar value).Plain := by
  unfold word? at h
  split at h
  · cases h; trivial
  · split at h
    · cases h; trivial
    · split at h
      · cases h; trivial
      · cases h

theorem plain_of_finish? (h : finish? mode = some tokens) : ∀ token ∈ tokens, token.Plain := by
  unfold finish? at h
  split at h
  · cases h
    exact List.forall_mem_nil _
  · obtain ⟨n, -, rfl⟩ := Option.map_eq_some_iff.mp h
    exact List.forall_mem_singleton.mpr trivial
  · obtain ⟨value, word, rfl⟩ := Option.map_eq_some_iff.mp h
    exact List.forall_mem_singleton.mpr (plain_of_word? word)
  · cases h

theorem puts_turn : Puts (turn mode c) := by
  intro next tokens h
  obtain ⟨ended, he, h⟩ := Option.bind_eq_some_iff.mp h
  obtain ⟨⟨mode', begun⟩, hb, h⟩ := Option.bind_eq_some_iff.mp h
  cases h
  exact List.forall_mem_append.mpr ⟨plain_of_finish? he, puts_start _ _ hb⟩

theorem puts_step : Puts (step mode c) := by
  cases mode with
  | between => exact puts_start
  | number text => exact puts_ite puts_nothing puts_turn
  | word text => exact puts_ite puts_nothing puts_turn
  | string text =>
    exact puts_ite (puts_one trivial)
      (puts_ite puts_nothing (puts_ite puts_fail puts_nothing))
  | escape text =>
    refine puts_ite puts_nothing ?_
    rw [Option.map_eq_bind]
    exact puts_bind fun plain => puts_nothing
  | unit text high digits value =>
    refine puts_bind fun digit => puts_ite (puts_bind fun mode => ?_) ?_
    · exact puts_nothing
    · exact puts_nothing
  | pair text high => exact puts_ite puts_nothing puts_fail
  | pairEscape text high => exact puts_ite puts_nothing puts_fail

theorem plain_of_run {cs : List Char} (h : run mode cs = some tokens) :
    ∀ token ∈ tokens, token.Plain := by
  induction cs generalizing mode tokens with
  | nil => exact plain_of_finish? h
  | cons c cs ih =>
    unfold run at h
    obtain ⟨⟨next, first⟩, stepped, h⟩ := Option.bind_eq_some_iff.mp h
    obtain ⟨rest, ran, h⟩ := Option.bind_eq_some_iff.mp h
    cases h
    exact List.forall_mem_append.mpr ⟨puts_step next first stepped, ih ran⟩

end Token

/-! ## Reading -/

def Frame.DistinctKeys : Frame → Prop
  | .array items => ∀ item ∈ items, item.DistinctKeys
  | .object members _ => (obj members).DistinctKeys

namespace Reading

/-- Whatever was read so far has each key once. -/
structure DistinctKeys (r : Reading) : Prop where
  stack : ∀ frame ∈ r.stack, frame.DistinctKeys
  document : ∀ document, r.expecting = .nothing document → document.DistinctKeys

variable {r r' : Reading} {stack : List Frame} {token : Token}

theorem distinctKeys_deliver {value : Json} (hv : value.DistinctKeys)
    (hs : ∀ frame ∈ stack, frame.DistinctKeys) : (deliver value stack).DistinctKeys := by
  cases stack with
  | nil =>
    refine ⟨List.forall_mem_nil _, ?_⟩
    rintro document ⟨⟩
    exact hv
  | cons frame rest =>
    obtain ⟨top, below⟩ := List.forall_mem_cons.mp hs
    cases frame with
    | array items =>
      exact ⟨List.forall_mem_cons.mpr ⟨List.forall_mem_cons.mpr ⟨hv, top⟩, below⟩, nofun⟩
    | object members key =>
      exact ⟨List.forall_mem_cons.mpr ⟨distinctKeys_set top hv, below⟩, nofun⟩

theorem distinctKeys_beginValue (plain : token.Plain) (hs : ∀ frame ∈ stack, frame.DistinctKeys)
    (h : beginValue stack token = some r') : r'.DistinctKeys := by
  unfold beginValue enter at h
  split at h
  · cases h
    exact distinctKeys_deliver plain hs
  · cases h
    exact distinctKeys_deliver trivial hs
  · split at h
    · cases h
      exact ⟨List.forall_mem_cons.mpr ⟨List.forall_mem_nil _, hs⟩, nofun⟩
    · cases h
  · split at h
    · cases h
      exact ⟨List.forall_mem_cons.mpr ⟨⟨.nil, trivial⟩, hs⟩, nofun⟩
    · cases h
  · cases h

theorem distinctKeys_close (hs : ∀ frame ∈ stack, frame.DistinctKeys)
    (h : close stack token = some r') : r'.DistinctKeys := by
  unfold close at h
  split at h
  · cases h
    obtain ⟨items, below⟩ := List.forall_mem_cons.mp hs
    refine distinctKeys_deliver (distinctKeys_arr.mpr fun item mem => ?_) below
    exact items item (List.mem_reverse.mp mem)
  · cases h
    obtain ⟨members, below⟩ := List.forall_mem_cons.mp hs
    exact distinctKeys_deliver members below
  · cases h

theorem distinctKeys_beginMember (hs : ∀ frame ∈ stack, frame.DistinctKeys)
    (h : beginMember stack token = some r') : r'.DistinctKeys := by
  unfold beginMember at h
  split at h
  · cases h
    obtain ⟨members, below⟩ := List.forall_mem_cons.mp hs
    exact ⟨List.forall_mem_cons.mpr ⟨members, below⟩, nofun⟩
  · cases h

theorem orElse_eq_some {α : Type} {a : α} {first : Option α} {second : Unit → Option α} :
    first.orElse second = some a ↔ first = some a ∨ first = none ∧ second () = some a := by
  cases first <;> simp

theorem distinctKeys_step (hr : r.DistinctKeys) (plain : token.Plain)
    (h : r.step token = some r') : r'.DistinctKeys := by
  unfold step at h
  split at h
  · exact distinctKeys_beginValue plain hr.stack h
  · rcases orElse_eq_some.mp h with closed | ⟨-, begun⟩
    · exact distinctKeys_close hr.stack closed
    · exact distinctKeys_beginValue plain hr.stack begun
  · rcases orElse_eq_some.mp h with closed | ⟨-, begun⟩
    · exact distinctKeys_close hr.stack closed
    · exact distinctKeys_beginMember hr.stack begun
  · exact distinctKeys_beginMember hr.stack h
  · split at h
    · cases h
      exact ⟨hr.stack, nofun⟩
    · cases h
  · split at h
    · cases h
      exact ⟨hr.stack, nofun⟩
    · cases h
      exact ⟨hr.stack, nofun⟩
    · exact distinctKeys_close hr.stack h
  · cases h

theorem distinctKeys_foldlM {tokens : List Token} (hr : r.DistinctKeys)
    (plain : ∀ token ∈ tokens, token.Plain) (h : tokens.foldlM step r = some r') :
    r'.DistinctKeys := by
  induction tokens generalizing r with
  | nil =>
    cases h
    exact hr
  | cons token tokens ih =>
    obtain ⟨own, others⟩ := List.forall_mem_cons.mp plain
    rw [List.foldlM_cons] at h
    obtain ⟨between, first, rest⟩ := Option.bind_eq_some_iff.mp h
    exact ih (distinctKeys_step hr own first) others rest

end Reading

/-- No object in a document of a text has a key twice, whatever the text repeats. -/
theorem read?_distinctKeys {text : String} {document : Json} (h : read? text = some document) :
    document.DistinctKeys := by
  unfold read? at h
  obtain ⟨tokens, ht, h⟩ := Option.bind_eq_some_iff.mp h
  obtain ⟨reading, hr, h⟩ := Option.bind_eq_some_iff.mp h
  have start : Reading.DistinctKeys ⟨[], .value⟩ := ⟨List.forall_mem_nil _, nofun⟩
  have done := Reading.distinctKeys_foldlM start (Token.plain_of_run ht) hr
  split at h
  · next read =>
    cases h
    exact done.document _ read
  · cases h

end SchemaBinding.Json
