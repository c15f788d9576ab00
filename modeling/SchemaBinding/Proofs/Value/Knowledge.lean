import SchemaBinding.Proofs.Value.Termination

/-!
# Tables that know more names

A value that conforms when more names are known conforms when fewer are.
-/

namespace SchemaBinding

/-- Every entry of the table is in the other one too, unchanged. -/
def Definitions.Within (known more : Definitions) : Prop :=
  ∀ fullname schema, known.find? fullname = some schema → more.find? fullname = some schema

variable {known more : Definitions}

theorem Definitions.Within.unionFree (h : known.Within more) (unionFree : more.UnionFree) :
    known.UnionFree :=
  fun fullname schema found => unionFree fullname schema (h fullname schema found)

theorem Definitions.Within.resolve? (h : known.Within more) {fullname : String}
    {definition : Schema} (found : known.resolve? fullname = some definition) :
    more.resolve? fullname = some definition := by
  obtain ⟨entry, complete⟩ := resolve?_eq_some.mp found
  exact resolve?_eq_some.mpr ⟨h fullname definition entry, complete⟩

namespace Value

/-- What conforms still does when entries of the table are taken away. -/
theorem conforms_antitone (within : known.Within more) (unionFree : more.UnionFree) (v : Value)
    (s : Schema) (h : v.conforms s more = true) : v.conforms s known = true := by
  induction v, s using question_induction unionFree with
  | step v s ih =>
    rw [conforms_eq_answer unionFree] at h
    rw [conforms_eq_answer (within.unionFree unionFree)]
    exact answer_mono (fun _ _ => within.resolve?) ih h

namespace Ivy

def hosts : Definitions := ⟨[("Host", host)]⟩

theorem hosts_within_table : hosts.Within table := by
  intro fullname schema found
  rw [hosts, Definitions.find?, Definitions.lookup_cons] at found
  rw [table, Definitions.find?, Definitions.lookup_cons]
  split at found
  · next same => rw [if_pos same, found]
  · cases found

end Ivy

theorem conforms_antitone_ivy :
    Ivy.grove.conforms Ivy.host Ivy.hosts = true ∧
    (Ivy.bearing (.int 1)).conforms Ivy.host Ivy.hosts = true ∧
    (Ivy.bearing (.int 1)).conforms Ivy.host Ivy.table = false :=
  ⟨conforms_antitone Ivy.hosts_within_table Ivy.table_unionFree Ivy.grove Ivy.host rfl, rfl, rfl⟩

end Value

end SchemaBinding
