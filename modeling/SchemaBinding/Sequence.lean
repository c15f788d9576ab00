import SchemaBinding.Value.Basic

/-!
# Sequences

One way to count, append, clear and iterate, whatever value holds the items. What fails leaves the
value alone.
-/

namespace SchemaBinding

/-- What kind of array is made where none was: with no room yet, or with room for so many items. -/
inductive SequenceKind where
  | list
  | preallocated (capacity : Nat)
deriving DecidableEq, Repr

/-- The array that is made, if there is memory for it. Its room cannot be seen. -/
def SequenceKind.instantiate : SequenceKind → Value
  | .list => .array []
  | .preallocated _ => .array []

structure Sequence where
  value : Value
  kind : SequenceKind := .list

structure SequenceError where
  operation : String
  found : Kind
deriving DecidableEq, Repr

def SequenceError.message (e : SequenceError) : String :=
  e.operation ++ " is not supported on a " ++ e.found.name ++ " value"

abbrev SequenceM := ExceptT SequenceError (StateM Sequence)

namespace Sequence

def count : SequenceM Nat := do
  match (← get).value with
  | .array items => return items.length
  | .map entries => return entries.length
  | other => throw ⟨"count", other.kind⟩

def append (item : Value) : SequenceM Unit := do
  match (← get).value with
  | .array items => modify fun s => { s with value := .array (items ++ [item]) }
  | other => throw ⟨"append", other.kind⟩

def clear : SequenceM Unit := do
  match (← get).value with
  | .array _ => modify fun s => { s with value := .array [] }
  | .map _ => modify fun s => { s with value := .map [] }
  | other => throw ⟨"clear", other.kind⟩

def items : SequenceM (List Value) := do
  match (← get).value with
  | .array items => return items
  | other => throw ⟨"iterate", other.kind⟩

/-- Runs an operation on a value, and gives the value it leaves. -/
def runOn {α : Type} (value : Value) (kind : SequenceKind) (operation : SequenceM α) :
    Except SequenceError α × Value :=
  let (result, after) := operation.run.run { value, kind }
  (result, after.value)

/-- Builds the items of a value into a new sequence of a kind. -/
def rebuild (kind : SequenceKind) (source : Value) : Except SequenceError Value := do
  let items ← (runOn source .list items).1
  let (result, built) := runOn kind.instantiate kind do
    clear
    items.forM append
  result
  return built

end Sequence

/-! ## Room beforehand -/

/-- How large an array can be made at once. A program that asks for a larger one stops there. -/
structure Memory where
  /-- The largest capacity of a new array. -/
  room : Nat
  /-- An array has no more bytes than a signed machine word can count. -/
  bounded : room < 0x8000000000000000

namespace SequenceKind

def fits (memory : Memory) : SequenceKind → Bool
  | .list => true
  | .preallocated capacity => capacity ≤ memory.room

/-- The array that is made; `none` where the program stops. -/
def instantiateIn (memory : Memory) (kind : SequenceKind) : Option Value :=
  if kind.fits memory then some kind.instantiate else none

end SequenceKind

/-- `rebuild`, for as long as the program goes on. A value without items is refused before that. -/
def Sequence.rebuildIn (memory : Memory) (kind : SequenceKind) (source : Value) :
    ExceptT SequenceError Option Value := do
  let items ← (runOn source .list items).1
  let made ← kind.instantiateIn memory
  let (result, built) := runOn made kind do
    clear
    items.forM append
  result
  return built

end SchemaBinding
