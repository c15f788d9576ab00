import SchemaBinding.Schema.Kind

/-!
# Values

The values that pass between objects and encoded records.
-/

namespace SchemaBinding

inductive Value where
  | null
  | boolean (b : Bool)
  | int (n : Int32)
  | long (n : Int64)
  | float (x : Float32)
  | double (x : Float)
  | bytes (data : List UInt8)
  | string (s : String)
  /-- Fields in order. -/
  | record (fields : List (String × Value))
  | enumeration (index : Int32) (symbol : String)
  | array (items : List Value)
  /-- Entries in order of insertion. -/
  | map (entries : List (String × Value))
  | union (branch : Int32) (content : Value)
  | fixed (data : List UInt8)

instance : Inhabited Value := ⟨.null⟩

namespace Value

def kind : Value → Kind
  | .null => .primitive .null
  | .boolean _ => .primitive .boolean
  | .int _ => .primitive .int
  | .long _ => .primitive .long
  | .float _ => .primitive .float
  | .double _ => .primitive .double
  | .bytes _ => .primitive .bytes
  | .string _ => .primitive .string
  | .record _ => .record
  | .enumeration .. => .enumeration
  | .array _ => .array
  | .map _ => .map
  | .union .. => .union
  | .fixed _ => .fixed

/-- The first field with a name, if the value is a record. -/
def field? (name : String) : Value → Option Value
  | .record fields => fields.lookup name
  | _ => none

def unwrap : Value → Value
  | .union _ content => content.unwrap
  | value => value

@[simp]
theorem unwrap_union (branch : Int32) (content : Value) :
    (union branch content).unwrap = content.unwrap := rfl

theorem unwrap_ne_union (v : Value) (branch : Int32) (content : Value) :
    v.unwrap ≠ .union branch content := by
  fun_induction unwrap v with
  | case1 _ _ ih => exact ih
  | case2 v h => exact h branch content

theorem unwrap_of_bare {v : Value} (bare : ∀ branch content, v ≠ union branch content) :
    v.unwrap = v := by
  cases v with
  | union branch content => exact absurd rfl (bare branch content)
  | _ => rfl

/-! ## Equality -/

mutual

/-- Equality part by part. Floating-point numbers compare as numbers: no NaN equals itself. -/
def beq : Value → Value → Bool
  | .null, .null => true
  | .boolean a, .boolean b => a == b
  | .int a, .int b => a == b
  | .long a, .long b => a == b
  | .float a, .float b => a == b
  | .double a, .double b => a == b
  | .bytes a, .bytes b => a == b
  | .string a, .string b => a == b
  | .record a, .record b => beqEntries a b
  | .enumeration i a, .enumeration j b => i == j && a == b
  | .array a, .array b => beqItems a b
  | .map a, .map b => beqEntries a b
  | .union i a, .union j b => i == j && beq a b
  | .fixed a, .fixed b => a == b
  | _, _ => false

def beqItems : List Value → List Value → Bool
  | [], [] => true
  | a :: as, b :: bs => beq a b && beqItems as bs
  | _, _ => false

def beqEntries : List (String × Value) → List (String × Value) → Bool
  | [], [] => true
  | (m, a) :: as, (n, b) :: bs => m == n && beq a b && beqEntries as bs
  | _, _ => false

end

instance : BEq Value := ⟨beq⟩

end Value

end SchemaBinding
