import SchemaBinding.Schema.Basic

/-!
# Equality of schemas

Defaults are compared as documents, in which the order of members does not count.
-/

namespace SchemaBinding

def beqDefault : Option Json → Option Json → Bool
  | none, none => true
  | some a, some b => a == b
  | _, _ => false

mutual

def Schema.beq : Schema → Schema → Bool
  | .primitive p, .primitive q => p == q
  | .record role a, .record role' b => role == role' && RecordSchema.beq a b
  | .enumeration a, .enumeration b => a == b
  | .array a, .array b => Schema.beq a b
  | .map a, .map b => Schema.beq a b
  | .union as, .union bs => Schema.beqList as bs
  | .fixed a, .fixed b => a == b
  | .reference n k, .reference n' k' => n == n' && k == k'
  | _, _ => false

def RecordSchema.beq : RecordSchema → RecordSchema → Bool
  | ⟨name, space, fields, doc, aliases⟩, ⟨name', space', fields', doc', aliases'⟩ =>
    name == name' && space == space' && Field.beqList fields fields' && doc == doc'
      && aliases == aliases'

def Field.beq : Field → Field → Bool
  | ⟨name, type, fromRegistry, default, order⟩, ⟨name', type', fromRegistry', default', order'⟩ =>
    name.text == name'.text && Schema.beq type type' && fromRegistry == fromRegistry'
      && beqDefault default default' && order == order'

def Field.beqList : List Field → List Field → Bool
  | [], [] => true
  | a :: as, b :: bs => Field.beq a b && Field.beqList as bs
  | _, _ => false

def Schema.beqList : List Schema → List Schema → Bool
  | [], [] => true
  | a :: as, b :: bs => Schema.beq a b && Schema.beqList as bs
  | _, _ => false

end

instance : BEq Schema := ⟨Schema.beq⟩

end SchemaBinding
