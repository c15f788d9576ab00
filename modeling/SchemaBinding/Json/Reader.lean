import SchemaBinding.Json.Token

/-!
# Reading JSON

A stack of unfinished arrays and objects, and what may come next. Each token is one step, so the
depth of a document is the height of the stack.
-/

namespace SchemaBinding.Json

/-- An array or object whose end has not come yet. -/
inductive Frame where
  /-- The items so far, the newest first. -/
  | array (items : List Json)
  /-- The members so far, and the key whose value is being read. -/
  | object (members : Members) (key : String)

inductive Expecting where
  | value
  | firstItem
  | firstKey
  | key
  | colon
  | separator
  | nothing (document : Json)

/-- The innermost unfinished container is on top. -/
structure Reading where
  stack : List Frame
  expecting : Expecting

namespace Reading

def maxDepth : Nat := 127

/-- A complete value takes its place in the container on top. -/
def deliver (value : Json) : List Frame → Reading
  | [] => ⟨[], .nothing value⟩
  | .array items :: rest => ⟨.array (value :: items) :: rest, .separator⟩
  | .object members key :: rest => ⟨.object (members.set key value) "" :: rest, .separator⟩

def enter (frame : Frame) (expecting : Expecting) (stack : List Frame) : Option Reading :=
  if stack.length < maxDepth then some ⟨frame :: stack, expecting⟩ else none

def beginValue (stack : List Frame) : Token → Option Reading
  | .scalar value => some (deliver value stack)
  | .string s => some (deliver (.str s) stack)
  | .openArray => enter (.array []) .firstItem stack
  | .openObject => enter (.object [] "") .firstKey stack
  | _ => none

def close : List Frame → Token → Option Reading
  | .array items :: rest, .closeArray => some (deliver (.arr items.reverse) rest)
  | .object members _ :: rest, .closeObject => some (deliver (.obj members) rest)
  | _, _ => none

def beginMember : List Frame → Token → Option Reading
  | .object members _ :: rest, .string key => some ⟨.object members key :: rest, .colon⟩
  | _, _ => none

def step (r : Reading) (token : Token) : Option Reading :=
  match r.expecting with
  | .value => beginValue r.stack token
  | .firstItem => (close r.stack token).orElse fun _ => beginValue r.stack token
  | .firstKey => (close r.stack token).orElse fun _ => beginMember r.stack token
  | .key => beginMember r.stack token
  | .colon =>
    match token with
    | .colon => some ⟨r.stack, .value⟩
    | _ => none
  | .separator =>
    match token, r.stack with
    | .comma, .array _ :: _ => some ⟨r.stack, .value⟩
    | .comma, .object .. :: _ => some ⟨r.stack, .key⟩
    | _, _ => close r.stack token
  | .nothing _ => none

end Reading

/-- The document of a text, unless the text is no JSON or nests too deeply. -/
def read? (text : String) : Option Json := do
  let tokens ← tokens? text
  let reading ← tokens.foldlM Reading.step ⟨[], .value⟩
  match reading.expecting with
  | .nothing document => some document
  | _ => none

end SchemaBinding.Json
