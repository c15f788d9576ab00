/-!
# Outlines

One-line descriptions of structured data.
-/

namespace SchemaBinding.Outline

def escape (c : Char) : String :=
  if c = '"' then "\\\""
  else if c = '\\' then "\\\\"
  else if c = '\n' then "\\n"
  else if c = '\r' then "\\r"
  else if c = '\t' then "\\t"
  else if c = '\x00' then "\\0"
  else if c.toNat < 0x20 ∨ c = '\x7f' then
    "\\u\x7b" ++ String.ofList (Nat.toDigits 16 c.toNat) ++ "\x7d"
  else c.toString

def string (s : String) : String :=
  "\"" ++ s.toList.foldl (fun written c => written ++ escape c) "" ++ "\""

def bool (b : Bool) : String := if b then "true" else "false"

def option {α : Type} (outline : α → String) : Option α → String
  | some a => "Some(" ++ outline a ++ ")"
  | none => "None"

def list {α : Type} (outline : α → String) (items : List α) : String :=
  "[" ++ ", ".intercalate (items.map outline) ++ "]"

def struct (name : String) (fields : List (String × String)) : String :=
  let shown := fields.map fun field => field.1 ++ ": " ++ field.2
  name ++ " \x7b " ++ ", ".intercalate shown ++ " \x7d"

def case (name part : String) : String := name ++ "(" ++ part ++ ")"

end SchemaBinding.Outline
