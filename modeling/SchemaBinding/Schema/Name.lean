/-!
# Names

A simple name is an ASCII identifier, and a full name is simple names joined by dots.
-/

namespace SchemaBinding

inductive NameFault where
  | empty
  | badStart
  | badCharacter (c : Char)
  /-- A part between dots has a fault of its own. -/
  | inComponent (part : String) (fault : NameFault)
deriving DecidableEq, Repr

def NameFault.message : NameFault → String
  | .empty => "name cannot be empty"
  | .badStart => "must start with a letter or underscore"
  | .badCharacter c =>
    "contains invalid character '" ++ c.toString ++ "' (only alphanumeric and underscore allowed)"
  | .inComponent part fault => "component '" ++ part ++ "' " ++ fault.message

/-! ## Simple names -/

def isNameStart (c : Char) : Bool := c.isAlpha || c == '_'

def isNameChar (c : Char) : Bool := c.isAlphanum || c == '_'

/-- The first fault of the characters as a simple name. -/
def nameFaultOf? : List Char → Option NameFault
  | [] => some .empty
  | c :: cs =>
    if isNameStart c then (cs.find? fun d => !isNameChar d).map .badCharacter else some .badStart

def nameFault? (text : String) : Option NameFault := nameFaultOf? text.toList

structure Name where
  text : String
  wellFormed : nameFault? text = none

theorem Name.ext {a b : Name} (h : a.text = b.text) : a = b := by
  cases a; cases b; cases h; rfl

/-! ## Full names -/

/-- The parts of a text between its dots. There is always one more part than there are dots. -/
def splitDots : List Char → List (List Char)
  | [] => [[]]
  | c :: cs =>
    if c = '.' then [] :: splitDots cs
    else
      match splitDots cs with
      | [] => [[c]]
      | part :: parts => (c :: part) :: parts

def joinDots : List (List Char) → List Char
  | [] => []
  | [part] => part
  | part :: next :: parts => part ++ '.' :: joinDots (next :: parts)

theorem splitDots_ne_nil (cs : List Char) : splitDots cs ≠ [] := by
  cases cs with
  | nil => simp [splitDots]
  | cons c cs =>
    unfold splitDots
    split
    · simp
    · split <;> simp

theorem joinDots_cons {part : List Char} {parts : List (List Char)} (h : parts ≠ []) :
    joinDots (part :: parts) = part ++ '.' :: joinDots parts := by
  cases parts with
  | nil => exact absurd rfl h
  | cons => rfl

theorem joinDots_splitDots (cs : List Char) : joinDots (splitDots cs) = cs := by
  induction cs with
  | nil => rfl
  | cons c cs ih =>
    unfold splitDots
    split
    · next h => rw [joinDots_cons (splitDots_ne_nil cs), ih, h]; rfl
    · cases hs : splitDots cs with
      | nil => exact absurd hs (splitDots_ne_nil cs)
      | cons part parts =>
        rw [hs] at ih
        cases parts with
        | nil => simpa [joinDots] using ih
        | cons next parts => simpa [joinDots] using ih

/-- The first fault of a full name: that of its leftmost malformed part. -/
def fullnameFault? (text : String) : Option NameFault :=
  (splitDots text.toList).findSome? fun part =>
    (nameFaultOf? part).map (.inComponent (String.ofList part))

/--
Splits a text at its last dot: what stands before the dot, if there is one, and the simple name
after it.
-/
def splitLast (text : String) : Option String × String :=
  match (splitDots text.toList).reverse with
  | last :: before@(_ :: _) =>
    (some (String.ofList (joinDots before.reverse)), String.ofList last)
  | _ => (none, text)

def hasDot (text : String) : Bool := text.toList.contains '.'

def qualify (space name : String) : String := space ++ "." ++ name

end SchemaBinding
