import SchemaBinding.Json.Basic

/-!
# Tokens of a JSON text

A machine that takes one character at a time and puts out tokens, whatever the grammar says.
-/

namespace SchemaBinding.Json

inductive Token where
  | openArray
  | closeArray
  | openObject
  | closeObject
  | comma
  | colon
  | scalar (value : Json)
  | string (s : String)

namespace Token

/-! ## Numbers -/

def natOfDigits (digits : List Char) : Nat :=
  digits.foldl (fun n c => 10 * n + (c.toNat - '0'.toNat)) 0

/-- An unsigned number as written: whole part, fraction and exponent. -/
structure Written where
  whole : List Char
  fraction : Option (List Char)
  exponent : Option Int

/-- Reads `e`, a sign that may be missing, and digits. -/
def exponent? : List Char → Option Int
  | '+' :: digits => value? digits
  | '-' :: digits => (value? digits).map (- ·)
  | digits => value? digits
where
  value? (digits : List Char) : Option Int :=
    if digits.isEmpty || !digits.all Char.isDigit then none else some (natOfDigits digits)

/-- Splits the text of an unsigned number. A whole part has no leading zero. -/
def written? (text : List Char) : Option Written :=
  let whole := text.takeWhile Char.isDigit
  if whole.isEmpty || (decide (1 < whole.length) && whole.head? == some '0') then none
  else
    let afterWhole := text.dropWhile Char.isDigit
    let fraction? : Option (Option (List Char) × List Char) :=
      match afterWhole with
      | '.' :: rest =>
        let digits := rest.takeWhile Char.isDigit
        if digits.isEmpty then none else some (some digits, rest.dropWhile Char.isDigit)
      | rest => some (none, rest)
    fraction?.bind fun (fraction, rest) =>
      match rest with
      | [] => some ⟨whole, fraction, none⟩
      | e :: power =>
        if e = 'e' ∨ e = 'E' then (exponent? power).map fun n => ⟨whole, fraction, some n⟩
        else none

/-- The double nearest to the written number, if it is not beyond the range of doubles. -/
def nearest? (negative : Bool) (w : Written) : Option Number :=
  let fraction := w.fraction.getD []
  let digits := natOfDigits (w.whole ++ fraction)
  let power : Int := w.exponent.getD 0 - fraction.length
  let magnitude := Float.ofScientific digits (decide (power < 0)) power.natAbs
  Number.ofFloat? (if negative then -magnitude else magnitude)

/--
The number of a text. Without fraction and exponent it is an integer when 64 bits hold it; a
negative zero is a double, and so is all else.
-/
def number? (text : List Char) : Option Number :=
  let (negative, digits) :=
    match text with
    | '-' :: rest => (true, rest)
    | rest => (false, rest)
  (written? digits).bind fun w =>
    if w.fraction.isSome || w.exponent.isSome then nearest? negative w
    else
      let n := natOfDigits w.whole
      if negative && n == 0 then nearest? negative w
      else
        let value : Int := if negative then -n else n
        match Number.ofInt? value with
        | some exact => some exact
        | none => nearest? negative w

/-! ## The machine -/

/-- What the machine is in the middle of. Collected characters are the newest first. -/
inductive Mode where
  | between
  | number (text : List Char)
  | word (text : List Char)
  | string (text : List Char)
  | escape (text : List Char)
  /-- Reading the four digits of a UTF-16 unit; `high` is the surrogate read just before. -/
  | unit (text : List Char) (high : Option Nat) (digits : Nat) (value : Nat)
  /-- After a high surrogate: a backslash must follow. -/
  | pair (text : List Char) (high : Nat)
  /-- After a high surrogate and a backslash: `u` must follow. -/
  | pairEscape (text : List Char) (high : Nat)

def isBlank (c : Char) : Bool := c == ' ' || c == '\t' || c == '\n' || c == '\r'

def isNumberChar (c : Char) : Bool :=
  c.isDigit || c == '-' || c == '+' || c == '.' || c == 'e' || c == 'E'

/-- A character between tokens: the next mode and the token it is by itself, if it is one. -/
def start (c : Char) : Option (Mode × List Token) :=
  if isBlank c then some (.between, [])
  else if c = '[' then some (.between, [.openArray])
  else if c = ']' then some (.between, [.closeArray])
  else if c = '\x7b' then some (.between, [.openObject])
  else if c = '\x7d' then some (.between, [.closeObject])
  else if c = ',' then some (.between, [.comma])
  else if c = ':' then some (.between, [.colon])
  else if c = '"' then some (.string [], [])
  else if c = '-' || c.isDigit then some (.number [c], [])
  else if c.isAlpha then some (.word [c], [])
  else none

def word? (text : List Char) : Option Json :=
  if text = "true".toList then some (.bool true)
  else if text = "false".toList then some (.bool false)
  else if text = "null".toList then some .null
  else none

/-- The character that stands after a backslash, unless it starts a UTF-16 unit. -/
def escaped? (c : Char) : Option Char :=
  if c = '"' ∨ c = '\\' ∨ c = '/' then some c
  else if c = 'n' then some '\n'
  else if c = 'r' then some '\r'
  else if c = 't' then some '\t'
  else if c = 'b' then some '\x08'
  else if c = 'f' then some '\x0c'
  else none

def hexDigit? (c : Char) : Option Nat :=
  if c.isDigit then some (c.toNat - '0'.toNat)
  else if 'a' ≤ c ∧ c ≤ 'f' then some (c.toNat - 'a'.toNat + 10)
  else if 'A' ≤ c ∧ c ≤ 'F' then some (c.toNat - 'A'.toNat + 10)
  else none

/-- The mode after a whole UTF-16 unit. A surrogate counts only as half of a pair. -/
def unitRead (text : List Char) (high : Option Nat) (value : Nat) : Option Mode :=
  let isHigh := decide (0xD800 ≤ value ∧ value ≤ 0xDBFF)
  let isLow := decide (0xDC00 ≤ value ∧ value ≤ 0xDFFF)
  match high with
  | some first =>
    if isLow then
      some (.string (Char.ofNat (0x10000 + (first - 0xD800) * 0x400 + (value - 0xDC00)) :: text))
    else none
  | none =>
    if isHigh then some (.pair text value)
    else if isLow then none
    else some (.string (Char.ofNat value :: text))

def finish? : Mode → Option (List Token)
  | .between => some []
  | .number text => (number? text.reverse).map fun n => [.scalar (.num n)]
  | .word text => (word? text.reverse).map fun value => [.scalar value]
  | _ => none

/-- Ends what is being read and starts anew with `c`. -/
def turn (mode : Mode) (c : Char) : Option (Mode × List Token) := do
  let ended ← finish? mode
  let (next, begun) ← start c
  return (next, ended ++ begun)

def step (mode : Mode) (c : Char) : Option (Mode × List Token) :=
  match mode with
  | .between => start c
  | .number text => if isNumberChar c then some (.number (c :: text), []) else turn mode c
  | .word text => if c.isAlpha then some (.word (c :: text), []) else turn mode c
  | .string text =>
    if c = '"' then some (.between, [.string (String.ofList text.reverse)])
    else if c = '\\' then some (.escape text, [])
    else if c.toNat < 0x20 then none
    else some (.string (c :: text), [])
  | .escape text =>
    if c = 'u' then some (.unit text none 4 0, [])
    else (escaped? c).map fun plain => (.string (plain :: text), [])
  | .unit text high digits value => do
    let value := 16 * value + (← hexDigit? c)
    if digits ≤ 1 then return (← unitRead text high value, [])
    else return (.unit text high (digits - 1) value, [])
  | .pair text high => if c = '\\' then some (.pairEscape text high, []) else none
  | .pairEscape text high => if c = 'u' then some (.unit text (some high) 4 0, []) else none

def run (mode : Mode) : List Char → Option (List Token)
  | [] => finish? mode
  | c :: cs => do
    let (next, tokens) ← step mode c
    return tokens ++ (← run next cs)

end Token

def tokens? (text : String) : Option (List Token) := Token.run .between text.toList

end SchemaBinding.Json
