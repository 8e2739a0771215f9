/-!
# Writing JSON

The values that the program prints, and their text over several lines.
-/

namespace JobIndex.Json

/-- A value to be printed. -/
inductive Value where
  | null
  | boolean (b : Bool)
  | natural (n : Nat)
  | text (s : String)
  | list (items : List Value)
  | object (fields : List (String × Value))
deriving Repr

namespace Value

/-- A value that may be missing. -/
def optional {α : Type} (f : α → Value) : Option α → Value
  | none => .null
  | some a => f a

/-- A list of texts. -/
def texts (items : List String) : Value :=
  .list (items.map .text)

/-- The digit for a number below sixteen. -/
def hexDigit (n : Nat) : Char :=
  if n < 10 then Char.ofNat (48 + n) else Char.ofNat (87 + n)

/-- How a character of a text is written. -/
def escapeChar (c : Char) : List Char :=
  if c == '\x22' then ['\\', '\x22']
  else if c == '\\' then ['\\', '\\']
  else if c == '\x08' then ['\\', 'b']
  else if c == '\x0c' then ['\\', 'f']
  else if c == '\n' then ['\\', 'n']
  else if c == '\r' then ['\\', 'r']
  else if c == '\t' then ['\\', 't']
  else if c.toNat < 32 then
    ['\\', 'u', '0', '0', hexDigit (c.toNat / 16), hexDigit (c.toNat % 16)]
  else [c]

/-- A text between quotes. -/
def quote (s : String) : String :=
  "\x22" ++ String.ofList (s.toList.flatMap escapeChar) ++ "\x22"

/-- The start of a line at a depth. -/
def lineStart (depth : Nat) : String :=
  "\n" ++ String.ofList (List.replicate (2 * depth) ' ')

mutual

/-- The text of a value at a depth: each item and each field stands on a line of its own. -/
def render (depth : Nat) : Value → String
  | .null => "null"
  | .boolean true => "true"
  | .boolean false => "false"
  | .natural n => toString n
  | .text s => quote s
  | .list [] => "[]"
  | .list (v :: items) =>
    "[" ++ lineStart (depth + 1) ++ render (depth + 1) v ++ renderItems (depth + 1) items
      ++ lineStart depth ++ "]"
  | .object [] => "\x7b\x7d"
  | .object ((key, v) :: fields) =>
    "\x7b" ++ lineStart (depth + 1) ++ quote key ++ ": " ++ render (depth + 1) v
      ++ renderFields (depth + 1) fields ++ lineStart depth ++ "\x7d"

/-- The text of the items after the first one. -/
def renderItems (depth : Nat) : List Value → String
  | [] => ""
  | v :: items => "," ++ lineStart depth ++ render depth v ++ renderItems depth items

/-- The text of the fields after the first one. -/
def renderFields (depth : Nat) : List (String × Value) → String
  | [] => ""
  | (key, v) :: fields =>
    "," ++ lineStart depth ++ quote key ++ ": " ++ render depth v ++ renderFields depth fields

end

/-- The text of a value. -/
def pretty (v : Value) : String :=
  v.render 0

end Value

end JobIndex.Json
