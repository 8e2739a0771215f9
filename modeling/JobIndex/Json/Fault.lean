import JobIndex.Decimal.Shortest
import JobIndex.Text.Quoted

/-!
# Faults in JSON

Why a text is not the JSON that is asked for, and where. `Fault.message` is the one place where
reasons become words.
-/

namespace JobIndex.Json

/-- A number as it is written: whole and not negative, whole and negative, or any other. -/
inductive Number where
  | natural (n : Nat)
  | negative (n : Nat)
  | float (value : Float)
deriving Repr

/-- What stands where something else is expected. -/
inductive Found where
  | null
  | boolean (value : Bool)
  | number (n : Number)
  | text (value : String)
  | list
  | object
deriving Repr

/-- The words for what stands where something else is expected. -/
def Found.message : Found → String
  | .null => "null"
  | .boolean true => "boolean `true`"
  | .boolean false => "boolean `false`"
  | .number (.natural n) => "integer `" ++ toString n ++ "`"
  | .number (.negative n) => "integer `-" ++ toString n ++ "`"
  | .number (.float value) => "floating point `" ++ Decimal.floatText value ++ "`"
  | .text value => "string " ++ Text.quoted value
  | .list => "sequence"
  | .object => "map"

/-- Why a text is not the JSON that is asked for. -/
inductive Cause where
  | endInList
  | endInObject
  | endInText
  | endInValue
  | colon
  | listSeparator
  | objectSeparator
  | word
  | value
  | escape
  | number
  | range
  | codePoint
  | control
  | key
  | surrogate
  | surrogateEnd
  | trailingComma
  | trailingText
  /-- A value of another kind. -/
  | kind (found : Found) (expected : String)
  /-- A value of the right kind that is too large or too small. -/
  | bounds (found : Found) (expected : String)
  /-- A field that is given twice. -/
  | repeated (field : String)
deriving Repr

namespace Cause

/-- The words for a reason. -/
def message : Cause → String
  | .endInList => "EOF while parsing a list"
  | .endInObject => "EOF while parsing an object"
  | .endInText => "EOF while parsing a string"
  | .endInValue => "EOF while parsing a value"
  | .colon => "expected `:`"
  | .listSeparator => "expected `,` or `]`"
  | .objectSeparator => "expected `,` or `\x7d`"
  | .word => "expected ident"
  | .value => "expected value"
  | .escape => "invalid escape"
  | .number => "invalid number"
  | .range => "number out of range"
  | .codePoint => "invalid unicode code point"
  | .control => "control character (\\u0000-\\u001F) found while parsing a string"
  | .key => "key must be a string"
  | .surrogate => "lone leading surrogate in hex escape"
  | .surrogateEnd => "unexpected end of hex escape"
  | .trailingComma => "trailing comma"
  | .trailingText => "trailing characters"
  | .kind found expected => "invalid type: " ++ found.message ++ ", expected " ++ expected
  | .bounds found expected => "invalid value: " ++ found.message ++ ", expected " ++ expected
  | .repeated field => "duplicate field `" ++ field ++ "`"

end Cause

/-- The kinds of reasons: the text is no JSON, it is JSON of another shape, or it ends too early. -/
inductive Category where
  | grammar
  | data
  | ending
deriving Repr, DecidableEq

/-- The kind of a reason. -/
def Cause.category : Cause → Category
  | .endInList | .endInObject | .endInText | .endInValue => .ending
  | .kind .. | .bounds .. | .repeated .. => .data
  | _ => .grammar

/-- A reason and the place it is found at: a line, counted from one, and the bytes of that line up
to there. -/
structure Fault where
  cause : Cause
  line : Nat
  column : Nat
deriving Repr

/-- The words for a fault. -/
def Fault.message (f : Fault) : String :=
  f.cause.message ++ " at line " ++ toString f.line ++ " column " ++ toString f.column

end JobIndex.Json
