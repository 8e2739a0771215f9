import JobIndex.Json.Fault
import JobIndex.Text.Utf8

/-!
# Reading JSON

Readers for the values that a program asks for: each takes one value from the front of a text, or
says what stands there instead. The text is read once from left to right, so that the first fault
counts. A fault is placed either after the bytes that were taken or after the byte that comes next.
-/

namespace JobIndex.Json

/-! ### The cursor -/

/-- What is left of a text, and the line and the column where that begins. -/
structure Cursor where
  rest : List UInt8
  line : Nat
  column : Nat
deriving Repr

namespace Cursor

/-- The start of a text. -/
def ofBytes (bytes : List UInt8) : Cursor where
  rest := bytes
  line := 1
  column := 0

/-- The cursor after a byte, which `bs` follow. -/
def past (c : Cursor) (b : UInt8) (bs : List UInt8) : Cursor :=
  if b == 10 then ⟨bs, c.line + 1, 0⟩ else ⟨bs, c.line, c.column + 1⟩

/-- The cursor after the byte that comes next. -/
def next (c : Cursor) : Cursor :=
  match c.rest with
  | [] => c
  | b :: bs => c.past b bs

/-- The cursor after the bytes that come next and pass a test. -/
def skipFrom (test : UInt8 → Bool) : List UInt8 → Cursor → Cursor
  | [], c => c
  | b :: bs, c => if test b then skipFrom test bs (c.past b bs) else c

/-- A fault placed after the bytes that were taken. -/
def fault (c : Cursor) (cause : Cause) : Fault :=
  ⟨cause, c.line, c.column⟩

end Cursor

/-- A reader takes a value from the front of a text. -/
abbrev Reader := StateT Cursor (Except Fault)

/-! ### Bytes -/

/-- Fails after the bytes that were taken. -/
def fail {α : Type} (cause : Cause) : Reader α :=
  fun c => .error (c.fault cause)

/-- Fails after the byte that comes next. -/
def failNext {α : Type} (cause : Cause) : Reader α :=
  fun c => .error (c.next.fault cause)

/-- The byte that comes next. -/
def peek? : Reader (Option UInt8) :=
  fun c => .ok (c.rest.head?, c)

/-- Passes over a byte. -/
def advance : Reader Unit :=
  fun c => .ok ((), c.next)

/-- Takes a byte. -/
def take? : Reader (Option UInt8) := do
  let b ← peek?
  advance
  return b

/-- Passes over the bytes that pass a test. -/
def skipWhile (test : UInt8 → Bool) : Reader Unit :=
  fun c => .ok ((), Cursor.skipFrom test c.rest c)

/-- The number of bytes that are left. -/
def remaining : Reader Nat :=
  fun c => .ok (c.rest.length, c)

/-- Whether a byte is white space. -/
def isBlank (b : UInt8) : Bool :=
  b == 32 || b == 10 || b == 9 || b == 13

/-- Whether a byte is a digit. -/
def isDigit (b : UInt8) : Bool :=
  48 ≤ b && b ≤ 57

/-- The byte of an ASCII character. -/
def code (c : Char) : UInt8 :=
  UInt8.ofNat c.toNat

/-- The byte that comes next after white space. -/
def peekPastBlank? : Reader (Option UInt8) := do
  skipWhile isBlank
  peek?

/-! ### Words and numbers -/

/-- The rest of a word. -/
def wordRest : List Char → Reader Unit
  | [] => return ()
  | c :: cs => do
    match ← take? with
    | none => fail .endInValue
    | some b => if b == code c then wordRest cs else fail .word

/-- The largest number of a word of 64 bits. -/
def maxWord : Nat :=
  Nat.pow 2 64 - 1

/-- The number `f · 10 ^ e`, if it is not too large. Divisors are at most `10 ^ 308`, and after a
few of them nothing is left. -/
def scale? : Nat → Float → Int → Option Float
  | 0, _, _ => some 0
  | n + 1, f, e =>
    if e.natAbs ≤ 308 then
      if e ≥ 0 then
        let scaled := f * Float.ofScientific 1 false e.toNat
        if scaled.isInf then none else some scaled
      else some (f / Float.ofScientific 1 false e.natAbs)
    else if f == 0 then some f
    else if e ≥ 0 then none
    else scale? n (f / Float.ofScientific 1 false 308) (e + 308)

/-- The number `digits · 10 ^ e` or its opposite. -/
def floatOf (positive : Bool) (digits : Nat) (e : Int) : Reader Float :=
  match scale? 4 (Float.ofNat digits) e with
  | none => fail .range
  | some f => return if positive then f else -f

/-- The digits of an exponent after the first one, of which the value is given; at most `bound` of
them. There is none if the value becomes too large. -/
def exponentDigits : Nat → Nat → Reader (Option Nat)
  | 0, value => return some value
  | bound + 1, value => do
    match ← peek? with
    | none => return some value
    | some b =>
      if isDigit b then
        advance
        let value := value * 10 + (b.toNat - 48)
        if value ≥ Nat.pow 2 31 then return none else exponentDigits bound value
      else return some value

/-- An exponent, from its letter on, and the number that ends with it. -/
def exponent (positive : Bool) (digits : Nat) (e : Int) : Reader Float := do
  advance
  let sign ← peek?
  if sign == some (code '+') || sign == some (code '-') then
    advance
  let up := sign != some (code '-')
  match ← take? with
  | none => fail .endInValue
  | some b =>
    if isDigit b then
      match ← exponentDigits (← remaining) (b.toNat - 48) with
      | some value => floatOf positive digits (if up then e + value else e - value)
      | none =>
        if digits != 0 && up then fail .range
        skipWhile isDigit
        return if positive then 0 else -0
    else fail .number

/-- What follows the digits of a number that is no whole number of a word: an exponent or
nothing. -/
def exponentOrEnd (positive : Bool) (digits : Nat) (e : Int) : Reader Float := do
  let next ← peek?
  if next == some (code 'e') || next == some (code 'E') then exponent positive digits e
  else floatOf positive digits e

/-- The digits that follow as long as the number they extend fits a word, at most `bound` of them:
the number and how many there are. -/
def wordDigits : Nat → Nat → Nat → Reader (Nat × Nat)
  | 0, digits, count => return (digits, count)
  | bound + 1, digits, count => do
    match ← peek? with
    | none => return (digits, count)
    | some b =>
      let extended := digits * 10 + (b.toNat - 48)
      if isDigit b && decide (extended ≤ maxWord) then
        advance
        wordDigits bound extended (count + 1)
      else return (digits, count)

/-- Whether a digit comes next. -/
def digitNext : Reader Bool := do
  return ((← peek?).map isDigit).getD false

/-- The fraction of a number, from its point on. Digits that do not fit a word are passed over. -/
def fraction (positive : Bool) (digits : Nat) (e : Int) : Reader Float := do
  advance
  let (digits, count) ← wordDigits (← remaining) digits 0
  if ← digitNext then
    skipWhile isDigit
  else if count == 0 then
    match ← peek? with
    | some _ => failNext .number
    | none => failNext .endInValue
  exponentOrEnd positive digits (e - count)

/-- The digits that do not fit a word; they only count. -/
def longDigits : Nat → Nat → Reader Nat
  | 0, count => return count
  | bound + 1, count => do
    if ← digitNext then
      advance
      longDigits bound (count + 1)
    else return count

/-- A whole number of a word with its sign; zero and numbers below the least word become floats if
they are negative. -/
def signed (positive : Bool) (digits : Nat) : Number :=
  if positive then .natural digits
  else if 0 < digits && digits ≤ Nat.pow 2 63 then .negative digits
  else .float (-(Float.ofNat digits))

/-- What follows the digits of a whole number. -/
def numberEnd (positive : Bool) (digits : Nat) (e : Int) (long : Bool) : Reader Number := do
  let next ← peek?
  if next == some (code '.') then return .float (← fraction positive digits e)
  else if next == some (code 'e') || next == some (code 'E') then
    return .float (← exponent positive digits e)
  else if long then return .float (← floatOf positive digits e)
  else return signed positive digits

/-- A number after its sign. -/
def number (positive : Bool) : Reader Number := do
  match ← take? with
  | none => fail .endInValue
  | some b =>
    if b == code '0' then
      if ← digitNext then failNext .number
      numberEnd positive 0 0 false
    else if isDigit b then
      let bound ← remaining
      let (digits, _) ← wordDigits bound (b.toNat - 48) 0
      let long ← longDigits bound 0
      numberEnd positive digits long (long != 0)
    else fail .number

/-! ### Texts -/

/-- The value of a hexadecimal digit. -/
def hexValue? (b : UInt8) : Option Nat :=
  if isDigit b then some (b.toNat - 48)
  else if code 'a' ≤ b && b ≤ code 'f' then some (b.toNat - 87)
  else if code 'A' ≤ b && b ≤ code 'F' then some (b.toNat - 55)
  else none

/-- Four hexadecimal digits. -/
def hexEscape : Reader Nat := do
  if (← remaining) < 4 then
    skipWhile fun _ => true
    fail .endInText
  let a ← take?
  let b ← take?
  let c ← take?
  let d ← take?
  match a.bind hexValue?, b.bind hexValue?, c.bind hexValue?, d.bind hexValue? with
  | some a, some b, some c, some d => return ((a * 16 + b) * 16 + c) * 16 + d
  | _, _, _, _ => fail .escape

/-- A byte of the second half of a pair of escapes. -/
def pairByte (c : Char) : Reader Unit := do
  match ← peek? with
  | none => fail .endInText
  | some b =>
    advance
    if b != code c then fail .surrogateEnd

/-- The character of an escape by number; one beyond the basic plane is a pair of escapes. -/
def unicodeEscape : Reader (List UInt8) := do
  let n ← hexEscape
  if 0xDC00 ≤ n && n ≤ 0xDFFF then fail .surrogate
  if n < 0xD800 || 0xDBFF < n then return Text.encodeCode n
  pairByte '\\'
  pairByte 'u'
  let m ← hexEscape
  if m < 0xDC00 || 0xDFFF < m then fail .surrogate
  return Text.encodeCode (0x10000 + (n - 0xD800) * 1024 + (m - 0xDC00))

/-- The byte that a letter after a backslash stands for. -/
def shortEscape? (b : UInt8) : Option UInt8 :=
  if b == code '\x22' || b == code '\\' || b == code '/' then some b
  else if b == code 'b' then some 8
  else if b == code 'f' then some 12
  else if b == code 'n' then some 10
  else if b == code 'r' then some 13
  else if b == code 't' then some 9
  else none

/-- An escape after its backslash, as bytes. -/
def escape : Reader (List UInt8) := do
  match ← take? with
  | none => fail .endInText
  | some b =>
    if b == code 'u' then unicodeEscape
    else match shortEscape? b with
      | some e => return [e]
      | none => fail .escape

/-- An escape after its backslash that is passed over, whatever character it stands for. -/
def skipEscape : Reader Unit := do
  match ← take? with
  | none => fail .endInText
  | some b =>
    if b == code 'u' then
      let _ ← hexEscape
    else if (shortEscape? b).isNone then fail .escape

/-- The bytes of a text after its opening quote, following those that are done, which are in
reverse; at most `bound` steps. -/
def textBytes : Nat → List UInt8 → Reader (List UInt8)
  | 0, _ => fail .endInText
  | bound + 1, done => do
    match ← take? with
    | none => fail .endInText
    | some b =>
      if b == code '\x22' then return done.reverse
      else if b == code '\\' then
        let bytes ← escape
        textBytes bound (bytes.reverse ++ done)
      else if b < 32 then fail .control
      else textBytes bound (b :: done)

/-- Fails so many bytes before the end of those that were taken. -/
def failBefore {α : Type} (n : Nat) (cause : Cause) : Reader α :=
  fun c => .error ⟨cause, c.line, c.column - n⟩

/-- A text after its opening quote. Bytes that are no text are placed by counting back from the
closing quote those bytes that follow the last whole character. -/
def textBody : Reader String := do
  let bytes ← textBytes ((← remaining) + 1) []
  match Text.decode bytes with
  | .ok text => return text
  | .error e => failBefore (bytes.length - e.index) .codePoint

/-- Passes over a text after its opening quote; at most `bound` steps. -/
def skipTextBody : Nat → Reader Unit
  | 0 => fail .endInText
  | bound + 1 => do
    match ← peek? with
    | none => fail .endInText
    | some b =>
      if b == code '\x22' then advance
      else if b == code '\\' then
        advance
        skipEscape
        skipTextBody bound
      else if b < 32 then fail .control
      else
        advance
        skipTextBody bound

/-- Passes over a text after its opening quote. -/
def skipText : Reader Unit := do
  skipTextBody ((← remaining) + 1)

/-! ### Values that are asked for -/

/-- What stands at a place. Lists and objects are not read. -/
def found (b : UInt8) : Reader Found := do
  if b == code 'n' then
    advance
    wordRest ['u', 'l', 'l']
    return .null
  else if b == code 't' then
    advance
    wordRest ['r', 'u', 'e']
    return .boolean true
  else if b == code 'f' then
    advance
    wordRest ['a', 'l', 's', 'e']
    return .boolean false
  else if b == code '-' then
    advance
    return .number (← number false)
  else if isDigit b then return .number (← number true)
  else if b == code '\x22' then
    advance
    return .text (← textBody)
  else if b == code '[' then return .list
  else if b == code '\x7b' then return .object
  else failNext .value

/-- Fails because a value of another kind stands at a place. -/
def mismatch {α : Type} (expected : String) (b : UInt8) : Reader α := do
  let found ← found b
  fail (.kind found expected)

/-- The first byte of a value. -/
def valueStart : Reader UInt8 := do
  match ← peekPastBlank? with
  | none => failNext .endInValue
  | some b => return b

/-- A text; `expected` tells what is asked for. -/
def text (expected : String) : Reader String := do
  let b ← valueStart
  if b == code '\x22' then
    advance
    textBody
  else mismatch expected b

/-- One of the two truth values. -/
def boolean : Reader Bool := do
  let b ← valueStart
  if b == code 't' then
    advance
    wordRest ['r', 'u', 'e']
    return true
  else if b == code 'f' then
    advance
    wordRest ['a', 'l', 's', 'e']
    return false
  else mismatch "a boolean" b

/-- A whole number that fits a word and is not negative. -/
def word : Reader Nat := do
  let b ← valueStart
  let positive := b != code '-'
  if positive && !isDigit b then
    mismatch "u64" b
  else
    unless positive do
      advance
    match ← number positive with
    | .natural n => return n
    | .negative n => fail (.bounds (.number (.negative n)) "u64")
    | .float f => fail (.kind (.number (.float f)) "u64")

/-! ### Lists and objects -/

/-- Whether another item follows in a list. -/
def listHasNext (first : Bool) : Reader Bool := do
  match ← peekPastBlank? with
  | none => failNext .endInList
  | some b =>
    if b == code ']' then return false
    else if b == code ',' && !first then
      advance
      match ← peekPastBlank? with
      | none => failNext .endInValue
      | some b => if b == code ']' then failNext .trailingComma else return true
    else if first then return true
    else failNext .listSeparator

/-- The end of a list. -/
def listEnd : Reader Unit := do
  match ← peekPastBlank? with
  | none => failNext .endInList
  | some b =>
    if b == code ']' then advance
    else if b == code ',' then
      advance
      match ← peekPastBlank? with
      | some b => if b == code ']' then failNext .trailingComma else failNext .trailingText
      | none => failNext .trailingText
    else failNext .trailingText

/-- The items of a list after its bracket, each read by `item`, at most `bound` of them. -/
def items {α : Type} (item : Reader α) : Nat → Bool → Reader (List α)
  | 0, _ => return []
  | bound + 1, first => do
    if ← listHasNext first then
      let a ← item
      let rest ← items item bound false
      return a :: rest
    else return []

/-- A list, of which each item is read by `item`. -/
def list {α : Type} (item : Reader α) : Reader (List α) := do
  let b ← valueStart
  if b == code '[' then
    advance
    let all ← items item (← remaining) true
    listEnd
    return all
  else mismatch "a sequence" b

/-- The next key of an object, if another one follows. -/
def key? (first : Bool) : Reader (Option String) := do
  match ← peekPastBlank? with
  | none => failNext .endInObject
  | some b =>
    if b == code '\x7d' then return none
    else if !first && b != code ',' then failNext .objectSeparator
    else
      unless first do
        advance
      match ← peekPastBlank? with
      | none => failNext .endInValue
      | some b =>
        if b == code '\x22' then
          advance
          return some (← textBody)
        else if b == code '\x7d' then failNext .trailingComma
        else failNext .key

/-- The colon after a key. -/
def colon : Reader Unit := do
  match ← peekPastBlank? with
  | none => failNext .endInObject
  | some b => if b == code ':' then advance else failNext .colon

/-- The end of an object. -/
def objectEnd : Reader Unit := do
  match ← peekPastBlank? with
  | none => failNext .endInObject
  | some b =>
    if b == code '\x7d' then advance
    else if b == code ',' then failNext .trailingComma
    else failNext .trailingText

/-- Fails because a field is given twice; the blame falls behind the end of the object if that comes
next. -/
def repeated {α : Type} (field : String) : Reader α := do
  let b ← peekPastBlank?
  if b == some (code '\x7d') then
    advance
  fail (.repeated field)

/-! ### Values that are passed over -/

/-- The kinds of collections. -/
inductive Frame where
  | list
  | object
deriving Repr, DecidableEq

/-- The bracket that ends a collection. -/
def Frame.close : Frame → UInt8
  | .list => code ']'
  | .object => code '\x7d'

/-- The exponent of a number, from its letter on. -/
def skipExponent : Reader Unit := do
  advance
  let sign ← peek?
  if sign == some (code '+') || sign == some (code '-') then
    advance
  match ← take? with
  | none => fail .number
  | some b => if isDigit b then skipWhile isDigit else fail .number

/-- The exponent of a number, if there is one. -/
def skipExponentOrEnd : Reader Unit := do
  let next ← peek?
  if next == some (code 'e') || next == some (code 'E') then skipExponent

/-- A number after its sign. -/
def skipNumber : Reader Unit := do
  match ← take? with
  | none => fail .number
  | some b =>
    if b == code '0' then
      if ← digitNext then failNext .number
    else if isDigit b then skipWhile isDigit
    else fail .number
    if (← peek?) == some (code '.') then
      advance
      unless ← digitNext do
        failNext .number
      skipWhile isDigit
    skipExponentOrEnd

/-- Passes over a value that is no collection, or over the opening bracket of one. -/
def skipStart : Reader (Option Frame) := do
  let b ← valueStart
  if b == code '[' then
    advance
    return some .list
  else if b == code '\x7b' then
    advance
    return some .object
  else
    if b == code 'n' then
      advance
      wordRest ['u', 'l', 'l']
    else if b == code 't' then
      advance
      wordRest ['r', 'u', 'e']
    else if b == code 'f' then
      advance
      wordRest ['a', 'l', 's', 'e']
    else if b == code '-' then
      advance
      skipNumber
    else if isDigit b then skipNumber
    else if b == code '\x22' then
      advance
      skipText
    else failNext .value
    return none

/-- Passes over the ends of collections up to the next item: the collections that are still open,
the innermost first. `done` tells that an item of the innermost one has just ended. -/
def skipEnds : List Frame → Bool → Reader (List Frame)
  | [], _ => return []
  | frame :: frames, done => do
    match ← peekPastBlank? with
    | none => failNext (match frame with
        | .list => .endInList
        | .object => .endInObject)
    | some b =>
      if b == code ',' && done then
        advance
        return frame :: frames
      else if b == frame.close then
        advance
        skipEnds frames true
      else if done then failNext (match frame with
        | .list => .listSeparator
        | .object => .objectSeparator)
      else return frame :: frames

/-- Passes over a key and its colon. -/
def skipKey : Reader Unit := do
  match ← peekPastBlank? with
  | none => failNext .endInObject
  | some b =>
    if b == code '\x22' then
      advance
      skipText
      colon
    else failNext .key

/-- Passes over the values that are left in open collections, at most `bound` of them. -/
def skipItems : Nat → List Frame → Reader Unit
  | 0, _ => failNext .endInValue
  | bound + 1, frames => do
    let opened ← skipStart
    let frames ← match opened with
      | some frame => skipEnds (frame :: frames) false
      | none => skipEnds frames true
    match frames with
    | [] => return ()
    | frame :: frames =>
      if frame == .object then skipKey
      skipItems bound (frame :: frames)

/-- Passes over a value. -/
def skip : Reader Unit := do
  skipItems ((← remaining) + 1) []

/-! ### Whole texts -/

/-- What a reader takes from a whole text, after which only white space may follow. -/
def parse {α : Type} (reader : Reader α) (bytes : List UInt8) : Except Fault α := do
  let whole : Reader α := do
    let a ← reader
    match ← peekPastBlank? with
    | none => return a
    | some _ => failNext .trailingText
  let (a, _) ← whole.run (Cursor.ofBytes bytes)
  return a

end JobIndex.Json
