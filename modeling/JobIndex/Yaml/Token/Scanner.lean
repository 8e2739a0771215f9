import JobIndex.Yaml.Char
import JobIndex.Yaml.Token

/-!
# The state of reading tokens

A `Scanner` holds the text that is still to be read, the position, the tokens read so far, and
what decides whether a line break, an indentation or a colon starts a mapping. Tokens are kept in
one list, latest first, and never removed: `taken` counts those that have been handed on, and a
key mark or a block start is spliced in at the place in the list where its key began.

The moves of the cursor keep `mark` in step with `rest`. The text is read through a window of
`ahead` characters; the window's size shows only in how far a line of a block scalar moves the
mark, see `JobIndex.Yaml.Token.BlockScalar`.
-/

namespace JobIndex.Yaml

/-- A place where a key without `?` may have begun: the token that would be the key, where it
stands, and whether it has to become a key. -/
structure SimpleKey where
  possible : Bool
  required : Bool
  token : Nat
  mark : Mark
deriving Repr, DecidableEq

/-- The place that is no key. -/
def SimpleKey.none : SimpleKey where
  possible := false
  required := false
  token := 0
  mark := ⟨0, 0, 0⟩

/-- An enclosing indentation, and whether leaving the current one for it closes a block. -/
structure Indent where
  column : Int
  block : Bool
deriving Repr, DecidableEq

/-- The state of reading tokens. -/
structure Scanner where
  /-- The text that is still to be read. -/
  rest : List Char
  /-- The number of characters in the window. -/
  ahead : Nat
  /-- A bound on the number of characters, for loops. -/
  size : Nat
  mark : Mark
  /-- Whether only blanks stand between the last line break and the cursor. -/
  lineStart : Bool
  /-- The tokens read so far, latest first. -/
  tokens : List Token
  /-- The number of tokens read so far. -/
  count : Nat
  /-- The number of tokens handed on. -/
  taken : Nat
  started : Bool
  /-- The index at which a value may follow its colon without a blank. -/
  adjacentAt : Nat
  keyAllowed : Bool
  /-- The places for keys, one for each flow level, innermost first. -/
  keys : List SimpleKey
  indent : Int
  /-- The enclosing indentations, innermost first. -/
  indents : List Indent
  flowLevel : Nat
  /-- Whether a mapping was opened in flow style since the last one without braces ended. -/
  flowMapping : Bool
  /-- Whether the last colon in a flow collection opened a mapping without braces that is open. -/
  pairOpen : Bool
deriving Repr

/-- The state before the first token of a text. -/
def Scanner.ofText (text : String) : Scanner where
  rest := text.toList
  ahead := 0
  size := text.toList.length
  mark := ⟨0, 1, 0⟩
  lineStart := true
  tokens := []
  count := 0
  taken := 0
  started := false
  adjacentAt := 0
  keyAllowed := true
  keys := []
  indent := -1
  indents := []
  flowLevel := 0
  flowMapping := false
  pairOpen := false

/-- A step of reading: it changes the state or stops at a fault. -/
abbrev Scan := StateT Scanner (Except Fault)

namespace Scan

variable {α : Type}

/-- Stops at the given mark. -/
def failAt (mark : Mark) (cause : Cause) : Scan α :=
  throw ⟨mark, cause⟩

/-- Stops at the cursor. -/
def fail (cause : Cause) : Scan α := do
  failAt (← get).mark cause

/-! ### The cursor -/

/-- The position of the cursor. -/
def mark : Scan Mark := do
  return (← get).mark

/-- Widens the window to at least `n` characters. -/
def look (n : Nat) : Scan Unit :=
  modify fun s => { s with ahead := max s.ahead n }

/-- The character `i` places after the cursor, past the text the end. -/
def charAt (i : Nat) : Scan Char := do
  return (← get).rest.getD i '\x00'

/-- The character at the cursor. -/
def char : Scan Char :=
  charAt 0

/-- The character at the cursor, which the window is made to hold. -/
def next : Scan Char := do
  look 1
  char

/-- Moves over one blank. -/
def skipBlank : Scan Unit :=
  modify fun s => { s with
    rest := s.rest.drop 1
    ahead := s.ahead - 1
    mark := { s.mark with index := s.mark.index + 1, col := s.mark.col + 1 } }

/-- Moves over `n` characters on the line that are not all blank. -/
def skip (n : Nat) : Scan Unit :=
  modify fun s => { s with
    rest := s.rest.drop n
    ahead := s.ahead - n
    mark := { s.mark with index := s.mark.index + n, col := s.mark.col + n }
    lineStart := false }

/-- Moves over one character that breaks the line. -/
def skipNewline : Scan Unit :=
  modify fun s => { s with
    rest := s.rest.drop 1
    ahead := s.ahead - 1
    mark := ⟨s.mark.index + 1, s.mark.line + 1, 0⟩
    lineStart := true }

/-- Moves over a line break, of which a carriage return with a line feed is one, if there is
one. -/
def skipBreak : Scan Unit := do
  if (← char) == '\r' && (← charAt 1) == '\n' then
    skipBlank
    skipNewline
  else if isBreak (← char) then
    skipNewline

/-- A bound on the steps of a loop that reads a character in each. -/
def bound : Scan Nat := do
  return (← get).size + 2

/-- Moves over the characters up to a line break or the end. -/
def skipLineLoop : Nat → Scan Unit
  | 0 => pure ()
  | n + 1 => do
    if !isBreakOrEnd (← next) then
      skip 1
      skipLineLoop n

/-- Moves over the rest of the line. -/
def skipLine : Scan Unit := do
  skipLineLoop (← bound)

/-- Moves over blanks. -/
def skipBlanksLoop : Nat → Scan Unit
  | 0 => pure ()
  | n + 1 => do
    if isBlank (← next) then
      skipBlank
      skipBlanksLoop n

/-- Moves over the blanks at the cursor. -/
def skipBlanks : Scan Unit := do
  skipBlanksLoop (← bound)

/-- Reads characters of a class, appended in reverse to `acc`. -/
def takeWhileLoop (p : Char → Bool) : Nat → List Char → Scan (List Char)
  | 0, acc => pure acc
  | n + 1, acc => do
    let c ← next
    if p c then
      skip 1
      takeWhileLoop p n (c :: acc)
    else
      pure acc

/-- The longest run of characters of a class at the cursor. -/
def takeWhile (p : Char → Bool) : Scan String := do
  return String.ofList (← takeWhileLoop p (← bound) []).reverse

/-- What stood before the end of a line: whether there were tabs, whether there were spaces. -/
structure Blanks where
  tabs : Bool
  spaces : Bool
deriving Repr, DecidableEq

/-- Moves over blanks and a comment, which has to stand after a blank. -/
def skipToLineEndLoop (tabs : Bool) : Nat → Blanks → Scan Blanks
  | 0, seen => pure seen
  | n + 1, seen => do
    let c ← next
    if c == ' ' then
      skipBlank
      skipToLineEndLoop tabs n { seen with spaces := true }
    else if c == '\t' && tabs then
      skipBlank
      skipToLineEndLoop tabs n { seen with tabs := true }
    else if c == '#' then
      if !seen.tabs && !seen.spaces then
        fail .commentNotSeparated
      skipLine
      skipToLineEndLoop tabs n seen
    else
      pure seen

/-- Moves over blanks and a comment up to the end of the line or the next token on it. Tabs count
as blanks only if `tabs` is set. -/
def skipToLineEnd (tabs : Bool) : Scan Blanks := do
  skipToLineEndLoop tabs (← bound) ⟨false, false⟩

/-! ### Tokens -/

/-- Appends a token. -/
def push (mark : Mark) (kind : TokenKind) : Scan Unit :=
  modify fun s => { s with tokens := ⟨mark, kind⟩ :: s.tokens, count := s.count + 1 }

/-- Splices a token in so that it becomes the one with number `i`. -/
def insert (i : Nat) (mark : Mark) (kind : TokenKind) : Scan Unit :=
  modify fun s => { s with
    tokens := s.tokens.take (s.count - i) ++ ⟨mark, kind⟩ :: s.tokens.drop (s.count - i)
    count := s.count + 1 }

/-! ### Places for keys -/

/-- Says whether a key may begin at the next token. -/
def allowKey (allowed : Bool) : Scan Unit :=
  modify fun s => { s with keyAllowed := allowed }

/-- Notes that the next token may be a key. It has to be one if it stands at the indentation of
the block it is in. -/
def saveKey : Scan Unit := do
  let s ← get
  if s.keyAllowed then
    let required := s.flowLevel == 0 && s.indent == (s.mark.col : Int)
      && (s.indents.head?.map Indent.block).getD false
    set { s with keys := ⟨true, required, s.count, s.mark⟩ :: s.keys.drop 1 }

/-- Gives up the innermost place for a key, which must not be one that has to be a key. -/
def removeKey : Scan Unit := do
  match (← get).keys with
  | [] => pure ()
  | key :: keys =>
    if key.possible && key.required then
      fail .keyExpected
    modify fun s => { s with keys := { key with possible := false } :: keys }

/-- Whether a place for a key is out of reach of the cursor: outside flow collections a key stands
on the line of its colon and at most 1024 characters before it. -/
def keyOutOfReach (s : Scanner) (key : SimpleKey) : Bool :=
  key.possible && s.flowLevel == 0
    && (key.mark.line < s.mark.line || key.mark.index + 1024 < s.mark.index)

/-- Gives up the places for keys that are out of reach. -/
def dropStaleKeys : Scan Unit := do
  let s ← get
  if s.keys.any fun key => keyOutOfReach s key && key.required then
    fail .keyUnfinished
  set { s with keys := s.keys.map fun key =>
    if keyOutOfReach s key then { key with possible := false } else key }

/-! ### Indentation -/

/-- Opens a block at column `col` if that lies deeper than the current one; the token that opens it
becomes the one with number `at?`, or the last. -/
def rollIndent (col : Nat) (at? : Option Nat) (kind : TokenKind) (mark : Mark) : Scan Unit := do
  if (← get).flowLevel > 0 then
    return
  modify fun s =>
    match s.indents with
    | outer :: indents =>
      if s.indent ≤ (col : Int) && !outer.block then
        { s with indent := outer.column, indents := indents }
      else
        s
    | [] => s
  if (← get).indent < (col : Int) then
    modify fun s => { s with indents := ⟨s.indent, true⟩ :: s.indents, indent := col }
    match at? with
    | some i => insert i mark kind
    | none => push mark kind

/-- Closes the indentations in `indents` that lie deeper than `col`. -/
def unrollLoop (col : Int) : List Indent → Scan Unit
  | [] => pure ()
  | outer :: indents => do
    if (← get).indent > col then
      modify fun s => { s with indent := outer.column, indents := indents }
      if outer.block then
        push (← mark) .blockEnd
      unrollLoop col indents

/-- Closes the blocks that lie deeper than column `col`. -/
def unrollIndent (col : Int) : Scan Unit := do
  if (← get).flowLevel == 0 then
    unrollLoop col (← get).indents

/-- Requires what follows to be indented by one more column, without opening a block. -/
def rollOneColumn : Scan Unit :=
  modify fun s =>
    if s.flowLevel == 0 && (s.indents.head?.map Indent.block).getD false then
      { s with indents := ⟨s.indent, false⟩ :: s.indents, indent := s.indent + 1 }
    else
      s

/-- The indentation that is left when the innermost ones that open no block are dropped. -/
def blockIndent (indent : Int) : List Indent → Int × List Indent
  | [] => (indent, [])
  | outer :: indents =>
    if outer.block then (indent, outer :: indents) else blockIndent outer.column indents

/-- Drops the innermost indentations that open no block. -/
def unrollToBlock : Scan Unit :=
  modify fun s =>
    let (indent, indents) := blockIndent s.indent s.indents
    { s with indent, indents }

/-! ### Flow collections -/

/-- Enters a flow collection; at most 255 are open at a time. -/
def enterFlow : Scan Unit := do
  if (← get).flowLevel ≥ 255 then
    fail .nesting
  modify fun s => { s with keys := SimpleKey.none :: s.keys, flowLevel := s.flowLevel + 1 }

/-- Leaves a flow collection, if there is one. -/
def leaveFlow : Scan Unit :=
  modify fun s =>
    if s.flowLevel > 0 then
      { s with keys := s.keys.drop 1, flowLevel := s.flowLevel - 1 }
    else
      s

/-- Ends the mapping without braces, if one is open. -/
def endPair (mark : Mark) : Scan Unit := do
  if (← get).pairOpen then
    modify fun s => { s with flowMapping := false, pairOpen := false }
    push mark .flowMappingEnd

end Scan

end JobIndex.Yaml
