import JobIndex.Yaml.Token.Scanner

/-!
# Block scalars

Literal and folded scalars: a header with an optional indentation and an optional rule for the
final line breaks, and below it the lines that are indented at least as deep.

A line of content is read through the window as far as that reaches, and then in one piece. In the
first part the mark moves by one for each character, in the second by one for each byte.
-/

namespace JobIndex.Yaml.Scan

/-- What happens to the line breaks at the end of a block scalar. -/
inductive Chomping where
  | strip
  | clip
  | keep
deriving Repr, DecidableEq

/-- The size of the window when indentation is read. -/
def windowSize : Nat :=
  16

/-- Reads a line break as one more empty line. -/
def readBreak (breaks : Nat) : Scan Nat := do
  skipBreak
  return breaks + 1

/-- The rule for final line breaks that an indicator stands for. -/
def chompingOf (c : Char) : Option Chomping :=
  if c == '+' then some .keep else if c == '-' then some .strip else none

/-- Reads the indentation digit of a header, if there is one. -/
def headerDigit (start : Mark) : Scan Nat := do
  let c ← next
  if !isDigit c then
    return 0
  if c == '0' then
    failAt start .blockIndicatorZero
  skip 1
  return c.toNat - '0'.toNat

/-- Reads the header after `|` or `>`: the rule for final line breaks and the indentation, in
either order. -/
def blockHeader (start : Mark) : Scan (Chomping × Nat) := do
  match chompingOf (← next) with
  | some chomping =>
    skip 1
    return (chomping, ← headerDigit start)
  | none =>
    let increment ← headerDigit start
    if increment == 0 then
      return (.clip, 0)
    match chompingOf (← next) with
    | some chomping =>
      skip 1
      return (chomping, increment)
    | none => return (.clip, increment)

/-- Moves over spaces that lie before column `indent`. -/
def skipSpacesTo (indent : Nat) : Nat → Scan Unit
  | 0 => pure ()
  | n + 1 => do
    let s ← get
    if s.mark.col < indent && s.rest.head? == some ' ' then
      skipBlank
      skipSpacesTo indent n

/-- Moves over spaces before column `indent` with a full window, and over at most as many as it
holds at a time. -/
def skipWideIndent (indent : Nat) : Nat → Scan Unit
  | 0 => pure ()
  | n + 1 => do
    look windowSize
    skipSpacesTo indent (← get).ahead
    let s ← get
    if s.mark.col == indent || (0 < s.ahead && (← char) != ' ') then
      pure ()
    else
      skipWideIndent indent n

/-- Moves over the indentation of a line and over the empty lines before it, which are counted. -/
def skipBlockIndentLoop (indent : Nat) : Nat → Nat → Scan Nat
  | 0, breaks => pure breaks
  | n + 1, breaks => do
    if indent < windowSize - 2 then
      look windowSize
      skipSpacesTo indent (← get).ahead
    else
      skipWideIndent indent (← bound)
      look 2
    if isBreak (← char) then
      skipBlockIndentLoop indent n (← readBreak breaks)
    else
      pure breaks

/-- Moves over the indentation of a line and over the empty lines before it, which are counted. -/
def skipBlockIndent (indent : Nat) (breaks : Nat) : Scan Nat := do
  skipBlockIndentLoop indent (← bound) breaks

/-- Moves over spaces. -/
def skipSpacesLoop : Nat → Scan Unit
  | 0 => pure ()
  | n + 1 => do
    if (← next) == ' ' then
      skipBlank
      skipSpacesLoop n

/-- Moves over the empty lines before the first line of content and its indentation, and gives the
deepest column reached with the number of lines. -/
def firstIndentLoop : Nat → Nat → Nat → Scan (Nat × Nat)
  | 0, deepest, breaks => pure (deepest, breaks)
  | n + 1, deepest, breaks => do
    skipSpacesLoop (← bound)
    let deepest := max deepest (← mark).col
    if isBreak (← char) then
      look 2
      firstIndentLoop n deepest (← readBreak breaks)
    else
      pure (deepest, breaks)

/-- The indentation that the first line of content gives a block scalar, which lies deeper than
the block around it. -/
def firstIndent (breaks : Nat) : Scan (Nat × Nat) := do
  let (deepest, breaks) ← firstIndentLoop (← bound) 0 breaks
  let indent := (← get).indent
  let least := max deepest (indent + 1).toNat
  return (if indent > 0 then max least 1 else least, breaks)

/-- Reads the part of a line that the window holds, appended in reverse to `acc`. -/
def windowLine : Nat → List Char → Scan (List Char)
  | 0, acc => pure acc
  | n + 1, acc => do
    let c ← char
    if isBreakOrEnd c then
      pure acc
    else
      skipBlank
      windowLine n (c :: acc)

/-- Reads the line up to its end in one piece: the mark moves by its number of bytes, and the
character after it is all that the window then holds. -/
def restOfLine (acc : List Char) : Scan (List Char) := do
  let s ← get
  let line := s.rest.takeWhile fun c => !isBreakOrEnd c
  let bytes := line.foldl (fun n c => n + c.utf8Size) 0
  set { s with
    rest := s.rest.drop line.length
    ahead := 1
    mark := { s.mark with index := s.mark.index + bytes, col := s.mark.col + bytes } }
  return line.reverse ++ acc

/-- Reads a line of content, appended in reverse to `acc`. -/
def contentLine (acc : List Char) : Scan (List Char) := do
  let acc ← windowLine (← get).ahead acc
  if (← get).ahead == 0 then
    restOfLine acc
  else
    pure acc

/-- `n` line breaks before the characters of `acc`. -/
def breaksBefore (n : Nat) (acc : List Char) : List Char :=
  List.replicate n '\n' ++ acc

/-- The text of a block scalar as far as it has been read, in reverse, with what separates it from
the next line: whether the last line is broken, how many empty lines follow it, and whether it
began with a blank. -/
structure BlockText where
  text : List Char
  broken : Bool
  emptyLines : Nat
  blankStart : Bool

/-- The text before the next line, which begins with a blank iff `blank`. In a folded scalar a
single line break between lines that begin with no blank becomes a space. -/
def BlockText.join (t : BlockText) (folded blank : Bool) : List Char :=
  if folded && t.broken && !t.blankStart && !blank then
    if t.emptyLines == 0 then ' ' :: t.text else breaksBefore t.emptyLines t.text
  else
    breaksBefore ((if t.broken then 1 else 0) + t.emptyLines) t.text

/-- Whether the marker of the end of a document stands at the cursor. -/
def atDocumentEnd : Scan Bool := do
  return (← charAt 0) == '.' && (← charAt 1) == '.' && (← charAt 2) == '.'
    && isSpaceOrEnd (← charAt 3)

/-- Whether the marker of the start of a document stands at the cursor. -/
def atDocumentStart : Scan Bool := do
  return (← charAt 0) == '-' && (← charAt 1) == '-' && (← charAt 2) == '-'
    && isSpaceOrEnd (← charAt 3)

/-- Reads the lines of a block scalar at column `indent`. -/
def blockLines (folded : Bool) (indent : Nat) : Nat → BlockText → Scan BlockText
  | 0, t => pure t
  | n + 1, t => do
    let c ← char
    if (← mark).col != indent || isEnd c then
      return t
    if indent == 0 then
      look 4
      if ← atDocumentEnd then
        return t
    let blank := isBlank c
    let text ← contentLine (t.join folded blank)
    look 2
    if isEnd (← char) then
      return ⟨text, false, 0, blank⟩
    skipBreak
    let emptyLines ← skipBlockIndent indent 0
    blockLines folded indent n ⟨text, true, emptyLines, blank⟩

/-- The text of a block scalar with its final line breaks, in reverse. A last line that the text
ends without a break counts as broken. -/
def BlockText.chomp (t : BlockText) (chomping : Chomping) (unbroken : Bool) : List Char :=
  match chomping with
  | .strip => t.text
  | .clip => breaksBefore ((if t.broken then 1 else 0) + (if unbroken then 1 else 0)) t.text
  | .keep =>
    breaksBefore ((if t.broken then 1 else 0) + (if unbroken then 1 else 0) + t.emptyLines) t.text

/-- The text of a block scalar without any line of content, at the end of the text. -/
def emptyBlock (chomping : Chomping) (sameLine : Bool) (headerBreaks emptyLines : Nat) : String :=
  let breaks :=
    if sameLine then 0
    else match chomping with
      | .strip => 0
      | .clip => headerBreaks
      | .keep => if emptyLines == 0 then headerBreaks else emptyLines
  String.ofList (List.replicate breaks '\n')

/-- Reads a block scalar after its header. -/
def blockBody (folded : Bool) (start : Mark) (chomping : Chomping) (increment : Nat) :
    Scan (Mark × String) := do
  let headerBreaks ← if isBreak (← char) then do look 2; readBreak 0 else pure 0
  if (← next) == '\t' then
    failAt start .blockTab
  let outer := (← get).indent
  let (indent, emptyLines) ←
    if increment == 0 then
      firstIndent 0
    else do
      let indent := if outer ≥ 0 then outer.toNat + increment else increment
      pure (indent, ← skipBlockIndent indent 0)
  if isEnd (← char) then
    return (start, emptyBlock chomping ((← mark).line == start.line) headerBreaks emptyLines)
  let here ← mark
  if here.col < indent && (here.col : Int) > outer then
    fail .blockIndentation
  let t ← blockLines folded indent (← bound) ⟨[], false, emptyLines, false⟩
  let unbroken := isEnd (← char) && (← mark).col ≥ max indent 1
  return (here, String.ofList (t.chomp chomping unbroken).reverse)

/-- Reads a block scalar. Its token stands at its first character of content, or at its indicator
if the text ends before that. -/
def fetchBlockScalar (folded : Bool) : Scan Unit := do
  saveKey
  allowKey true
  let start ← mark
  skip 1
  unrollToBlock
  let (chomping, increment) ← blockHeader start
  let _ ← skipToLineEnd true
  if !isBreakOrEnd (← next) then
    failAt start .blockHeader
  let (place, text) ← blockBody folded start chomping increment
  push place (.scalar (if folded then .folded else .literal) text)

end JobIndex.Yaml.Scan
