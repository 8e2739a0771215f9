import JobIndex.Yaml.Token.QuotedScalar

/-!
# Plain scalars

Scalars without quotes. They end before a comment, a colon that a space follows, a flow indicator
inside a flow collection, and a line that is not indented deep enough.
-/

namespace JobIndex.Yaml.Scan

/-- Whether the character at the cursor, which is no space, belongs to a plain scalar. -/
def isPlainChar : Scan Bool := do
  let c ← char
  let d ← charAt 1
  let flow := (← get).flowLevel > 0
  return !((c == ':' && (isSpaceOrEnd d || (flow && isFlow d))) || (flow && isFlow c))

/-- Reads the rest of a word of a plain scalar, appended in reverse to `acc`. -/
def plainWordLoop : Nat → List Char → Scan (List Char)
  | 0, acc => pure acc
  | n + 1, acc => do
    let c ← char
    if isSpaceOrEnd c || !(← isPlainChar) then
      return acc
    skip 1
    look 2
    plainWordLoop n (c :: acc)

/-- Moves over blanks and line breaks inside a plain scalar at indentation `indent`. -/
def plainGapLoop (start : Mark) (indent : Int) : Nat → Gap → Scan Gap
  | 0, gap => pure gap
  | n + 1, gap => do
    let c ← next
    let s ← get
    if isBlank c then
      if !s.lineStart then
        skipBlank
        plainGapLoop start indent n { gap with blanks := c :: gap.blanks }
      else if (s.mark.col : Int) < indent && c == '\t' then
        let _ ← skipToLineEnd true
        if !isBreakOrEnd (← char) then
          failAt start .plainTab
        plainGapLoop start indent n gap
      else
        skipBlank
        plainGapLoop start indent n gap
    else if isBreak c then
      look 2
      skipBreak
      if s.lineStart then
        plainGapLoop start indent n { gap with emptyLines := gap.emptyLines + 1 }
      else
        plainGapLoop start indent n ⟨[], true, gap.emptyLines⟩
    else
      pure gap

/-- Reads a plain scalar, appended in reverse to `acc` after the gap before the next word. -/
def plainTextLoop (start : Mark) (indent : Int) : Nat → Gap → List Char → Scan (List Char)
  | 0, _, acc => pure acc
  | n + 1, gap, acc => do
    look 4
    let s ← get
    if s.mark.col == 0 && (← atDocumentMarker) then
      return acc
    let c ← char
    if c == '#' then
      return acc
    if s.flowLevel > 0 && c == '-' && isFlow (← charAt 1) then
      fail .plainDash
    let (gap, acc) ←
      if !isSpaceOrEnd c && (← isPlainChar) then do
        let before := if s.lineStart then gap.fold acc else gap.blanks ++ acc
        skip 1
        look 2
        pure (Gap.empty, ← plainWordLoop (← bound) (c :: before))
      else
        pure (gap, acc)
    let d ← char
    if !(isBlank d || isBreak d) then
      return acc
    let gap ← plainGapLoop start indent (← bound) gap
    let s ← get
    if s.flowLevel == 0 && (s.mark.col : Int) < indent then
      return acc
    plainTextLoop start indent n gap acc

/-- Reads a plain scalar. If it ends at the start of a line, a key may begin there. -/
def fetchPlainScalar : Scan Unit := do
  saveKey
  allowKey false
  unrollToBlock
  let s ← get
  let indent := s.indent + 1
  let start := s.mark
  if s.flowLevel > 0 && (start.col : Int) < indent then
    failAt start .flowIndentation
  let text ← plainTextLoop start indent (← bound) Gap.empty []
  if (← get).lineStart then
    allowKey true
  push start (.scalar .plain (String.ofList text.reverse))

end JobIndex.Yaml.Scan
