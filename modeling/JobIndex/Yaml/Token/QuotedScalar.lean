import JobIndex.Yaml.Token.Separator

/-!
# Quoted scalars

Scalars in single quotes, in which a quote is written twice, and in double quotes, in which a
backslash begins an escape. Line breaks are folded.
-/

namespace JobIndex.Yaml.Scan

/-- The character that a backslash and one more character stand for. -/
def simpleEscape (c : Char) : Option Char :=
  match c with
  | '0' => some '\x00'
  | 'a' => some '\x07'
  | 'b' => some '\x08'
  | 't' | '\t' => some '\t'
  | 'n' => some '\n'
  | 'v' => some '\x0b'
  | 'f' => some '\x0c'
  | 'r' => some '\r'
  | 'e' => some '\x1b'
  | ' ' => some ' '
  | '\x22' => some '\x22'
  | '/' => some '/'
  | '\\' => some '\\'
  | 'N' => some '\u0085'
  | '_' => some '\u00A0'
  | 'L' => some '\u2028'
  | 'P' => some '\u2029'
  | _ => none

/-- The number of hexadecimal digits that an escape takes. -/
def escapeLength (c : Char) : Option Nat :=
  match c with
  | 'x' => some 2
  | 'u' => some 4
  | 'U' => some 8
  | _ => none

/-- Reads an escape, the cursor standing on its backslash. -/
def escapeSequence (start : Mark) : Scan Char := do
  let c ← charAt 1
  match simpleEscape c, escapeLength c with
  | some e, _ =>
    skip 2
    return e
  | none, none => failAt start .escapeUnknown
  | none, some n =>
    skip 2
    look n
    let digits := (← get).rest.take n
    if digits.length < n || digits.any (fun d => !isHex d) then
      failAt start .escapeDigits
    let code := digits.foldl (fun v d => v * 16 + hexValue d) 0
    if code.isValidChar then
      skip n
      return Char.ofNat code
    else
      failAt start .escapeCode

/-- Reads characters up to a space, a line break, the closing quote or the end, appended in
reverse to `acc`, and says whether an escaped line break came last. -/
def quotedWordLoop (single : Bool) (start : Mark) : Nat → List Char → Scan (List Char × Bool)
  | 0, acc => pure (acc, false)
  | n + 1, acc => do
    look 2
    let c ← char
    if isSpaceOrEnd c then
      return (acc, false)
    if single then
      if c == '\x27' then
        if (← charAt 1) == '\x27' then
          skip 2
          quotedWordLoop single start n ('\x27' :: acc)
        else
          return (acc, false)
      else
        skip 1
        quotedWordLoop single start n (c :: acc)
    else if c == '\x22' then
      return (acc, false)
    else if c == '\\' && isBreak (← charAt 1) then
      look 3
      skip 1
      skipBreak
      return (acc, true)
    else if c == '\\' then
      let e ← escapeSequence start
      quotedWordLoop single start n (e :: acc)
    else
      skip 1
      quotedWordLoop single start n (c :: acc)

/-- Moves over blanks and line breaks inside a quoted scalar; `folded` says whether a line break
has been passed. -/
def quotedGapLoop : Nat → Bool → Gap → Scan (Bool × Gap)
  | 0, folded, gap => pure (folded, gap)
  | n + 1, folded, gap => do
    let c ← next
    if isBlank c then
      let s ← get
      if folded && c == '\t' && (s.mark.col : Int) < s.indent then
        fail .quotedTab
      skipBlank
      quotedGapLoop n folded (if folded then gap else { gap with blanks := c :: gap.blanks })
    else if isBreak c then
      look 2
      skipBreak
      if folded then
        quotedGapLoop n true { gap with emptyLines := gap.emptyLines + 1 }
      else
        quotedGapLoop n true ⟨[], true, gap.emptyLines⟩
    else
      pure (folded, gap)

/-- Whether a marker of the start or the end of a document stands at the cursor. -/
def atDocumentMarker : Scan Bool := do
  let a ← charAt 0
  let b ← charAt 1
  let c ← charAt 2
  return a == b && b == c && (a == '-' || a == '.') && isSpaceOrEnd (← charAt 3)

/-- Reads a quoted scalar up to its closing quote, appended in reverse to `acc`. -/
def quotedTextLoop (single : Bool) (start : Mark) : Nat → List Char → Scan (List Char)
  | 0, acc => pure acc
  | n + 1, acc => do
    look 4
    let s ← get
    if s.mark.col == 0 && (← atDocumentMarker) then
      failAt start .quotedDocument
    if isEnd (← char) then
      failAt start .quotedUnclosed
    if (s.mark.col : Int) < s.indent then
      failAt start .quotedIndentation
    let (acc, folded) ← quotedWordLoop single start (← bound) acc
    let c ← next
    if c == (if single then '\x27' else '\x22') then
      return acc
    let (folded, gap) ← quotedGapLoop (← bound) folded Gap.empty
    quotedTextLoop single start n (if folded then gap.fold acc else gap.blanks ++ acc)

/-- Whether a character may stand after the closing quote of a scalar that began at `start`. -/
def mayFollowQuote (s : Scanner) (start : Mark) (c : Char) : Bool :=
  isBreakOrEnd c
    || (s.flowLevel > 0 && (c == ',' || c == '\x7d' || c == ']' || c == ':'))
    || (s.flowLevel == 0 && c == ':' && start.line == s.mark.line)

/-- Reads a quoted scalar. In a flow mapping its value may follow the colon without a blank. -/
def fetchQuotedScalar (single : Bool) : Scan Unit := do
  saveKey
  allowKey false
  let start ← mark
  skip 1
  let text ← quotedTextLoop single start (← bound) []
  skip 1
  let _ ← skipToLineEnd true
  if !mayFollowQuote (← get) start (← char) then
    fail .quotedTrailing
  skipToToken
  modify fun s => { s with adjacentAt := s.mark.index }
  push start (.scalar (if single then .singleQuoted else .doubleQuoted)
    (String.ofList text.reverse))

end JobIndex.Yaml.Scan
