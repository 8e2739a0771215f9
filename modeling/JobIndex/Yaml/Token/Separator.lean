import JobIndex.Yaml.Token.Scanner

/-!
# What separates tokens

Blanks, line breaks and comments between tokens, and the rule by which the line breaks inside a
plain or quoted scalar are folded.
-/

namespace JobIndex.Yaml.Scan

/-- Moves over blanks, line breaks and comments. A tab before the indentation of a block may only
stand on a line without a token. -/
def skipToTokenLoop : Nat → Scan Unit
  | 0 => pure ()
  | n + 1 => do
    let c ← next
    let s ← get
    if c == '\t' && !s.indents.isEmpty && s.lineStart && (s.mark.col : Int) < s.indent then
      let _ ← skipToLineEnd true
      if !isBreakOrEnd (← char) then
        fail .tabIndentation
      skipToTokenLoop n
    else if isBlank c then
      skipBlank
      skipToTokenLoop n
    else if isBreak c then
      look 2
      skipBreak
      if s.flowLevel == 0 then
        allowKey true
      skipToTokenLoop n
    else if c == '#' then
      skipLine
      skipToTokenLoop n

/-- Moves to the next token. -/
def skipToToken : Scan Unit := do
  skipToTokenLoop (← bound)

/-- Moves over spaces, line breaks and comments, and says whether there was a space or a line
break. -/
def skipSpaceLoop : Nat → Bool → Scan Bool
  | 0, found => pure found
  | n + 1, found => do
    let c ← next
    if c == ' ' then
      skipBlank
      skipSpaceLoop n true
    else if isBreak c then
      look 2
      skipBreak
      if (← get).flowLevel == 0 then
        allowKey true
      skipSpaceLoop n true
    else if c == '#' then
      skipLine
      skipSpaceLoop n found
    else
      pure found

/-- Moves over spaces, line breaks and comments, of which there has to be a space or a line
break. -/
def skipSpace : Scan Unit := do
  if !(← skipSpaceLoop (← bound) false) then
    fail .blankExpected

/-- Blanks and line breaks between two words of a scalar: the blanks, in reverse, before the first
line break, whether there was one, and how many empty lines followed it. -/
structure Gap where
  blanks : List Char
  broken : Bool
  emptyLines : Nat
deriving Repr, DecidableEq

/-- No blanks and no line break. -/
def Gap.empty : Gap where
  blanks := []
  broken := false
  emptyLines := 0

/-- A gap with a line break, appended to a text in reverse: a single line break is a space, and of
several the first is dropped. -/
def Gap.fold (gap : Gap) (acc : List Char) : List Char :=
  if gap.broken && gap.emptyLines == 0 then ' ' :: acc
  else List.replicate gap.emptyLines '\n' ++ acc

end JobIndex.Yaml.Scan
