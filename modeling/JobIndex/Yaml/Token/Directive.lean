import JobIndex.Yaml.Token.Scanner

/-!
# Directives, tags and anchors

The tokens that begin with `%`, `!`, `&` and `*`.
-/

namespace JobIndex.Yaml.Scan

/-! ### Escapes in tags -/

/-- The number of octets that a leading octet announces. -/
def octetCount (octet : Nat) : Option Nat :=
  if octet < 0x80 then some 1
  else if octet < 0xC0 then none
  else if octet < 0xE0 then some 2
  else if octet < 0xF0 then some 3
  else if octet < 0xF8 then some 4
  else none

/-- Reads one `%xx`. -/
def escapedOctet (start : Mark) : Scan Nat := do
  look 3
  let c ← charAt 1
  let d ← charAt 2
  if !((← char) == '%' && isHex c && isHex d) then
    failAt start .tagOctet
  return hexValue c * 16 + hexValue d

/-- Reads `n` more octets of a character, each appended to the code as its last eight bits. -/
def trailingOctets (start : Mark) : Nat → Nat → Scan Nat
  | 0, code => pure code
  | n + 1, code => do
    let octet ← escapedOctet start
    if octet < 0x80 || octet ≥ 0xC0 then
      failAt start .tagTrailingOctet
    skip 3
    trailingOctets start n (code * 256 + octet)

/-- Reads one escaped character, whose code is made of all its octets as they stand. -/
def escapedChar (start : Mark) : Scan Char := do
  let octet ← escapedOctet start
  match octetCount octet with
  | none => failAt start .tagLeadingOctet
  | some n =>
    skip 3
    let code ← trailingOctets start (n - 1) octet
    if code.isValidChar then
      return Char.ofNat code
    else
      failAt start .tagCodepoint

/-- Reads characters of a class in which `%` begins an escape, appended in reverse to `acc`. -/
def uriLoop (p : Char → Bool) (start : Mark) : Nat → List Char → Scan (List Char)
  | 0, acc => pure acc
  | n + 1, acc => do
    let c ← next
    if !p c then
      return acc
    if c == '%' then
      let e ← escapedChar start
      uriLoop p start n (e :: acc)
    else
      skip 1
      uriLoop p start n (c :: acc)

/-- The run of characters of a class at the cursor, escapes resolved. -/
def takeUri (p : Char → Bool) (start : Mark) : Scan String := do
  return String.ofList (← uriLoop p start (← bound) []).reverse

/-! ### Tags -/

/-- Reads `!`, `!!` or `!word!`, or the beginning `!word` of a local tag. -/
def tagHandle (directive : Bool) (start : Mark) : Scan String := do
  if (← next) != '!' then
    failAt start .tagBang
  skip 1
  let word ← takeWhile isWord
  if (← char) == '!' then
    skip 1
    return "!" ++ word ++ "!"
  if directive && word != "" then
    failAt start .tagDirectiveHandle
  return "!" ++ word

/-- Reads what a tag handle stands for: a local tag or the beginning of a URI. -/
def tagStem (start : Mark) : Scan String := do
  let c ← next
  if c == '!' then
    skip 1
    return "!" ++ (← takeUri isUriChar start)
  if !isTagChar c then
    failAt start .tagDirectivePrefix
  takeUri isUriChar start

/-- Reads a tag in full, `!<uri>`. -/
def verbatimTag (start : Mark) : Scan String := do
  skip 1
  skip 1
  let uri ← takeUri isUriChar start
  if (← char) != '>' then
    failAt start .tagVerbatimEnd
  skip 1
  return uri

/-- Whether a handle refers to a directive: `!!` or `!word!`. -/
def isNamedHandle (handle : String) : Bool :=
  2 ≤ handle.length && handle.toList.head? == some '!' && handle.toList.getLast? == some '!'

/-- Reads a tag: its handle and its suffix. -/
def tagParts (start : Mark) : Scan (String × String) := do
  look 2
  if (← charAt 1) == '<' then
    return ("", ← verbatimTag start)
  let handle ← tagHandle false start
  if isNamedHandle handle then
    let suffix ← takeUri isTagChar start
    if suffix == "" then
      failAt start .tagUri
    return (handle, suffix)
  let suffix := String.ofList (handle.toList.drop 1) ++ (← takeUri isTagChar start)
  if suffix == "" then
    return ("", "!")
  return ("!", suffix)

/-- Reads a tag token. -/
def fetchTag : Scan Unit := do
  saveKey
  allowKey false
  let start ← mark
  let (handle, suffix) ← tagParts start
  let c ← next
  if isSpaceOrEnd c || ((← get).flowLevel > 0 && isFlow c) then
    push start (.tag handle suffix)
  else
    failAt start .tagEnd

/-! ### Anchors -/

/-- Reads an anchor or a reference to one. -/
def fetchAnchor (kind : String → TokenKind) : Scan Unit := do
  saveKey
  allowKey false
  let start ← mark
  skip 1
  let name ← takeWhile isAnchorChar
  if name == "" then
    failAt start .anchorName
  push start (kind name)

/-! ### Directives -/

/-- Moves over at most nine digits; `read` counts those already passed. -/
def versionNumberLoop (start : Mark) : Nat → Nat → Scan Nat
  | 0, read => pure read
  | n + 1, read => do
    if isDigit (← next) then
      if read ≥ 9 then
        failAt start .versionLong
      skip 1
      versionNumberLoop start n (read + 1)
    else
      pure read

/-- Moves over one of the two numbers of a version. -/
def versionNumber (start : Mark) : Scan Unit := do
  let digits ← versionNumberLoop start (← bound) 0
  if digits == 0 then
    failAt start .versionNumber

/-- Moves over the version of a `%YAML` directive. -/
def versionValue (start : Mark) : Scan TokenKind := do
  skipBlanks
  versionNumber start
  if (← char) != '.' then
    failAt start .versionDigit
  skip 1
  versionNumber start
  return .versionDirective

/-- Reads the handle of a `%TAG` directive and what it stands for. -/
def tagValue (start : Mark) : Scan TokenKind := do
  skipBlanks
  let handle ← tagHandle true start
  skipBlanks
  let stem ← tagStem start
  if !isSpaceOrEnd (← next) then
    failAt start .tagDirectiveBlank
  return .tagDirective handle stem

/-- Reads a directive; one of an unknown name declares nothing. -/
def fetchDirective : Scan Unit := do
  unrollIndent (-1)
  removeKey
  allowKey false
  let start ← mark
  skip 1
  let nameMark ← mark
  let name ← takeWhile isWord
  if name == "" then
    failAt nameMark .directiveName
  if !isSpaceOrEnd (← char) then
    failAt nameMark .directiveCharacter
  let kind ←
    if name == "YAML" then versionValue start
    else if name == "TAG" then tagValue start
    else do
      skipLine
      pure (.tagDirective "" "")
  let _ ← skipToLineEnd true
  if !isBreakOrEnd (← char) then
    failAt start .directiveEnd
  look 2
  skipBreak
  push start kind

end JobIndex.Yaml.Scan
