import JobIndex.Yaml.Token.Directive
import JobIndex.Yaml.Token.BlockScalar
import JobIndex.Yaml.Token.PlainScalar

/-!
# The tokens of a text

`TokenStream.ofText` reads a whole text. A token is handed on only when it is settled that no key
mark has to be put before it, so a fault hides the tokens that were still waiting.
-/

namespace JobIndex.Yaml

namespace Scan

/-! ### The stream and its documents -/

/-- Opens the stream. -/
def fetchStreamStart : Scan Unit := do
  let start ← mark
  modify fun s => { s with
    indent := -1, started := true, keyAllowed := true, keys := SimpleKey.none :: s.keys }
  push start .streamStart

/-- Closes the stream at the start of a line. -/
def fetchStreamEnd : Scan Unit := do
  modify fun s =>
    if s.mark.col == 0 then s
    else { s with mark := { s.mark with line := s.mark.line + 1, col := 0 } }
  if (← get).keys.any fun key => key.required && key.possible then
    fail .keyExpected
  modify fun s => { s with keys := s.keys.map fun key => { key with possible := false } }
  unrollIndent (-1)
  removeKey
  allowKey false
  push (← mark) .streamEnd

/-- Reads a document marker. -/
def fetchDocumentMarker (kind : TokenKind) : Scan Unit := do
  unrollIndent (-1)
  removeKey
  allowKey false
  let start ← mark
  skip 3
  push start kind

/-! ### Flow collections -/

/-- Opens a flow collection. -/
def fetchFlowStart (kind : TokenKind) : Scan Unit := do
  saveKey
  rollOneColumn
  enterFlow
  allowKey true
  let start ← mark
  skip 1
  if kind == .flowMappingStart then
    modify fun s => { s with flowMapping := true }
  let _ ← skipToLineEnd true
  push start kind

/-- Closes a flow collection. If it is a key in another one, its value may follow the colon
without a blank. -/
def fetchFlowEnd (kind : TokenKind) : Scan Unit := do
  removeKey
  leaveFlow
  allowKey false
  endPair (← mark)
  let start ← mark
  skip 1
  let _ ← skipToLineEnd true
  modify fun s => if s.flowLevel > 0 then { s with adjacentAt := s.mark.index } else s
  push start kind

/-- Reads the comma between entries of a flow collection. -/
def fetchFlowEntry : Scan Unit := do
  removeKey
  allowKey true
  endPair (← mark)
  let start ← mark
  skip 1
  let _ ← skipToLineEnd true
  push start .flowEntry

/-! ### Block collections -/

/-- The last token that has not been handed on. -/
def lastWaiting (s : Scanner) : Option Token :=
  if s.taken < s.count then s.tokens.head? else none

/-- Whether a token is an anchor or a tag. -/
def isProperty : TokenKind → Bool
  | .anchor _ => true
  | .tag _ _ => true
  | _ => false

/-- Reads the dash of an entry of a block sequence, which it may open. -/
def fetchBlockEntry : Scan Unit := do
  let s ← get
  if s.flowLevel > 0 then
    fail .entryInFlow
  if !s.keyAllowed then
    fail .entryNotAllowed
  match lastWaiting s with
  | some token =>
    if isProperty token.kind && s.mark.col == 0 && token.mark.col == 0 && s.indent > -1 then
      failAt token.mark .anchorIndentation
  | none => pure ()
  skip 1
  rollIndent s.mark.col none .blockSequenceStart s.mark
  let blanks ← skipToLineEnd true
  look 2
  if blanks.tabs && (← char) == '-' && isSpaceOrEnd (← charAt 1) then
    fail .entryBlank
  let _ ← skipToLineEnd false
  let c ← next
  if isBreak c || isFlow c then
    rollOneColumn
  removeKey
  allowKey true
  push (← mark) .blockEntry

/-- Reads the `?` before a key. -/
def fetchKey : Scan Unit := do
  let s ← get
  if s.flowLevel == 0 then
    if !s.keyAllowed then
      fail .keyNotAllowed
    rollIndent s.mark.col none .blockMappingStart s.mark
  else
    set { s with flowMapping := true }
  removeKey
  allowKey (s.flowLevel == 0)
  skip 1
  skipSpace
  if (← char) == '\t' then
    fail .tabAfterKey
  push s.mark .key

/-- Turns the place for a key into a key whose colon stands at `start`. -/
def settleKey (key : SimpleKey) (start : Mark) (pair : Bool) : Scan Unit := do
  insert key.token key.mark .key
  if pair then
    if key.mark.line < start.line then
      failAt start .valuePlacement
    insert key.token (← mark) .flowMappingStart
  rollIndent key.mark.col (some key.token) .blockMappingStart start
  rollOneColumn
  modify fun s => { s with keys := { key with possible := false } :: s.keys.drop 1 }
  allowKey false

/-- Begins a value whose key was given by `?` or is absent; its colon stands at `start`. -/
def settleValue (start : Mark) (pair : Bool) : Scan Unit := do
  if pair then
    push (← mark) .flowMappingStart
  let s ← get
  if s.flowLevel == 0 then
    if !s.keyAllowed then
      failAt start .valueNotAllowed
    rollIndent start.col none .blockMappingStart start
  rollOneColumn
  allowKey (s.flowLevel == 0)

/-- Reads the colon before a value. In a flow collection that is no mapping it opens one without
braces. -/
def fetchValue : Scan Unit := do
  let s ← get
  let key := s.keys.headD SimpleKey.none
  let start := s.mark
  let pair := s.flowLevel > 0 && !s.flowMapping
  set { s with pairOpen := pair }
  skip 1
  if (← next) == '\t' then
    let blanks ← skipToLineEnd true
    if !blanks.spaces && ((← char) == '-' || isWord (← char)) then
      fail .valueBlank
  if key.possible then
    settleKey key start pair
  else
    settleValue start pair
  push start .value

/-! ### Tokens -/

/-- Whether the colon at the cursor, before the character `d`, is the mark of a value. -/
def isValueMark (s : Scanner) (d : Char) : Bool :=
  isSpaceOrEnd d || (s.flowLevel > 0 && (isFlow d || s.mark.index == s.adjacentAt))

/-- Reads the token that begins with the character `c` before `d`. -/
def fetchByChar (s : Scanner) (c d : Char) : Scan Unit :=
  if c == '[' then fetchFlowStart .flowSequenceStart
  else if c == '\x7b' then fetchFlowStart .flowMappingStart
  else if c == ']' then fetchFlowEnd .flowSequenceEnd
  else if c == '\x7d' then fetchFlowEnd .flowMappingEnd
  else if c == ',' then fetchFlowEntry
  else if c == '-' && isSpaceOrEnd d then fetchBlockEntry
  else if c == '?' && isSpaceOrEnd d then fetchKey
  else if c == ':' && isValueMark s d then fetchValue
  else if c == '*' then fetchAnchor .reference
  else if c == '&' then fetchAnchor .anchor
  else if c == '!' then fetchTag
  else if c == '|' && s.flowLevel == 0 then fetchBlockScalar false
  else if c == '>' && s.flowLevel == 0 then fetchBlockScalar true
  else if c == '\x27' then fetchQuotedScalar true
  else if c == '\x22' then fetchQuotedScalar false
  else if c == '%' || c == '@' || c == '\x60' then fail (.character c)
  else fetchPlainScalar

/-- Reads what stands at the start of a line: a directive or a document marker, if it is one. -/
def fetchAtLineStart : Scan Bool := do
  if (← char) == '%' then
    fetchDirective
    return true
  if ← atDocumentStart then
    fetchDocumentMarker .documentStart
    return true
  if ← atDocumentEnd then
    fetchDocumentMarker .documentEnd
    let _ ← skipToLineEnd true
    if !isBreakOrEnd (← char) then
      fail .afterDocumentEnd
    return true
  return false

/-- Reads the next token, with the tokens that close or open blocks before it. -/
def fetchToken : Scan Unit := do
  look 1
  if !(← get).started then
    fetchStreamStart
    return
  skipToToken
  dropStaleKeys
  unrollIndent (← mark).col
  look 4
  if isEnd (← char) then
    fetchStreamEnd
    return
  if (← mark).col == 0 then
    if ← fetchAtLineStart then
      return
  let s ← get
  if (s.mark.col : Int) < s.indent then
    fail .indentation
  fetchByChar s (← char) (← charAt 1)

/-- Whether the next token to be handed on may turn out to be a key. -/
def keyWaits (s : Scanner) : Bool :=
  s.keys.any fun key => key.possible && key.token == s.taken

/-- Reads tokens until the next one can be handed on. -/
def fetchLoop : Nat → Scan Unit
  | 0 => pure ()
  | n + 1 => do
    if (← get).taken == (← get).count then
      fetchToken
      fetchLoop n
    else
      dropStaleKeys
      if keyWaits (← get) then
        fetchToken
        fetchLoop n

/-- Hands the next token on. -/
def nextToken : Scan Token := do
  fetchLoop (← bound)
  let s ← get
  match s.tokens.drop (s.count - s.taken - 1) with
  | token :: _ =>
    set { s with taken := s.taken + 1 }
    return token
  | [] => fail .endOfTokens

/-- Hands tokens on up to the end of the stream or a fault. -/
def tokensLoop : Nat → Scanner → TokenStream
  | 0, s => ⟨[], some ⟨s.mark, .endOfTokens⟩⟩
  | n + 1, s =>
    match nextToken.run s with
    | .error fault => ⟨[], some fault⟩
    | .ok (token, s) =>
      if token.kind == .streamEnd then
        ⟨[token], none⟩
      else
        let stream := tokensLoop n s
        { stream with tokens := token :: stream.tokens }

end Scan

/-- The tokens of a text. Each character begins at most one token and closes or opens at most as
many blocks as there are, so the bound on their number is never reached. -/
def TokenStream.ofText (text : String) : TokenStream :=
  let s := Scanner.ofText text
  Scan.tokensLoop (8 * s.size + 16) s

end JobIndex.Yaml
