import JobIndex.Yaml.Event
import JobIndex.Yaml.Token.Stream

/-!
# From tokens to events

A machine with a stack of positions in the grammar. Each of its steps reads some tokens and yields
one event; `EventStream.ofText` runs it over the tokens of a text.
-/

namespace JobIndex.Yaml

/-- A position in the grammar: what is expected next. -/
inductive Position where
  | implicitDocument
  | explicitDocument
  | documentContent
  | documentEnd
  | blockNode
  | blockMappingFirstKey
  | blockMappingKey
  | blockMappingValue
  | blockSequenceFirstEntry
  | blockSequenceEntry
  | indentlessEntry
  | flowSequenceFirstEntry
  | flowSequenceEntry
  | flowPairKey
  | flowPairValue
  | flowPairEnd
  | flowMappingFirstKey
  | flowMappingKey
  | flowMappingValue
  | flowMappingNoValue
  | finished
deriving Repr, DecidableEq

/-- The state of the machine. -/
structure Grammar where
  /-- The tokens still to be read. -/
  tokens : List Token
  /-- What stands after the last token. -/
  ending : Fault
  position : Position
  /-- Where to go on after the current node, innermost first. -/
  stack : List Position
  /-- The anchors of the current document by name, latest first. -/
  anchors : List (String × Nat)
  nextAnchor : Nat
  /-- What the declared handle of the current document stands for. -/
  handle? : Option (String × String)
deriving Repr

/-- A step of the machine. -/
abbrev Derive := StateT Grammar (Except Fault)

namespace Derive

variable {α : Type}

/-- Stops at a mark. -/
def failAt (mark : Mark) (cause : Cause) : Derive α :=
  throw ⟨mark, cause⟩

/-- The next token. -/
def peek : Derive Token := do
  let g ← get
  match g.tokens with
  | token :: _ => return token
  | [] => throw g.ending

/-- Moves over the next token. -/
def skip : Derive Unit :=
  modify fun g => { g with tokens := g.tokens.drop 1 }

/-- Goes to a position. -/
def goto (position : Position) : Derive Unit :=
  modify fun g => { g with position }

/-- Notes a position to go on from after the next node. -/
def push (position : Position) : Derive Unit :=
  modify fun g => { g with stack := position :: g.stack }

/-- Goes on after a finished node. -/
def pop : Derive Unit :=
  modify fun g => { g with position := g.stack.headD .finished, stack := g.stack.drop 1 }

/-- Yields an event. -/
def emit (mark : Mark) (event : Event) : Derive MarkedEvent :=
  return ⟨mark, event⟩

/-- Yields the node that is left out, and goes to a position. -/
def absent (mark : Mark) (position : Position) : Derive MarkedEvent := do
  goto position
  emit mark .absent

/-! ### Nodes -/

/-- Numbers an anchor, which hides earlier ones of the same name. -/
def declareAnchor (name : String) : Derive Nat := do
  let g ← get
  set { g with anchors := (name, g.nextAnchor) :: g.anchors, nextAnchor := g.nextAnchor + 1 }
  return g.nextAnchor

/-- What a handle stands for, if the document declares it. -/
def lookupHandle (g : Grammar) (handle : String) : Option String :=
  match g.handle? with
  | some (declared, stem) => if declared == handle then some stem else none
  | none => none

/-- Resolves the handle of a tag. -/
def resolveTag (mark : Mark) (handle suffix : String) : Derive Tag := do
  match lookupHandle (← get) handle with
  | some stem => return ⟨stem, suffix⟩
  | none =>
    if handle == "!!" then
      return ⟨"tag:yaml.org,2002:", suffix⟩
    if Scan.isNamedHandle handle then
      failAt mark .tagHandle
    return ⟨handle, suffix⟩

/-- Reads an anchor and a tag, in either order, each at most once. -/
def properties : Derive Properties := do
  let token ← peek
  match token.kind with
  | .anchor name =>
    skip
    let anchor ← declareAnchor name
    match (← peek).kind with
    | .tag handle suffix =>
      skip
      return ⟨anchor, some (← resolveTag token.mark handle suffix)⟩
    | _ => return ⟨anchor, none⟩
  | .tag handle suffix =>
    skip
    let tag ← resolveTag token.mark handle suffix
    match (← peek).kind with
    | .anchor name =>
      skip
      return ⟨← declareAnchor name, some tag⟩
    | _ => return ⟨0, some tag⟩
  | _ => return Properties.none

/-- Begins the content of a node with the given properties. -/
def content (block indentless : Bool) (properties : Properties) : Derive MarkedEvent := do
  let token ← peek
  match token.kind with
  | .scalar style text =>
    pop
    skip
    emit token.mark (.scalar style text properties)
  | .flowSequenceStart =>
    goto .flowSequenceFirstEntry
    emit token.mark (.sequenceStart properties)
  | .flowMappingStart =>
    goto .flowMappingFirstKey
    emit token.mark (.mappingStart properties)
  | kind =>
    if kind == .blockEntry && indentless then
      goto .indentlessEntry
      emit token.mark (.sequenceStart properties)
    else if kind == .blockSequenceStart && block then
      goto .blockSequenceFirstEntry
      emit token.mark (.sequenceStart properties)
    else if kind == .blockMappingStart && block then
      goto .blockMappingFirstKey
      emit token.mark (.mappingStart properties)
    else if properties.tag.isSome || properties.anchor > 0 then
      pop
      emit token.mark (.scalar .plain "" properties)
    else
      failAt token.mark .nodeContent

/-- Begins a node. -/
def node (block indentless : Bool) : Derive MarkedEvent := do
  let token ← peek
  match token.kind with
  | .reference name =>
    pop
    skip
    match (← get).anchors.lookup name with
    | some anchor => emit token.mark (.reference anchor)
    | none => failAt token.mark .anchorUnknown
  | _ => content block indentless (← properties)

/-- Begins a node, and goes on from `after` when it is finished. -/
def nodeThen (block indentless : Bool) (after : Position) : Derive MarkedEvent := do
  push after
  node block indentless

/-! ### Documents -/

/-- Whether a token is a directive. -/
def isDirective : TokenKind → Bool
  | .versionDirective => true
  | .tagDirective _ _ => true
  | _ => false

/-- Moves over document ends. -/
def skipDocumentEnds : List Token → List Token
  | [] => []
  | token :: tokens =>
    if token.kind == .documentEnd then skipDocumentEnds tokens else token :: tokens

/-- Reads directives from `tokens`, of which the last decides about handles. -/
def directives : List Token → Bool → Derive Unit
  | [], _ => pure ()
  | token :: tokens, versioned => do
    match token.kind with
    | .versionDirective =>
      if versioned then
        failAt token.mark .versionRepeated
      modify fun g => { g with tokens := tokens, handle? := none }
      directives tokens true
    | .tagDirective handle stem =>
      modify fun g => { g with tokens := tokens, handle? := some (handle, stem) }
      directives tokens versioned
    | _ => pure ()

/-- Opens a document with its directives and its marker. -/
def openExplicit : Derive MarkedEvent := do
  directives (← get).tokens false
  let token ← peek
  if token.kind != .documentStart then
    failAt token.mark .documentStart
  skip
  push .documentEnd
  goto .documentContent
  emit token.mark .documentStart

/-- Opens a document, unless the stream ends. Only the first document and one after an explicit end
need no marker. -/
def openDocument (implicit : Bool) : Derive (Option MarkedEvent) := do
  modify fun g => { g with tokens := skipDocumentEnds g.tokens, anchors := [] }
  let token ← peek
  if token.kind == .streamEnd then
    goto .finished
    return none
  if !implicit || isDirective token.kind || token.kind == .documentStart then
    return some (← openExplicit)
  push .documentEnd
  goto .blockNode
  return some (← emit token.mark .documentStart)

/-- Reads the content of a document after its marker, which may be left out. -/
def documentContent : Derive MarkedEvent := do
  let token ← peek
  let kind := token.kind
  if isDirective kind || kind == .documentStart || kind == .documentEnd || kind == .streamEnd then
    pop
    emit token.mark .absent
  else
    node true false

/-- Closes a document. -/
def closeDocument : Derive MarkedEvent := do
  let token ← peek
  modify fun g => { g with handle? := none }
  if token.kind == .documentEnd then
    skip
    goto .implicitDocument
  else
    if isDirective token.kind then
      failAt token.mark .directiveWithoutEnd
    goto .explicitDocument
  emit token.mark .documentEnd

/-! ### Block collections -/

/-- Whether a token stands where a key or a value of a block mapping is left out. -/
def isMappingPart (kind : TokenKind) : Bool :=
  kind == .key || kind == .value || kind == .blockEnd

/-- Reads a key of a block mapping, or its end. -/
def blockMappingKey : Derive MarkedEvent := do
  let token ← peek
  match token.kind with
  | .key =>
    skip
    let token ← peek
    if isMappingPart token.kind then
      absent token.mark .blockMappingValue
    else
      nodeThen true true .blockMappingValue
  | .value => absent token.mark .blockMappingValue
  | .blockEnd =>
    pop
    skip
    emit token.mark .mappingEnd
  | _ => failAt token.mark .blockMappingKey

/-- Reads a value of a block mapping. -/
def blockMappingValue : Derive MarkedEvent := do
  let token ← peek
  if token.kind == .value then
    skip
    let token ← peek
    if isMappingPart token.kind then
      absent token.mark .blockMappingKey
    else
      nodeThen true true .blockMappingKey
  else
    absent token.mark .blockMappingKey

/-- Reads an entry of a block sequence, or its end. -/
def blockSequenceEntry : Derive MarkedEvent := do
  let token ← peek
  match token.kind with
  | .blockEnd =>
    pop
    skip
    emit token.mark .sequenceEnd
  | .blockEntry =>
    skip
    let token ← peek
    if token.kind == .blockEntry || token.kind == .blockEnd then
      absent token.mark .blockSequenceEntry
    else
      nodeThen true false .blockSequenceEntry
  | _ => failAt token.mark .blockSequenceEntry

/-- Reads an entry of a block sequence that is indented like the mapping it is a value of, or its
end. -/
def indentlessEntry : Derive MarkedEvent := do
  let token ← peek
  if token.kind == .blockEntry then
    skip
    let token ← peek
    if token.kind == .blockEntry || isMappingPart token.kind then
      absent token.mark .indentlessEntry
    else
      nodeThen true false .indentlessEntry
  else
    pop
    emit token.mark .sequenceEnd

/-! ### Flow collections -/

/-- Closes a collection with the next token. -/
def close (mark : Mark) (event : Event) : Derive MarkedEvent := do
  pop
  skip
  emit mark event

/-- Reads an entry of a flow sequence after its comma, or the end of the sequence. -/
def flowEntry : Derive MarkedEvent := do
  let token ← peek
  match token.kind with
  | .flowSequenceEnd => close token.mark .sequenceEnd
  | .key =>
    skip
    goto .flowPairKey
    emit token.mark (.mappingStart Properties.none)
  | _ => nodeThen false false .flowSequenceEntry

/-- Reads an entry of a flow sequence, or its end. -/
def flowSequenceEntry (first : Bool) : Derive MarkedEvent := do
  let token ← peek
  if token.kind == .flowSequenceEnd then
    close token.mark .sequenceEnd
  else if first then
    flowEntry
  else if token.kind == .flowEntry then
    skip
    flowEntry
  else
    failAt token.mark .flowSequenceEntry

/-- Whether a token stands where a part of a mapping without braces is left out. -/
def isPairEnd (kind : TokenKind) : Bool :=
  kind == .flowEntry || kind == .flowSequenceEnd

/-- Reads the key of a mapping without braces. -/
def flowPairKey : Derive MarkedEvent := do
  let token ← peek
  if token.kind == .value || isPairEnd token.kind then
    skip
    absent token.mark .flowPairValue
  else
    nodeThen false false .flowPairValue

/-- Reads the value of a mapping without braces. -/
def flowPairValue : Derive MarkedEvent := do
  let token ← peek
  if token.kind == .value then
    skip
    let token ← peek
    if isPairEnd token.kind then
      absent token.mark .flowPairEnd
    else
      nodeThen false false .flowPairEnd
  else
    absent token.mark .flowPairEnd

/-- Ends a mapping without braces. -/
def flowPairEnd (mark : Mark) : Derive MarkedEvent := do
  goto .flowSequenceEntry
  emit mark .mappingEnd

/-- Whether a token stands where a part of a flow mapping is left out. -/
def isFlowMappingPart (kind : TokenKind) : Bool :=
  kind == .flowEntry || kind == .flowMappingEnd

/-- Reads a key of a flow mapping after its comma, or the end of the mapping, which is marked at
`mark`. -/
def flowKey (mark : Mark) : Derive MarkedEvent := do
  let token ← peek
  match token.kind with
  | .key =>
    skip
    let token ← peek
    if token.kind == .value || isFlowMappingPart token.kind then
      absent token.mark .flowMappingValue
    else
      nodeThen false false .flowMappingValue
  | .value => absent token.mark .flowMappingValue
  | .flowMappingEnd => close mark .mappingEnd
  | _ => nodeThen false false .flowMappingNoValue

/-- Reads a key of a flow mapping, or its end. -/
def flowMappingKey (first : Bool) : Derive MarkedEvent := do
  let token ← peek
  if token.kind == .flowMappingEnd then
    close token.mark .mappingEnd
  else if first then
    flowKey token.mark
  else if token.kind == .flowEntry then
    skip
    flowKey token.mark
  else
    failAt token.mark .flowMappingEntry

/-- Reads a value of a flow mapping. -/
def flowMappingValue : Derive MarkedEvent := do
  let token ← peek
  if token.kind == .value then
    skip
    if isFlowMappingPart (← peek).kind then
      absent token.mark .flowMappingKey
    else
      nodeThen false false .flowMappingKey
  else
    absent token.mark .flowMappingKey

/-! ### The machine -/

/-- Moves over the token that opens a collection. -/
def opened (step : Derive MarkedEvent) : Derive MarkedEvent := do
  let _ ← peek
  skip
  step

/-- Yields the next event, or nothing at the end of the stream. -/
def step : Derive (Option MarkedEvent) := do
  match (← get).position with
  | .implicitDocument => openDocument true
  | .explicitDocument => openDocument false
  | .documentContent => some <$> documentContent
  | .documentEnd => some <$> closeDocument
  | .blockNode => some <$> node true false
  | .blockMappingFirstKey => some <$> opened blockMappingKey
  | .blockMappingKey => some <$> blockMappingKey
  | .blockMappingValue => some <$> blockMappingValue
  | .blockSequenceFirstEntry => some <$> opened blockSequenceEntry
  | .blockSequenceEntry => some <$> blockSequenceEntry
  | .indentlessEntry => some <$> indentlessEntry
  | .flowSequenceFirstEntry => some <$> opened (flowSequenceEntry true)
  | .flowSequenceEntry => some <$> flowSequenceEntry false
  | .flowPairKey => some <$> flowPairKey
  | .flowPairValue => some <$> flowPairValue
  | .flowPairEnd => do
    let g ← get
    some <$> flowPairEnd (g.tokens.head?.map Token.mark |>.getD g.ending.mark)
  | .flowMappingFirstKey => some <$> opened (flowMappingKey true)
  | .flowMappingKey => some <$> flowMappingKey false
  | .flowMappingValue => some <$> flowMappingValue
  | .flowMappingNoValue => do absent (← peek).mark .flowMappingKey
  | .finished => return none

/-- Yields events up to the end of the stream or a fault. -/
def eventsLoop : Nat → Grammar → EventStream
  | 0, g => ⟨[], some g.ending⟩
  | n + 1, g =>
    match step.run g with
    | .error fault => ⟨[], some fault⟩
    | .ok (none, _) => ⟨[], none⟩
    | .ok (some event, g) =>
      let stream := eventsLoop n g
      { stream with events := event :: stream.events }

end Derive

/-- The state of the machine before the first event. -/
def Grammar.ofTokens (stream : TokenStream) : Grammar where
  tokens := stream.tokens.drop 1
  ending := stream.fault.getD ⟨(stream.tokens.getLast?.map Token.mark).getD ⟨0, 1, 0⟩, .endOfTokens⟩
  position := .implicitDocument
  stack := []
  anchors := []
  nextAnchor := 1
  handle? := none

/-- The events of a sequence of tokens. At most three events in a row read no token, so the bound
on their number is never reached. -/
def EventStream.ofTokens (stream : TokenStream) : EventStream :=
  Derive.eventsLoop (8 * stream.tokens.length + 16) (Grammar.ofTokens stream)

/-- The events of a text. -/
def EventStream.ofText (text : String) : EventStream :=
  EventStream.ofTokens (TokenStream.ofText text)

end JobIndex.Yaml
