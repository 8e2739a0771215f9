import JobIndex.Yaml.Event
import JobIndex.Yaml.Value
import JobIndex.Text.Line

/-!
# Closings

The nodes of a stream in the order in which they are finished, each with its value, the place where
it began and its place in the tree. An `Assembly` builds the values from events: it holds the
collections that are open and the values of the anchors.

The nodes with one of the given tags are sealed: a scalar becomes a sequence of one item, and what
stands inside a sequence is not told.
-/

namespace JobIndex.Yaml

/-- The kind of a node. -/
inductive NodeKind where
  | scalar
  | mapping
  | sequence
deriving Repr, DecidableEq

/-- A finished node. -/
structure Closing where
  kind : NodeKind
  value : Value
  /-- The line on which it began, counted from zero. -/
  line : Nat
  column : Nat
  /-- The number of blanks at the start of that line. -/
  indent : Nat
  /-- The number of collections around it. -/
  depth : Nat
  /-- The kind of the collection around it. -/
  parent? : Option NodeKind
  isKey : Bool
deriving Repr

/-- A collection that is open. -/
inductive Frame where
  | sequence (items : List Value) (start : Mark) (anchor : Nat) (isSealed : Bool)
  | mapping (entries : List (String × Value)) (key? : Option String) (start : Mark) (anchor : Nat)
deriving Repr

namespace Frame

/-- The kind of an open collection. -/
def kind : Frame → NodeKind
  | .sequence .. => .sequence
  | .mapping .. => .mapping

/-- Whether the next node is a key. -/
def expectsKey : Frame → Bool
  | .mapping _ none _ _ => true
  | _ => false

/-- The collection with one more node in it; the entries are kept in reverse. -/
def attach (v : Value) : Frame → Frame
  | .sequence items start anchor isSealed => .sequence (v :: items) start anchor isSealed
  | .mapping entries none start anchor => .mapping entries (some v.toKey) start anchor
  | .mapping entries (some key) start anchor => .mapping ((key, v) :: entries) none start anchor

end Frame

/-- The state of building values. -/
structure Assembly where
  /-- The open collections, innermost first. -/
  frames : List Frame
  /-- The values of the anchors of the document, latest first. -/
  anchors : List (Nat × Value)
  /-- The number of open collections that are sealed. -/
  sealedDepth : Nat
deriving Repr

namespace Assembly

/-- Nothing is open. -/
def empty : Assembly where
  frames := []
  anchors := []
  sealedDepth := 0

/-- The assembly with a node in the innermost open collection. -/
def attach (a : Assembly) (v : Value) : Assembly :=
  match a.frames with
  | [] => a
  | frame :: frames => { a with frames := frame.attach v :: frames }

/-- The closing of a node that begins at `start`, in an assembly where it is not yet attached. -/
def closing (indents : Array Nat) (a : Assembly) (kind : NodeKind) (v : Value) (start : Mark) :
    Closing :=
  let line := start.line - 1
  { kind
    value := v
    line
    column := start.col
    indent := indents[line]?.getD 0
    depth := a.frames.length
    parent? := a.frames.head?.map Frame.kind
    isKey := (a.frames.head?.map Frame.expectsKey).getD false }

/-- Finishes a node: it is told unless a sealed collection is open, its anchor gets its value, and
it is attached. -/
def close (indents : Array Nat) (a : Assembly) (kind : NodeKind) (v : Value) (start : Mark)
    (anchor : Nat) : Assembly × Option Closing :=
  let told := if a.sealedDepth > 0 then none else some (a.closing indents kind v start)
  let anchors := if anchor > 0 then (anchor, v) :: a.anchors else a.anchors
  ({ a with anchors }.attach v, told)

/-- Whether a plain scalar is the null value. -/
def isNullText (text : String) : Bool :=
  text == "" || text == "~" || text == "null" || text == "Null" || text == "NULL"

/-- Whether a node is sealed by its tag. -/
def isSealed (sealedTags : List String) (p : Properties) : Bool :=
  match p.tag with
  | some tag => sealedTags.contains tag.name
  | none => false

/-- The value of a scalar. -/
def scalarValue (sealedTags : List String) (style : Style) (text : String) (p : Properties) :
    Value :=
  if isSealed sealedTags p then .sequence [.scalar text]
  else if style == .plain && isNullText text then .null
  else .scalar text

/-- The kind under which the value of a scalar is told. -/
def scalarKind : Value → NodeKind
  | .sequence _ => .sequence
  | _ => .scalar

/-- One step through the structure of a stream. -/
def step (indents : Array Nat) (sealedTags : List String) (a : Assembly) (e : MarkedEvent) :
    Assembly × Option Closing :=
  match e.event with
  | .scalar style text p =>
    let v := scalarValue sealedTags style text p
    a.close indents (scalarKind v) v e.mark p.anchor
  | .sequenceStart p =>
    let isSealed := isSealed sealedTags p
    ({ a with
        frames := .sequence [] e.mark p.anchor isSealed :: a.frames
        sealedDepth := if isSealed then a.sealedDepth + 1 else a.sealedDepth }, none)
  | .sequenceEnd =>
    match a.frames with
    | .sequence items start anchor isSealed :: frames =>
      let a := { a with
        frames
        sealedDepth := if isSealed then a.sealedDepth - 1 else a.sealedDepth }
      a.close indents .sequence (.sequence items.reverse) start anchor
    | frames => ({ a with frames := frames.drop 1 }, none)
  | .mappingStart p =>
    ({ a with frames := .mapping [] none e.mark p.anchor :: a.frames }, none)
  | .mappingEnd =>
    match a.frames with
    | .mapping entries _ start anchor :: frames =>
      { a with frames }.close indents .mapping (.mapping entries.reverse) start anchor
    | frames => ({ a with frames := frames.drop 1 }, none)
  | .reference anchor => (a.attach ((a.anchors.lookup anchor).getD .null), none)
  | .documentStart => (a, none)
  | .documentEnd => (empty, none)

/-- The closings of events. -/
def closings (indents : Array Nat) (sealedTags : List String) :
    Assembly → List MarkedEvent → List Closing
  | _, [] => []
  | a, e :: events =>
    match a.step indents sealedTags e with
    | (a, some c) => c :: closings indents sealedTags a events
    | (a, none) => closings indents sealedTags a events

end Assembly

/-- The closings of the events of a text. -/
def closings (text : String) (sealedTags : List String) (events : List MarkedEvent) :
    List Closing :=
  Assembly.closings (Text.indentations text) sealedTags Assembly.empty events

/-- The values of the documents among closings. -/
def roots (closings : List Closing) : List Value :=
  (closings.filter (·.depth == 0)).map Closing.value

end JobIndex.Yaml
