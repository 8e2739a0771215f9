import JobIndex.Yaml.Token

/-!
# Events

The structure of a stream of documents, written out node by node in the order of the text.
-/

namespace JobIndex.Yaml

/-- A resolved tag: what its handle stands for, and its suffix. -/
structure Tag where
  handle : String
  suffix : String
deriving Repr, DecidableEq

/-- The full name of a tag. -/
def Tag.name (tag : Tag) : String :=
  tag.handle ++ tag.suffix

/-- The properties of a node: the number of its anchor, zero if it has none, and its tag. -/
structure Properties where
  anchor : Nat
  tag : Option Tag
deriving Repr, DecidableEq

/-- No anchor and no tag. -/
def Properties.none : Properties where
  anchor := 0
  tag := Option.none

/-- One step through the structure of a stream. -/
inductive Event where
  | documentStart
  | documentEnd
  | reference (anchor : Nat)
  | scalar (style : Style) (text : String) (properties : Properties)
  | sequenceStart (properties : Properties)
  | sequenceEnd
  | mappingStart (properties : Properties)
  | mappingEnd
deriving Repr, DecidableEq

/-- The node that is left out, where one has to stand. -/
def Event.absent : Event :=
  .scalar .plain "~" Properties.none

/-- An event and where it begins. -/
structure MarkedEvent where
  mark : Mark
  event : Event
deriving Repr, DecidableEq

/-- The events of a text up to its end or up to the fault that stopped the reading. -/
structure EventStream where
  events : List MarkedEvent
  fault : Option Fault
deriving Repr, DecidableEq

end JobIndex.Yaml
