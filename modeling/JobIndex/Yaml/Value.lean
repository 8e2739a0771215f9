/-!
# Values

What a document says, without marks, styles, tags and anchors.
-/

namespace JobIndex.Yaml

/-- A value. Keys of mappings are texts, and the same key may stand in a mapping several times. -/
inductive Value where
  | null
  | scalar (text : String)
  | sequence (items : List Value)
  | mapping (entries : List (String × Value))
deriving Repr, BEq, Inhabited

namespace Value

/-- The text of a scalar. -/
def asText : Value → Option String
  | .scalar text => some text
  | _ => none

/-- The value of the first entry of a mapping with a key. -/
def get? (v : Value) (key : String) : Option Value :=
  match v with
  | .mapping entries => entries.lookup key
  | _ => none

/-- The text of a value that stands as a key. -/
def toKey : Value → String
  | .null => ""
  | .scalar text => text
  | .sequence _ | .mapping _ => "<complex-key>"

/-- The number of entries of a collection. -/
def size : Value → Nat
  | .sequence items => items.length
  | .mapping entries => entries.length
  | _ => 0

end Value

end JobIndex.Yaml
