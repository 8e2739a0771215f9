/-!
# Attributes

The tree of attributes of a record. A sequence is a group whose keys are the numbers of its items.
A leaf is addressed by the keys on the way to it, joined by dots.
-/

namespace JobIndex

/-- An attribute: a value, or a group of attributes by key. -/
inductive Attribute where
  | scalar (value : String)
  | group (entries : List (String × Attribute))
deriving Repr, BEq, Inhabited

/-- The attributes of a record, by key. -/
abbrev Attributes := List (String × Attribute)

namespace Attribute

/-- The value of a scalar. -/
def asScalar : Attribute → Option String
  | .scalar value => some value
  | .group _ => none

/-- The entries of a group. -/
def asGroup : Attribute → Option Attributes
  | .scalar _ => none
  | .group entries => some entries

/-- The first entry of a group with a key. -/
def get? (a : Attribute) (key : String) : Option Attribute :=
  a.asGroup.bind (·.lookup key)

end Attribute

/-- The path of an entry of the group at `path`; at the root there is no dot. -/
def entryPath (path key : String) : String :=
  if path == "" then key else path ++ "." ++ key

mutual

/-- The leaves below an attribute at `path`, with their paths, in order. -/
def Attribute.leaves (path : String) : Attribute → List (String × String)
  | .scalar value => [(path, value)]
  | .group entries => leavesOf path entries

/-- The leaves below the entries of the group at `path`, with their paths, in order. -/
def leavesOf (path : String) : List (String × Attribute) → List (String × String)
  | [] => []
  | (key, a) :: entries => a.leaves (entryPath path key) ++ leavesOf path entries

end

/-- Whether a key is the number of an item. -/
def isIndexKey (key : String) : Bool :=
  key != "" && key.toList.all fun c => '0' ≤ c && c ≤ '9'

/-- The last key of a path: what stands after its last dot. -/
def lastKey (path : String) : String :=
  String.ofList (path.toList.reverse.takeWhile (· != '.')).reverse

/-- The value of the first entry with a key, if that is a scalar. -/
def Attributes.scalar? (entries : Attributes) (key : String) : Option String :=
  (entries.lookup key).bind Attribute.asScalar

end JobIndex
