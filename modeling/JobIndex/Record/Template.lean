import JobIndex.Location
import JobIndex.Record.Attribute

/-!
# Project templates

A template names the jobs that it runs in lists under the keys `jobs` and `dependencies`, at any
depth. `jobReferences` collects them in the order in which they are first named.
-/

namespace JobIndex

/-- Whether a key introduces a list of jobs. -/
def isJobListKey (key : String) : Bool :=
  key == "jobs" || key == "dependencies"

/-- Adds a name at the end, unless it is empty or already there. -/
def addName (names : List String) (name : String) : List String :=
  if name == "" || names.contains name then names else names ++ [name]

mutual

/-- Adds the jobs named in the lists below an attribute with the given key. -/
def Attribute.addListed (names : List String) (key : String) : Attribute → List String
  | .scalar value => if isJobListKey key then addName names value else names
  | .group entries => if isJobListKey key then addList names entries else addBelow names entries

/-- Adds the jobs named in the lists below attributes. -/
def addBelow (names : List String) : List (String × Attribute) → List String
  | [] => names
  | (key, a) :: entries => addBelow (a.addListed names key) entries

/-- Adds the jobs that the configuration of an entry names. -/
def Attribute.addConfigured (names : List String) : Attribute → List String
  | .scalar _ => names
  | .group config => addBelow names config

/-- Adds the jobs that the keys of a mapping name, and those that their configurations name. -/
def addKeys (names : List String) : List (String × Attribute) → List String
  | [] => names
  | (key, a) :: entries => addKeys (a.addConfigured (addName names key)) entries

/-- Adds the jobs that an item of a list names: a value, the name of an object, or the keys of a
mapping. -/
def Attribute.addItem (names : List String) : Attribute → List String
  | .scalar value => addName names value
  | .group fields =>
    match Attributes.scalar? fields "name" with
    | some name => addName names name
    | none => addKeys names fields

/-- Adds the jobs named in a list, in which an entry is an item by number or a job by name. -/
def addList (names : List String) : List (String × Attribute) → List String
  | [] => names
  | (key, a) :: entries =>
    let names := if isIndexKey key then a.addItem names else a.addConfigured (addName names key)
    addList names entries

end

/-- The jobs that attributes name, each once, where it comes first. -/
def jobReferences (attributes : Attributes) : List String :=
  addBelow [] attributes

/-- A project template: the file it stands in, its attributes, the jobs that these name and its
locations. -/
structure Template where
  file : Path
  attributes : Attributes
  references : List String
  locations : List Location
deriving Repr, BEq

namespace Template

/-- The template with the given attributes. -/
def ofAttributes (file : Path) (attributes : Attributes) (locations : List Location) :
    Template where
  file
  attributes
  references := jobReferences attributes
  locations

/-- The name of a template. -/
def name? (t : Template) : Option String :=
  t.attributes.scalar? "name"

/-- Whether a template names a job. -/
def mentions (t : Template) (job : String) : Bool :=
  t.references.contains job

/-- Where a template names a job. -/
def referenceLocations (t : Template) (job : String) : List Location :=
  if t.mentions job then t.locations.filter (·.value == job) else []

end Template

end JobIndex
