import JobIndex.Location
import JobIndex.Record.Attribute

/-!
# Jobs

A job is the tree of its attributes and the locations of the scalars it is written with, both in
the order of the document. Its name and its parent are attributes at the top of the tree.
-/

namespace JobIndex

/-- A job: the file it stands in, its attributes and its locations. -/
structure Job where
  file : Path
  attributes : Attributes
  locations : List Location
deriving Repr, BEq

/-- What a job lacks. -/
inductive JobError where
  | missingAttribute (key : String) (file : Path)
deriving Repr

/-- The words for what a job lacks. -/
def JobError.message : JobError → String
  | .missingAttribute key file =>
    "job in " ++ file.spelling ++ " is missing required attribute `" ++ key ++ "`"

/-- Where `value` stands right after `key` on one line. -/
def afterKey? (key value : String) : List Location → Option Location
  | l :: m :: ls =>
    if l.value == key && m.value == value && l.line == m.line then some m
    else afterKey? key value (m :: ls)
  | _ => none

/-- Where `value` stands right after `key` on one line, or else where it stands first. -/
def keyedLocation? (locations : List Location) (key value : String) : Option Location :=
  (afterKey? key value locations).or (locations.find? (·.value == value))

/-- The locations up to and including the first one with the value of an item, split from the rest:
that location and what follows it. -/
def splitAtItem (value : String) : List Location → Option (Location × List Location)
  | [] => none
  | l :: ls => if l.value == value then some (l, ls) else splitAtItem value ls

/-- The first location with a value that follows one with its key: that location and what follows
it. -/
def splitAtKeyed (key value : String) : List Location → Option (Location × List Location)
  | l :: m :: ls =>
    if l.value == key && m.value == value then some (m, ls) else splitAtKeyed key value (m :: ls)
  | _ => none

/-- The location of a leaf among locations, and what follows it. Items have no key in the text, all
other leaves stand after theirs. -/
def splitAtLeaf (key value : String) (locations : List Location) :
    Option (Location × List Location) :=
  if isIndexKey key then splitAtItem value locations else splitAtKeyed key value locations

/-- A leaf with the location of its value. -/
structure Leaf where
  path : String
  value : String
  location? : Option Location
deriving Repr

/-- Gives each leaf the next location that fits it; a leaf that none fits passes over none. -/
def locateLeaves : List (String × String) → List Location → List Leaf
  | [], _ => []
  | (path, value) :: leaves, locations =>
    match splitAtLeaf (lastKey path) value locations with
    | some (l, rest) => ⟨path, value, some l⟩ :: locateLeaves leaves rest
    | none => ⟨path, value, none⟩ :: locateLeaves leaves locations

namespace Job

/-- The name of a job. -/
def name? (job : Job) : Option String :=
  job.attributes.scalar? "name"

/-- The name of a job, or what is wrong. -/
def name (job : Job) : Except JobError String :=
  match job.name? with
  | some name => .ok name
  | none => .error (.missingAttribute "name" job.file)

/-- The name of the parent of a job. -/
def parent? (job : Job) : Option String :=
  job.attributes.scalar? "parent"

/-- The first attribute with a key. -/
def attribute? (job : Job) (key : String) : Option Attribute :=
  job.attributes.lookup key

/-- The leaves of a job with their paths. -/
def leaves (job : Job) : List (String × String) :=
  leavesOf "" job.attributes

/-- The leaves of a job with their locations. -/
def locatedLeaves (job : Job) : List Leaf :=
  locateLeaves job.leaves job.locations

/-- The first location with a value. -/
def locationOf? (job : Job) (value : String) : Option Location :=
  job.locations.find? (·.value == value)

/-- Where the name stands. -/
def nameLocation? (job : Job) : Option Location :=
  job.name?.bind (keyedLocation? job.locations "name")

/-- Where the name of the parent stands. -/
def parentLocation? (job : Job) : Option Location :=
  job.parent?.bind (keyedLocation? job.locations "parent")

/-- Whether a point lies in one of the locations. -/
def contains (job : Job) (line col : Nat) : Bool :=
  job.locations.any (·.contains line col)

/-- The job with other locations. -/
def attachLocations (job : Job) (locations : List Location) : Job :=
  { job with locations := Location.collapse locations }

end Job

end JobIndex
