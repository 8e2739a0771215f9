import JobIndex.Diagnostic
import JobIndex.Index.Table
import JobIndex.Record.Job

/-!
# The registry of jobs

All jobs with a name, by name and by file. Of several jobs with one name the last is active; the
others are kept behind it, so that removing the file of the active one brings them back.
-/

namespace JobIndex

/-- The jobs of a workspace. -/
structure JobRegistry where
  /-- The definitions of each name, the active one last. -/
  byName : Table String (List Job)
  /-- The names that each file defines. -/
  byFile : Table Path (List String)
deriving Repr

namespace JobRegistry

/-- No jobs. -/
def empty : JobRegistry where
  byName := []
  byFile := []

/-- The definitions of a name, the active one last. -/
def definitions (r : JobRegistry) (name : String) : List Job :=
  r.byName.list name

/-- The active definition of a name. -/
def get? (r : JobRegistry) (name : String) : Option Job :=
  (r.definitions name).getLast?

/-- Whether a job can be stored: it needs a name. -/
def accepts (job : Job) : Bool :=
  job.name?.isSome

/-- The names with one more, if it is new. -/
def withName (names : List String) (name : String) : List String :=
  if names.contains name then names else names ++ [name]

/-- Stores a job that has a name. It becomes the active definition, and the one that it hides is
reported. -/
def add (r : JobRegistry) (job : Job) : JobRegistry × List Diagnostic :=
  match job.name? with
  | none => (r, [])
  | some name =>
    let definitions := r.definitions name
    let names := r.byFile.list job.file
    let hidden := definitions.getLast?.map fun previous =>
      Diagnostic.duplicateJob name previous.file job.file
    ({ byName := r.byName.put name (definitions ++ [job])
       byFile := r.byFile.put job.file (withName names name) }, hidden.toList)

/-- Stores jobs in order. -/
def addAll (r : JobRegistry) : List Job → JobRegistry × List Diagnostic
  | [] => (r, [])
  | job :: jobs =>
    let (r, here) := r.add job
    let (r, there) := r.addAll jobs
    (r, here ++ there)

/-- Removes the definitions of a name in a file; a name without definitions is dropped. -/
def removeName (file : Path) (byName : Table String (List Job)) (name : String) :
    Table String (List Job) :=
  byName.sift (fun job => !(job.file == file)) name

/-- The definitions of names that stand in a file. -/
def definedIn (r : JobRegistry) (file : Path) (names : List String) : List Job :=
  names.flatMap fun name => (r.definitions name).filter fun job => job.file == file

/-- Removes the jobs of a file, and says how many there were. -/
def removeFile (r : JobRegistry) (file : Path) : JobRegistry × Nat :=
  match r.byFile.get? file with
  | none => (r, 0)
  | some names =>
    ({ byName := names.foldl (removeName file) r.byName
       byFile := r.byFile.erase file }, (r.definedIn file names).length)

/-- The active definitions. -/
def active (r : JobRegistry) : List Job :=
  r.byName.values.filterMap List.getLast?

/-- The number of names. -/
def count (r : JobRegistry) : Nat :=
  r.byName.length

/-- Whether a file defines a job. -/
def knows (r : JobRegistry) (file : Path) : Bool :=
  r.byFile.has file

/-- The files that define jobs. -/
def files (r : JobRegistry) : List Path :=
  Path.sort r.byFile.keys

/-- Where a job stands in its file; one whose name has no place stands at the largest number of 64
bits. -/
def position (job : Job) : Nat :=
  (job.nameLocation?.map Location.startByte).getD (Nat.pow 2 64 - 1)

/-- The order of jobs in a file: by the place of their names, and by name. -/
def inOrder (a b : Job) : Bool :=
  decide (position a < position b)
    || (position a == position b && decide (a.name?.getD "" ≤ b.name?.getD ""))

/-- The jobs of a file, hidden ones among them, in the order of the text. -/
def inFile (r : JobRegistry) (file : Path) : List Job :=
  (r.definedIn file (r.byFile.list file)).mergeSort inOrder

/-- The order of jobs by name. -/
def byNameLe (a b : Job) : Bool :=
  decide (a.name?.getD "" ≤ b.name?.getD "")

/-- The active jobs with a parent, in the order of their names. -/
def children (r : JobRegistry) (parent : String) : List Job :=
  (r.active.filter fun job => job.parent? == some parent).mergeSort byNameLe

/-- The job in a file that has a location at a point. -/
def findAt? (r : JobRegistry) (file : Path) (line col : Nat) : Option Job :=
  (r.inFile file).find? (·.contains line col)

end JobRegistry

end JobIndex
