import JobIndex.Index.Jobs
import JobIndex.Index.Templates

/-!
# References and renaming

Where a job is referred to, the edits that give it another name, where its parent is defined, and
where jobs are defined.
-/

namespace JobIndex

/-- A replacement of a span of a file. -/
structure TextEdit where
  file : Path
  line : Nat
  startCol : Nat
  endCol : Nat
  startByte : Nat
  endByte : Nat
  newText : String
deriving Repr

/-- The edit that replaces a location. -/
def TextEdit.replacing (newText : String) (l : Location) : TextEdit where
  file := l.file
  line := l.line
  startCol := l.startCol
  endCol := l.endCol
  startByte := l.startByte
  endByte := l.endByte
  newText

/-- A job and where it is defined. -/
structure JobSymbol where
  name : String
  location : Location
deriving Repr

/-- The order of definitions by file, line, place and name. -/
def JobSymbol.le (a b : JobSymbol) : Bool :=
  ((compare a.location.file b.location.file).then
    ((compare a.location.line b.location.line).then
      ((compare a.location.startByte b.location.startByte).then (compare a.name b.name)))).isLE

/-- The definition of a job. -/
def JobSymbol.ofJob? (job : Job) : Option JobSymbol :=
  match job.name?, job.nameLocation? with
  | some name, some location => some ⟨name, location⟩
  | _, _ => none

/-- Where a job is referred to: as the parent of active jobs and in templates. -/
def findReferences (jobs : JobRegistry) (templates : TemplateRegistry) (name : String) :
    List Location :=
  Location.ordered
    ((jobs.children name).filterMap Job.parentLocation? ++ templates.referenceLocations name)

/-- The edits that rename a job, at its definition and where it is referred to; none if there is no
such job. -/
def renameEdits (jobs : JobRegistry) (templates : TemplateRegistry) (old new : String) :
    List TextEdit :=
  match jobs.get? old with
  | none => []
  | some job =>
    (Location.ordered (job.nameLocation?.toList ++ findReferences jobs templates old)).map
      (TextEdit.replacing new)

/-- Where the parent is defined of the job at a point on the line of its parent. -/
def definitionAt? (jobs : JobRegistry) (file : Path) (line col : Nat) : Option Location :=
  match jobs.findAt? file line col with
  | none => none
  | some job =>
    match job.parentLocation?, job.parent? with
    | some location, some parent =>
      if location.line == line then (jobs.get? parent).bind Job.nameLocation? else none
    | _, _ => none

/-- The definitions in a file, hidden ones among them, or all active definitions. -/
def symbols (jobs : JobRegistry) (file? : Option Path) : List JobSymbol :=
  let candidates := match file? with
    | some file => jobs.inFile file
    | none => jobs.active
  (candidates.filterMap JobSymbol.ofJob?).mergeSort JobSymbol.le

end JobIndex
