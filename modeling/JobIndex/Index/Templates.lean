import JobIndex.Index.Table
import JobIndex.Record.Template

/-!
# The registry of templates

All project templates by file, and for each job the files in which a template names it.
-/

namespace JobIndex

/-- The templates of a workspace. -/
structure TemplateRegistry where
  byFile : Table Path (List Template)
  /-- The files, in order, with templates that name a job. -/
  referencedBy : Table String (List Path)
deriving Repr

/-- Paths in order with one more, if it is new. -/
def insertPath (p : Path) : List Path → List Path
  | [] => [p]
  | q :: qs =>
    match compare p q with
    | .lt => p :: q :: qs
    | .eq => q :: qs
    | .gt => q :: insertPath p qs

namespace TemplateRegistry

/-- No templates. -/
def empty : TemplateRegistry where
  byFile := []
  referencedBy := []

/-- The templates of a file in order. -/
def inFile (r : TemplateRegistry) (file : Path) : List Template :=
  r.byFile.list file

/-- The files with templates that name a job. -/
def filesNaming (r : TemplateRegistry) (job : String) : List Path :=
  r.referencedBy.list job

/-- Notes that a template in a file names a job. -/
def addReference (file : Path) (referencedBy : Table String (List Path)) (job : String) :
    Table String (List Path) :=
  referencedBy.put job (insertPath file (referencedBy.list job))

/-- Stores a template. -/
def add (r : TemplateRegistry) (t : Template) : TemplateRegistry where
  byFile := r.byFile.put t.file (r.inFile t.file ++ [t])
  referencedBy := t.references.foldl (addReference t.file) r.referencedBy

/-- Stores templates in order. -/
def addAll (r : TemplateRegistry) (ts : List Template) : TemplateRegistry :=
  ts.foldl add r

/-- Notes that no template in a file names a job; a job without files is dropped. -/
def removeReference (file : Path) (referencedBy : Table String (List Path)) (job : String) :
    Table String (List Path) :=
  referencedBy.sift (fun p => !(p == file)) job

/-- Removes the templates of a file, and says how many there were. -/
def removeFile (r : TemplateRegistry) (file : Path) : TemplateRegistry × Nat :=
  match r.byFile.get? file with
  | none => (r, 0)
  | some ts =>
    ({ byFile := r.byFile.erase file
       referencedBy := (ts.flatMap Template.references).foldl (removeReference file)
         r.referencedBy }, ts.length)

/-- All templates. -/
def all (r : TemplateRegistry) : List Template :=
  r.byFile.values.flatten

/-- The number of templates. -/
def count (r : TemplateRegistry) : Nat :=
  r.all.length

/-- A template with a name. -/
def get? (r : TemplateRegistry) (name : String) : Option Template :=
  r.all.find? fun t => t.name? == some name

/-- Whether a file has templates. -/
def knows (r : TemplateRegistry) (file : Path) : Bool :=
  r.byFile.has file

/-- The templates that name a job, in the order of files. -/
def naming (r : TemplateRegistry) (job : String) : List Template :=
  ((r.filesNaming job).flatMap r.inFile).filter (·.mentions job)

/-- Where templates name a job. -/
def referenceLocations (r : TemplateRegistry) (job : String) : List Location :=
  (r.naming job).flatMap (·.referenceLocations job)

/-- The number of places where templates name a job. -/
def referenceCount (r : TemplateRegistry) (job : String) : Nat :=
  (r.referenceLocations job).length

/-- The jobs that templates name, in order. -/
def referencedJobs (r : TemplateRegistry) : List String :=
  r.referencedBy.keys.mergeSort fun a b => decide (a ≤ b)

end TemplateRegistry

end JobIndex
