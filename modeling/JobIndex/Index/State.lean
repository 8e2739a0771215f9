import JobIndex.Index.Jobs
import JobIndex.Index.Templates
import JobIndex.Record.Document

/-!
# The state of the index

Both registries and the status of each file. The records of a file are always replaced as a whole.
-/

namespace JobIndex

/-- What is known of a file. -/
inductive FileStatus where
  | unknown
  | indexed
  | reindexing
deriving Repr, DecidableEq

/-- The index of a workspace. -/
structure IndexState where
  jobs : JobRegistry
  templates : TemplateRegistry
  files : Table Path FileStatus
  /-- Whether a full pass has been completed. -/
  indexedOnce : Bool
deriving Repr

/-- The sizes of an index. -/
structure IndexStats where
  files : Nat
  jobs : Nat
  templates : Nat
  references : Nat
deriving Repr, DecidableEq

/-- What an index holds, in order. -/
structure IndexSnapshot where
  jobs : List (String × Path)
  templates : List (String × Path × List String)
  files : List Path

namespace IndexState

/-- An index without records. -/
def empty : IndexState where
  jobs := JobRegistry.empty
  templates := TemplateRegistry.empty
  files := []
  indexedOnce := false

/-- The status of a file. -/
def status (s : IndexState) (file : Path) : FileStatus :=
  (s.files.get? file).getD .unknown

/-- Whether a file is in the index. -/
def isTracked (s : IndexState) (file : Path) : Bool :=
  s.files.has file

/-- The files in the index, in order. -/
def tracked (s : IndexState) : List Path :=
  Path.sort s.files.keys

/-- Marks a file in the index as being read again. -/
def beginReindex (s : IndexState) (file : Path) : IndexState :=
  if s.isTracked file then { s with files := s.files.put file .reindexing } else s

/-- Removes the records of a file, and says how many there were. -/
def removeRecords (s : IndexState) (file : Path) : IndexState × Nat :=
  let (jobs, removedJobs) := s.jobs.removeFile file
  let (templates, removedTemplates) := s.templates.removeFile file
  ({ s with jobs, templates }, removedJobs + removedTemplates)

/-- Replaces the records of a file. -/
def replaceFile (s : IndexState) (file : Path) (d : Document) : IndexState × List Diagnostic :=
  let s := (s.removeRecords file).1
  let (jobs, reported) := s.jobs.addAll d.jobs
  ({ s with
      jobs
      templates := s.templates.addAll d.templates
      files := s.files.put file .indexed }, reported)

/-- Removes a file and its records, and says how many there were. -/
def clearFile (s : IndexState) (file : Path) : IndexState × Nat :=
  let (s, removed) := s.removeRecords file
  ({ s with files := s.files.erase file }, removed)

/-- Notes that a full pass has been completed. -/
def markIndexed (s : IndexState) : IndexState :=
  { s with indexedOnce := true }

/-- The sizes of an index. -/
def stats (s : IndexState) : IndexStats where
  files := s.files.length
  jobs := s.jobs.count
  templates := s.templates.count
  references := (s.templates.all.flatMap Template.references).length

/-- The order of templates by name, file and the jobs they name. -/
def templateLe (a b : String × Path × List String) : Bool :=
  ((compare a.1 b.1).then ((compare a.2.1 b.2.1).then (compare a.2.2 b.2.2))).isLE

/-- What an index holds, in order. -/
def snapshot (s : IndexState) : IndexSnapshot where
  jobs := (s.jobs.active.filterMap fun job => job.name?.map fun name => (name, job.file)).mergeSort
    fun a b => ((compare a.1 b.1).then (compare a.2 b.2)).isLE
  templates := (s.templates.all.map fun t => (t.name?.getD "", t.file, t.references)).mergeSort
    templateLe
  files := s.tracked

end IndexState

end JobIndex
