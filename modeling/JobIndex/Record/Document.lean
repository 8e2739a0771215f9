import JobIndex.Record.Job
import JobIndex.Record.Template

/-!
# The records of a file
-/

namespace JobIndex

/-- The jobs and templates of a file. -/
structure Document where
  file : Path
  jobs : List Job
  templates : List Template
deriving Repr, BEq

namespace Document

/-- A file without records. -/
def empty (file : Path) : Document where
  file
  jobs := []
  templates := []

/-- Whether a file has no records. -/
def isEmpty (d : Document) : Bool :=
  d.jobs.isEmpty && d.templates.isEmpty

end Document

end JobIndex
