import JobIndex.Path
import JobIndex.Text.Quoted

/-!
# Diagnostics

What is worth saying about a workspace without stopping: problems of one file, one job or one
scalar.
-/

namespace JobIndex

/-- How much a diagnostic matters. -/
inductive Severity where
  | debug
  | warning
deriving Repr, DecidableEq

/-- A problem that does not stop the work. -/
inductive Diagnostic where
  /-- A scalar that spans lines has no location. -/
  | unlocatedScalar (file : Path) (line : Nat) (value : String)
  /-- A job without a name. -/
  | missingJobName (file : Path)
  /-- A job that hides an earlier one of the same name. -/
  | duplicateJob (name : String) (previousFile file : Path)
  /-- The parents of a job come back to one of them. -/
  | parentCycle (job : String) (cycle : List String)
  /-- A parent that is no job. -/
  | unknownParent (job parent : String)
  /-- A text that is no stream of documents. -/
  | unparseableDocument (file : Path) (message : String)
  /-- A file that cannot be read. -/
  | unreadableFile (file : Path) (message : String)
  /-- A stored cache that is not used. -/
  | cacheDiscarded (reason : String)
deriving Repr

namespace Diagnostic

/-- Only a missing location is of no concern to the user. -/
def severity : Diagnostic → Severity
  | .unlocatedScalar .. => .debug
  | _ => .warning

/-- The words for a diagnostic, in which lines count from one. -/
def message : Diagnostic → String
  | .unlocatedScalar file line value =>
    "unable to locate value " ++ Text.quoted value ++ " on line " ++ toString (line + 1) ++ " of "
      ++ file.spelling
  | .missingJobName file => "job without a name in " ++ file.spelling
  | .duplicateJob name previousFile file =>
    "duplicate job `" ++ name ++ "`: " ++ file.spelling ++ " replaces definition from "
      ++ previousFile.spelling
  | .parentCycle job cycle =>
    "parent cycle while resolving `" ++ job ++ "`: " ++ " -> ".intercalate cycle
  | .unknownParent job parent => "job `" ++ job ++ "` has unknown parent `" ++ parent ++ "`"
  | .unparseableDocument file message => "failed to parse " ++ file.spelling ++ ": " ++ message
  | .unreadableFile file message => "failed to read " ++ file.spelling ++ ": " ++ message
  | .cacheDiscarded reason => "parse cache discarded: " ++ reason

end Diagnostic

end JobIndex
