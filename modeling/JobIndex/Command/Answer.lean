import JobIndex.Json.Value
import JobIndex.Query.Hierarchy
import JobIndex.Query.Reference
import JobIndex.Workspace.Indexer

/-!
# Answers

What the commands answer, as JSON and as text. Lines and columns count from zero in JSON and from
one in text.
-/

namespace JobIndex.Command

/-- Where a scalar stands, as it is shown. -/
structure LocationView where
  value : String
  file : Path
  line : Nat
  startCol : Nat
  endCol : Nat
deriving Repr

/-- A job as it is shown. -/
structure JobView where
  name : String
  parent? : Option String
  file : Path
  line? : Option Nat
  column? : Option Nat
  attributes : List (String × String)
  children : Nat
  templateReferences : Nat
deriving Repr

/-- A value that a job has or inherits, as it is shown. -/
structure AttributeView where
  path : String
  value : String
  provenance : String
  location? : Option LocationView
deriving Repr

/-- A job and where it is defined, as it is shown. -/
structure SymbolView where
  name : String
  location : LocationView
deriving Repr

/-- The answer to a request. -/
inductive Answer where
  | index (workspace : Path) (report : IndexReport) (stats : IndexStats)
  | job (view : JobView)
  | children (parent : String) (results : List JobView)
  | resolve (job : String) (chain : List String) (truncated : Bool)
      (attributes : List AttributeView)
  | references (job : String) (results : List LocationView)
  | rename (old new : String) (edits : List TextEdit)
  | hierarchy (tree : Hierarchy)
  | definition (target : LocationView)
  | symbols (results : List SymbolView)
deriving Repr

/-- An answer, and the diagnostics if they are asked for. -/
structure Reply where
  answer : Answer
  diagnostics? : Option (List String)
deriving Repr

/-! ### Views -/

/-- A location as it is shown in a workspace. -/
def LocationView.ofLocation (workspace : Path) (l : Location) : LocationView where
  value := l.value
  file := workspace.relative l.file
  line := l.line
  startCol := l.startCol
  endCol := l.endCol

/-- A job as it is shown in a workspace. -/
def JobView.ofJob (workspace : Path) (job : Job) : JobView where
  name := job.name?.getD ""
  parent? := job.parent?
  file := workspace.relative job.file
  line? := job.nameLocation?.map Location.line
  column? := job.nameLocation?.map Location.startCol
  attributes := []
  children := 0
  templateReferences := 0

/-- A value as it is shown in a workspace. -/
def AttributeView.ofAttribute (workspace : Path) (a : ResolvedAttribute) : AttributeView where
  path := a.path
  value := a.value
  provenance := a.provenance
  location? := a.location?.map (LocationView.ofLocation workspace)

/-- A definition as it is shown in a workspace. -/
def SymbolView.ofSymbol (workspace : Path) (s : JobSymbol) : SymbolView where
  name := s.name
  location := LocationView.ofLocation workspace s.location

/-! ### JSON -/

open Json (Value)

/-- A path. -/
def pathValue (p : Path) : Value :=
  .text p.spelling

/-- A location. -/
def LocationView.json (l : LocationView) : Value :=
  .object [("value", .text l.value), ("file", pathValue l.file), ("line", .natural l.line),
    ("start_col", .natural l.startCol), ("end_col", .natural l.endCol)]

/-- The fields of a job; attributes are left out if there are none. -/
def JobView.fields (job : JobView) : List (String × Value) :=
  let attributes := job.attributes.map fun (path, value) => Value.texts [path, value]
  [("name", .text job.name), ("parent", .optional .text job.parent?), ("file", pathValue job.file),
    ("line", .optional .natural job.line?), ("column", .optional .natural job.column?)]
    ++ (if attributes.isEmpty then [] else [("attributes", .list attributes)])
    ++ [("children", .natural job.children),
      ("template_references", .natural job.templateReferences)]

/-- A value that a job has or inherits. -/
def AttributeView.json (a : AttributeView) : Value :=
  .object [("path", .text a.path), ("value", .text a.value), ("provenance", .text a.provenance),
    ("location", .optional LocationView.json a.location?)]

/-- A definition. -/
def SymbolView.json (s : SymbolView) : Value :=
  .object [("name", .text s.name), ("location", s.location.json)]

/-- An edit. -/
def editValue (e : TextEdit) : Value :=
  .object [("file", pathValue e.file), ("line", .natural e.line),
    ("start_col", .natural e.startCol), ("end_col", .natural e.endCol),
    ("start_byte", .natural e.startByte), ("end_byte", .natural e.endByte),
    ("new_text", .text e.newText)]

/-- What a full pass did. -/
def reportValue (r : IndexReport) : Value :=
  .object [("total_files", .natural r.totalFiles), ("parsed_files", .natural r.parsedFiles),
    ("cached_files", .natural r.cachedFiles), ("failed_files", .natural r.failedFiles),
    ("removed_files", .natural r.removedFiles)]

/-- The sizes of an index. -/
def statsValue (s : IndexStats) : Value :=
  .object [("file_count", .natural s.files), ("job_count", .natural s.jobs),
    ("template_count", .natural s.templates), ("reference_count", .natural s.references)]

mutual

/-- A tree of descendants. -/
def treeValue : Hierarchy → Value
  | .node name file line? children =>
    .object [("name", .text name), ("file", pathValue file), ("line", .optional .natural line?),
      ("children", .list (treeValues children))]

/-- Trees of descendants. -/
def treeValues : List Hierarchy → List Value
  | [] => []
  | h :: hs => treeValue h :: treeValues hs

end

/-- An answer; its first field tells its kind. -/
def Answer.json : Answer → Value
  | .index workspace report stats =>
    .object [("type", .text "Index"), ("workspace", pathValue workspace),
      ("report", reportValue report), ("stats", statsValue stats)]
  | .job view => .object (("type", .text "Job") :: view.fields)
  | .children parent results =>
    .object [("type", .text "Children"), ("parent", .text parent),
      ("results", .list (results.map fun job => .object job.fields))]
  | .resolve name chain truncated attributes =>
    .object [("type", .text "Resolve"), ("job", .text name), ("chain", .texts chain),
      ("truncated", .boolean truncated), ("attributes", .list (attributes.map AttributeView.json))]
  | .references name results =>
    .object [("type", .text "References"), ("job", .text name),
      ("results", .list (results.map LocationView.json))]
  | .rename old new edits =>
    .object [("type", .text "Rename"), ("old", .text old), ("new", .text new),
      ("edits", .list (edits.map editValue))]
  | .hierarchy tree => .object [("type", .text "Hierarchy"), ("tree", treeValue tree)]
  | .definition target => .object [("type", .text "Definition"), ("target", target.json)]
  | .symbols results =>
    .object [("type", .text "Symbols"), ("results", .list (results.map SymbolView.json))]

/-- A reply. -/
def Reply.json (r : Reply) : Value :=
  match r.diagnostics? with
  | none => r.answer.json
  | some diagnostics =>
    .object [("type", .text "WithDiagnostics"), ("output", r.answer.json),
      ("diagnostics", .texts diagnostics)]

/-! ### Text -/

/-- A place in a file by line. -/
def lineText (file : Path) (line : Nat) : String :=
  file.spelling ++ ":" ++ toString line

/-- A place in a file by line and column, which count from zero. -/
def pointText (file : Path) (line col : Nat) : String :=
  lineText file (line + 1) ++ ":" ++ toString (col + 1)

/-- A line that counts from one, zero if there is none. -/
def lineNumber (line? : Option Nat) : Nat :=
  match line? with
  | none => 0
  | some line => line + 1

/-- A job and its place. -/
def JobView.heading (job : JobView) : String :=
  job.name ++ " at " ++ lineText job.file (lineNumber job.line?)

/-- The lines of a job. -/
def JobView.lines (job : JobView) : List String :=
  [job.heading] ++ (job.parent?.map fun parent => "  parent: " ++ parent).toList
    ++ ["  " ++ toString job.children ++ " children, " ++ toString job.templateReferences
      ++ " template references"]
    ++ job.attributes.map fun (path, value) => "  " ++ path ++ " = " ++ value

mutual

/-- The lines of a tree, each job below its parent. -/
def treeLines (depth : Nat) : Hierarchy → List String
  | .node name _ _ children =>
    (String.ofList (List.replicate (2 * depth) ' ') ++ name) :: treesLines (depth + 1) children

/-- The lines of trees. -/
def treesLines (depth : Nat) : List Hierarchy → List String
  | [] => []
  | h :: hs => treeLines depth h ++ treesLines depth hs

end

/-- The lines of an answer. -/
def Answer.lines : Answer → List String
  | .index workspace report stats =>
    ["Indexed " ++ toString report.totalFiles ++ " files (" ++ toString report.parsedFiles
        ++ " parsed, " ++ toString report.cachedFiles ++ " cached, "
        ++ toString report.failedFiles ++ " failed), " ++ toString stats.jobs ++ " jobs, "
        ++ toString stats.templates ++ " templates",
      "Workspace: " ++ workspace.spelling]
  | .job view => view.lines
  | .children parent results =>
    ("Children of \x22" ++ parent ++ "\x22: " ++ toString results.length)
      :: results.map fun job => "  " ++ job.heading
  | .resolve name chain truncated attributes =>
    [name ++ " (" ++ " -> ".intercalate chain ++ ")"]
      ++ (if truncated then ["  warning: parent cycle, chain truncated"] else [])
      ++ attributes.map fun a => "  " ++ a.path ++ " = " ++ a.value ++ "  [" ++ a.provenance ++ "]"
  | .references name results =>
    ("References to \x22" ++ name ++ "\x22: " ++ toString results.length)
      :: results.map fun l => "  " ++ pointText l.file l.line l.startCol
  | .rename old new edits =>
    ("Rename \x22" ++ old ++ "\x22 -> \x22" ++ new ++ "\x22: " ++ toString edits.length ++ " edits")
      :: edits.map fun e => "  " ++ pointText e.file e.line e.startCol
  | .hierarchy tree => treeLines 0 tree
  | .definition target =>
    [target.value ++ " at " ++ pointText target.file target.line target.startCol]
  | .symbols results =>
    ("Jobs: " ++ toString results.length)
      :: results.map fun s =>
        "  " ++ s.name ++ " at " ++ lineText s.location.file (s.location.line + 1)

/-- The lines of a reply. -/
def Reply.lines (r : Reply) : List String :=
  r.answer.lines ++
    match r.diagnostics? with
    | none => []
    | some [] => []
    | some diagnostics => "Diagnostics:" :: diagnostics.map fun d => "  " ++ d

end JobIndex.Command
