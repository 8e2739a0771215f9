import JobIndex.Command.Answer
import JobIndex.Command.Arguments

/-!
# Running the program

A use of the program makes a full pass over the workspace, answers the request from the index, and
leaves a tree in which the cache may be stored.
-/

namespace JobIndex.Command

/-- Why there is no answer. -/
inductive Failure where
  | config (e : IndexConfig.Error)
  | workspace (root : Path) (e : Glob.Error)
  | unknownJob (name : String)
  | missingAttribute (job key : String)
  | job (e : JobError)
  | noReference (file : Path) (line column : Nat)
deriving Repr

/-- The words for why there is no answer. -/
def Failure.message : Failure → String
  | .config e => e.fullMessage
  | .workspace root e => "Failed to open workspace " ++ root.spelling ++ ": " ++ e.message
  | .unknownJob name => "Unknown job `" ++ name ++ "`"
  | .missingAttribute name key => "Job `" ++ name ++ "` has no attribute `" ++ key ++ "`"
  | .job e => e.message
  | .noReference file line column =>
    "No parent reference at " ++ file.spelling ++ ":" ++ toString line ++ ":" ++ toString column

/-! ### Answering from the index -/

/-- The job with a name, or that there is none. -/
def findJob (x : Indexer) (name : String) : Except Failure Job :=
  match x.state.jobs.get? name with
  | some job => .ok job
  | none => .error (.unknownJob name)

/-- Shows a job. -/
def answerJob (x : Indexer) (name : String) : Except Failure Answer := do
  let job ← findJob x name
  return .job { JobView.ofJob x.root job with
    attributes := job.leaves
    children := (x.state.jobs.children name).length
    templateReferences := x.state.templates.referenceCount name }

/-- Shows the jobs with a parent. -/
def answerChildren (x : Indexer) (name : String) : Except Failure Answer := do
  let _ ← findJob x name
  return .children name ((x.state.jobs.children name).map (JobView.ofJob x.root))

/-- The values of a job that are asked for. -/
def chosenAttributes (r : Resolution) (name : String) :
    Option String → Except Failure (List ResolvedAttribute)
  | none => .ok r.entries
  | some key =>
    match r.get? key with
    | some a => .ok [a]
    | none => .error (.missingAttribute name key)

/-- Shows the values that a job has or inherits. -/
def answerResolve (x : Indexer) (name : String) (key? : Option String) :
    Except Failure (Answer × List Diagnostic) :=
  match x.resolve name with
  | .error e => .error (.job e)
  | .ok (none, _) => .error (.unknownJob name)
  | .ok (some r, reported) => do
    let attributes ← chosenAttributes r name key?
    return (.resolve r.job r.chain r.truncated
      (attributes.map (AttributeView.ofAttribute x.root)), reported)

/-- Shows where a job is referred to. -/
def answerReferences (x : Indexer) (name : String) : Except Failure Answer :=
  if (x.state.jobs.get? name).isNone && x.state.templates.referenceCount name == 0 then
    .error (.unknownJob name)
  else
    .ok (.references name ((findReferences x.state.jobs x.state.templates name).map
      (LocationView.ofLocation x.root)))

/-- Shows the edits that rename a job. -/
def answerRename (x : Indexer) (old new : String) : Except Failure Answer :=
  match renameEdits x.state.jobs x.state.templates old new with
  | [] => .error (.unknownJob old)
  | edits => .ok (.rename old new edits)

/-- Shows the jobs below a job. -/
def answerHierarchy (x : Indexer) (name : String) : Except Failure Answer :=
  match x.state.jobs.hierarchy? name with
  | none => .error (.unknownJob name)
  | some tree => .ok (.hierarchy tree)

/-- Shows where the parent at a point is defined; the point counts from one. -/
def answerDefinition (x : Indexer) (file : Path) (line column : Nat) : Except Failure Answer :=
  match definitionAt? x.state.jobs (x.root.join file) (line - 1) (column - 1) with
  | none => .error (.noReference file line column)
  | some target => .ok (.definition (LocationView.ofLocation x.root target))

/-- Shows where jobs are defined. -/
def answerSymbols (x : Indexer) (file? : Option Path) : Answer :=
  .symbols ((symbols x.state.jobs (file?.map x.root.join)).map (SymbolView.ofSymbol x.root))

/-- The answer to a request after a full pass, and what is reported on the way to it. -/
def answer (x : Indexer) (report : IndexReport) :
    Request → Except Failure (Answer × List Diagnostic)
  | .index _ => .ok (.index x.root report x.state.stats, [])
  | .job name => (answerJob x name).map (·, [])
  | .children name => (answerChildren x name).map (·, [])
  | .resolve name key? => answerResolve x name key?
  | .references name => (answerReferences x name).map (·, [])
  | .rename old new => (answerRename x old new).map (·, [])
  | .hierarchy name => (answerHierarchy x name).map (·, [])
  | .definition file line column => (answerDefinition x file line column).map (·, [])
  | .symbols file? => .ok (answerSymbols x file?, [])

/-! ### Running -/

/-- The configuration for a use of the program. -/
def configure (t : FileTree) (o : Options) (root : Path) :
    Except IndexConfig.Error IndexConfig := do
  let config ← match o.config? with
    | some file => IndexConfig.load t file
    | none => IndexConfig.discover t root
  return { config with
    useCache := config.useCache && !o.noCache
    filePatterns := config.filePatterns ++ o.patterns }

/-- Whether a full pass starts from nothing. -/
def Request.isForced : Request → Bool
  | .index force => force
  | _ => false

/-- Runs the program: the tree that it leaves, and a reply or the reason why there is none. -/
def run (t : FileTree) (i : Invocation) : FileTree × Except Failure Reply :=
  let root := (t.canonical? i.options.workspace).getD i.options.workspace
  match configure t i.options root with
  | .error e => (t, .error (.config e))
  | .ok config =>
    match Indexer.ofConfig t root config with
    | .error e => (t, .error (.workspace root e))
    | .ok (x, opening) =>
      let (x, t, passing, report) :=
        if i.request.isForced then x.rebuild t else x.indexAll t
      match answer x report i.request with
      | .error e => (t, .error e)
      | .ok (answer, answering) =>
        let all := opening ++ passing ++ answering
        let diagnostics? :=
          if i.options.diagnostics then some (all.map Diagnostic.message) else none
        (t, .ok { answer, diagnostics? })

/-- What the program prints and the code that it ends with. -/
structure Result where
  code : UInt8
  output : String
  errors : String
deriving Repr

/-- The name and the version of the program. -/
def versionText : String :=
  "zuul-index " ++ ParseCache.toolVersion ++ "\n"

/-- How to use the program. -/
def usageText : String :=
  "Usage: zuul-index [OPTIONS] <COMMAND>\n"

/-- The result of a use of the program that stops at once. -/
def Stop.result : Stop → Result
  | .usage => ⟨2, "", usageText⟩
  | .version => ⟨0, versionText, ""⟩
  | .help => ⟨0, usageText, ""⟩

/-- What is printed for a reply. -/
def Reply.print (json : Bool) (r : Reply) : String :=
  if json then r.json.pretty ++ "\n" else String.join (r.lines.map (· ++ "\n"))

/-- What is printed if there is no reply. -/
def Failure.print (json : Bool) (e : Failure) : String :=
  if json then (Json.Value.object [("error", .text e.message)]).pretty ++ "\n"
  else "Error: " ++ e.message ++ "\n"

/-- Runs the program with arguments: the tree that it leaves and its result. -/
def execute (t : FileTree) (arguments : List String) : FileTree × Result :=
  match parse arguments with
  | .error stop => (t, stop.result)
  | .ok i =>
    match run t i with
    | (t, .ok reply) => (t, ⟨0, reply.print i.options.json, ""⟩)
    | (t, .error e) => (t, ⟨1, "", e.print i.options.json⟩)

end JobIndex.Command
