import JobIndex.Cache.Store
import JobIndex.Index.Inheritance
import JobIndex.Index.State
import JobIndex.Record.Reading
import JobIndex.Workspace.Discovery

/-!
# Keeping an index in step with a workspace

An indexer holds the index of a workspace and the cache of records. A full pass reads all files that
belong to the index and drops those that are gone; a change of one file replaces the records of that
file. A file that cannot be read is reported and has no records; a file that is no text or no stream
of documents is in the index without records.
-/

namespace JobIndex

/-- The index of a workspace and what is needed to keep it up to date. -/
structure Indexer where
  root : Path
  config : IndexConfig
  discovery : Discovery
  /-- The cache, unless it is turned off. -/
  cache? : Option ParseCache
  state : IndexState
deriving Repr

/-- What a full pass did. -/
structure IndexReport where
  totalFiles : Nat
  /-- Files that were read. -/
  parsedFiles : Nat
  /-- Files whose records were in the cache. -/
  cachedFiles : Nat
  /-- Files that could not be read. -/
  failedFiles : Nat
  /-- Files in the index that are gone. -/
  removedFiles : Nat
deriving Repr, DecidableEq

/-- The kinds of changes to a file. -/
inductive ChangeKind where
  | created
  | modified
  | deleted
deriving Repr, DecidableEq

/-! ### Reading a file -/

/-- The records of a file and where they come from. -/
structure Load where
  document : Document
  fromCache : Bool
  reported : List Diagnostic
deriving Repr

/-- The records in the bytes of a file. Bytes that are no text give none. -/
def Document.ofBytes (sealedTags : List String) (file : Path) (bytes : List UInt8) :
    Document × List Diagnostic :=
  match Text.decode bytes with
  | .ok text => Document.parse sealedTags file text
  | .error fault => (Document.empty file, [.unparseableDocument file fault.message])

/-- The modification time of what is at a place. A directory counts as changed right now. -/
def FileTree.modified (t : FileTree) : FileEntry → Int64
  | .directory => t.now.millis
  | .file _ modified => modified.millis
  | .unreadable _ modified _ => modified.millis

/-- The records in the cache for a file with a modification time. -/
def cached? (cache? : Option ParseCache) (file : Path) (modified : Int64) : Option Document :=
  cache?.bind fun cache => cache.lookup file modified

/-- The records of a file, taken from the cache if it has not changed, and the cache that then
holds. -/
def loadFile (sealedTags : List String) (t : FileTree) (cache? : Option ParseCache) (file : Path) :
    Except IoError (Load × Option ParseCache) :=
  match t.find file with
  | .error e => .error e
  | .ok entry =>
    match cached? cache? file (t.modified entry) with
    | some document => .ok (⟨document, true, []⟩, cache?)
    | none =>
      match entry.bytes with
      | .error e => .error e
      | .ok content =>
        let (document, reported) := Document.ofBytes sealedTags file content
        let cache? := cache?.map (·.store file (t.modified entry) document)
        .ok (⟨document, false, reported⟩, cache?)

/-- The outcome of reading a file. -/
abbrev Outcome := Path × Except IoError Load

/-- Reads files in order. -/
def loadAll (sealedTags : List String) (t : FileTree) :
    Option ParseCache → List Path → List Outcome × Option ParseCache
  | cache?, [] => ([], cache?)
  | cache?, file :: files =>
    match loadFile sealedTags t cache? file with
    | .error e =>
      let (rest, cache?) := loadAll sealedTags t cache? files
      ((file, .error e) :: rest, cache?)
    | .ok (load, cache?) =>
      let (rest, cache?) := loadAll sealedTags t cache? files
      ((file, .ok load) :: rest, cache?)

/-- What was reported while files were read. -/
def outcomesReported (outcomes : List Outcome) : List Diagnostic :=
  outcomes.flatMap fun (_, outcome) =>
    match outcome with
    | .ok load => load.reported
    | .error _ => []

namespace Indexer

/-- An indexer for a workspace, with the cache that is stored there. -/
def ofConfig (t : FileTree) (root : Path) (config : IndexConfig) :
    Except Glob.Error (Indexer × List Diagnostic) :=
  match Discovery.ofConfig root config with
  | .error e => .error e
  | .ok discovery =>
    if config.useCache then
      let (cache, reported) := ParseCache.load t (config.cacheDirIn root)
      .ok (⟨root, config, discovery, some cache, IndexState.empty⟩, reported)
    else .ok (⟨root, config, discovery, none, IndexState.empty⟩, [])

/-! ### Single files -/

/-- Drops a file from the index and from the cache. -/
def remove (x : Indexer) (file : Path) : Indexer :=
  { x with
    cache? := x.cache?.map (·.invalidate file)
    state := (x.state.clearFile file).1 }

/-- Replaces the records of a file. -/
def replace (x : Indexer) (file : Path) (d : Document) : Indexer × List Diagnostic :=
  let (state, reported) := x.state.replaceFile file d
  ({ x with state }, reported)

/-- Puts the records of a file that was read into the index. -/
def put (x : Indexer) (file : Path) (load : Load) (cache? : Option ParseCache) :
    Indexer × List Diagnostic :=
  let (x, reported) := { x with cache? }.replace file load.document
  (x, load.reported ++ reported)

/-- Reads a file again that has changed; one that is gone is dropped. -/
def fileChanged (x : Indexer) (t : FileTree) (file : Path) : Indexer × List Diagnostic :=
  let x := { x with state := x.state.beginReindex file }
  match loadFile x.config.sealedTags t x.cache? file with
  | .ok (load, cache?) => x.put file load cache?
  | .error .notFound => (x.remove file, [])
  | .error e => (x.remove file, [.unreadableFile file e.message])

/-- Reads a file that is new; one that is gone again is passed over. -/
def fileCreated (x : Indexer) (t : FileTree) (file : Path) : Indexer × List Diagnostic :=
  match loadFile x.config.sealedTags t x.cache? file with
  | .ok (load, cache?) => x.put file load cache?
  | .error .notFound => (x, [])
  | .error e => (x, [.unreadableFile file e.message])

/-- Follows a change to a file. -/
def apply (x : Indexer) (t : FileTree) (file : Path) : ChangeKind → Indexer × List Diagnostic
  | .created => x.fileCreated t file
  | .modified => x.fileChanged t file
  | .deleted => (x.remove file, [])

/-- The kind of a change to a path, by whether the index has it and whether it leads to something.
Paths that do not belong to the index are of no concern, unless the index has them. -/
def changeKind? (x : Indexer) (t : FileTree) (path : Path) : Option ChangeKind :=
  let tracked := x.state.status path != .unknown
  if !tracked && !(x.discovery.accepts path) then none
  else
    match tracked, t.has path with
    | true, true => some .modified
    | false, true => some .created
    | true, false => some .deleted
    | false, false => none

/-- Follows a change to a path, whatever it is. -/
def pathChanged (x : Indexer) (t : FileTree) (path : Path) :
    Indexer × List Diagnostic × Option ChangeKind :=
  match x.changeKind? t path with
  | none => (x, [], none)
  | some kind =>
    let (x, reported) := x.apply t path kind
    (x, reported, some kind)

/-! ### Full passes -/

/-- Stores the cache, unless it is turned off. -/
def saveCache (x : Indexer) (t : FileTree) : FileTree × Option ParseCache.StoreError :=
  match x.cache? with
  | none => (t, none)
  | some cache => cache.save t (x.config.cacheDirIn x.root)

/-- Puts files that were read into the index, and reports those that could not be read. -/
def putAll (x : Indexer) : List Outcome → Indexer × List Diagnostic
  | [] => (x, [])
  | (file, .ok load) :: outcomes =>
    let (x, here) := x.replace file load.document
    let (x, there) := x.putAll outcomes
    (x, here ++ there)
  | (file, .error e) :: outcomes =>
    let (x, there) := (x.remove file).putAll outcomes
    (x, .unreadableFile file e.message :: there)

/-- The number of files that were read, or found in the cache. -/
def countLoads (fromCache : Bool) (outcomes : List Outcome) : Nat :=
  (outcomes.filter fun (_, outcome) =>
    match outcome with
    | .ok load => load.fromCache == fromCache
    | .error _ => false).length

/-- The number of files that could not be read. -/
def countFailures (outcomes : List Outcome) : Nat :=
  (outcomes.filter fun (_, outcome) => !outcome.isOk).length

/-- The files in the index that are not among those found. -/
def stale (x : Indexer) (found : List Path) : List Path :=
  x.state.tracked.filter fun file => !(found.any (· == file))

/-- Drops files that are gone from the index, and all but those found from the cache. -/
def prune (x : Indexer) (found : List Path) : Indexer :=
  let x := (x.stale found).foldl remove x
  { x with cache? := x.cache?.map (·.retain fun file => found.any (· == file)) }

/-- Reads all files that belong to the index, and drops the others. The cache is stored if that is
possible. -/
def indexAll (x : Indexer) (t : FileTree) : Indexer × FileTree × List Diagnostic × IndexReport :=
  let found := x.discovery.search t
  let (outcomes, cache?) := loadAll x.config.sealedTags t x.cache? found
  let stale := x.stale found
  let (x, reported) := ({ x with cache? }.prune found).putAll outcomes
  let x := { x with state := x.state.markIndexed }
  (x, (x.saveCache t).1, outcomesReported outcomes ++ reported,
    { totalFiles := found.length
      parsedFiles := countLoads false outcomes
      cachedFiles := countLoads true outcomes
      failedFiles := countFailures outcomes
      removedFiles := stale.length })

/-- Forgets everything and reads all files again. -/
def rebuild (x : Indexer) (t : FileTree) : Indexer × FileTree × List Diagnostic × IndexReport :=
  { x with state := IndexState.empty, cache? := x.cache?.map fun _ => ParseCache.empty }.indexAll t

/-- The attributes that the active job of a name has or inherits. -/
def resolve (x : Indexer) (name : String) :
    Except JobError (Option Resolution × List Diagnostic) :=
  x.state.jobs.resolveName name

end Indexer

end JobIndex
