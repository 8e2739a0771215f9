import JobIndex.Cache.Format
import JobIndex.Diagnostic
import JobIndex.Workspace.FileTree

/-!
# The cache of records

The records of files by path, each with the modification time for which they hold. The cache is kept
in a file; one that cannot be read, or is of another version, is dropped with a diagnostic and never
used in part.
-/

namespace JobIndex

/-- The records of files by path. -/
structure ParseCache where
  entries : Table Path Cache.Entry
deriving Repr

namespace ParseCache

/-- A cache without entries. -/
def empty : ParseCache where
  entries := []

/-- The records of a file that has not changed since they were stored. -/
def lookup (c : ParseCache) (path : Path) (modified : Int64) : Option Document :=
  match c.entries.get? path with
  | none => none
  | some e => if e.modified < modified then none else some e.document

/-- Stores the records of a file. -/
def store (c : ParseCache) (path : Path) (modified : Int64) (document : Document) : ParseCache :=
  ⟨c.entries.put path { modified, document }⟩

/-- Drops the records of a file. -/
def invalidate (c : ParseCache) (path : Path) : ParseCache :=
  ⟨c.entries.erase path⟩

/-- Keeps the records of some files. -/
def retain (c : ParseCache) (keep : Path → Bool) : ParseCache :=
  ⟨c.entries.filter fun e => keep e.1⟩

/-- The number of files. -/
def size (c : ParseCache) : Nat :=
  c.entries.length

/-! ### The file -/

/-- The version of the format. -/
def schemaVersion : Nat :=
  1

/-- The version of the program. -/
def toolVersion : String :=
  "0.1.0"

/-- The name of the file in the directory of the cache. -/
def fileName : String :=
  "parse-cache.bin"

/-- The file of the cache in a directory. -/
def filePath (dir : Path) : Path :=
  dir.child fileName

/-- The entries in the order of their paths. -/
def sorted (c : ParseCache) : List (Path × Cache.Entry) :=
  c.entries.mergeSort fun a b => a.1.le b.1

/-- The bytes in which a cache is stored. -/
def toBytes (c : ParseCache) : List UInt8 :=
  Cache.writeContents { schema := schemaVersion, tool := toolVersion, entries := c.sorted }

/-- The cache with entries, of which the last one for a path counts. -/
def ofEntries (entries : List (Path × Cache.Entry)) : ParseCache :=
  ⟨entries.foldl (fun t e => t.put e.1 e.2) []⟩

/-- Why stored bytes are not used. -/
inductive Discard where
  | format (e : Cache.FormatError)
  | schema (found : Nat)
deriving Repr

/-- The cache that bytes store. -/
def ofBytes (bytes : List UInt8) : Except Discard ParseCache :=
  match Cache.parseContents bytes with
  | .error e => .error (.format e)
  | .ok contents =>
    if contents.schema == schemaVersion then .ok (ofEntries contents.entries)
    else .error (.schema contents.schema)

/-- The words for why stored bytes are not used. -/
def Discard.message (file : Path) : Discard → String
  | .format e => file.spelling ++ ": " ++ e.message
  | .schema found =>
    "schema version " ++ toString found ++ " does not match " ++ toString schemaVersion

/-- The cache stored in a directory. It is empty if there is no file, and also, with a diagnostic,
if the file is of no use. -/
def load (t : FileTree) (dir : Path) : ParseCache × List Diagnostic :=
  let file := filePath dir
  match t.contentOf file with
  | .error .notFound => (empty, [])
  | .error e => (empty, [.cacheDiscarded (file.spelling ++ ": " ++ e.message)])
  | .ok bytes =>
    match ofBytes bytes with
    | .ok c => (c, [])
    | .error d => (empty, [.cacheDiscarded (d.message file)])

/-- Why a cache cannot be stored or removed. -/
inductive StoreError where
  | directory (dir : Path) (cause : IoError)
  | write (file : Path) (cause : IoError)
  | remove (file : Path) (cause : IoError)
deriving Repr

/-- The words for why a cache cannot be stored or removed. -/
def StoreError.message : StoreError → String
  | .directory dir _ => "Failed to create cache dir: " ++ dir.spelling
  | .write file _ => "Failed to write parse cache: " ++ file.spelling
  | .remove file _ => "Failed to remove parse cache: " ++ file.spelling

/-- Stores a cache in a directory, which is made if it is missing. The tree may be changed even if
the cache cannot be stored. -/
def save (c : ParseCache) (t : FileTree) (dir : Path) : FileTree × Option StoreError :=
  match t.makeDirectories dir with
  | (t, some e) => (t, some (.directory dir e))
  | (t, none) =>
    match t.putFile (filePath dir) c.toBytes with
    | .error e => (t, some (.write (filePath dir) e))
    | .ok t => (t, none)

/-- Removes the cache stored in a directory, if there is one. -/
def remove (t : FileTree) (dir : Path) : FileTree × Option StoreError :=
  let file := filePath dir
  if t.has file then
    match t.removeFile file with
    | .error e => (t, some (.remove file e))
    | .ok t => (t, none)
  else
    (t, none)

end ParseCache

end JobIndex
