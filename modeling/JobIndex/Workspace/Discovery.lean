import JobIndex.Config
import JobIndex.Workspace.Ignore

/-!
# The files of a workspace

A file belongs to the index if its path below the root matches one of the patterns of the
configuration and none of the patterns that exclude it. A search for files also leaves out those
that are ignored or too large.
-/

namespace JobIndex

/-- Which files of a workspace belong to the index. -/
structure Discovery where
  root : Path
  includes : List Glob
  excludes : List Glob
  maxFileSize : Nat
deriving Repr

namespace Discovery

/-- The patterns of files that never belong to the index. -/
def fixedExcludes : List String :=
  ["**/.git/**", "**/target/**", "**/node_modules/**", "**/.tox/**", "**/.venv/**"]

/-- The pattern of the files in the directory of the cache. -/
def cacheExclude (config : IndexConfig) : String :=
  "**/" ++ config.cacheDir.spelling ++ "/**"

/-- All patterns of files that do not belong to the index. -/
def excludePatterns (config : IndexConfig) : List String :=
  fixedExcludes ++ cacheExclude config :: config.excludePatterns

/-- The files of a workspace that a configuration asks for. -/
def ofConfig (root : Path) (config : IndexConfig) : Except Glob.Error Discovery := do
  let includes ← Glob.compileAll config.filePatterns
  let excludes ← Glob.compileAll (excludePatterns config)
  return { root, includes, excludes, maxFileSize := config.maxFileSize }

/-- Whether a path belongs to the index, whether or not there is a file. -/
def accepts (d : Discovery) (p : Path) : Bool :=
  let path := (d.root.relative p).spelling
  d.includes.any (·.accepts path) && !(d.excludes.any (·.accepts path))

/-- Whether a path leads to a file that is not too large, whether or not it can be read. -/
def isSmall (d : Discovery) (t : FileTree) (p : Path) : Bool :=
  match t.find p with
  | .ok e => e.size?.any fun size => decide (size ≤ d.maxFileSize)
  | .error _ => false

/-- The path that names lead to. -/
def pathOf (root : Path) (names : List String) : Path :=
  names.foldl Path.child root

/-- The files that are not ignored. A root that is no directory is the only one. -/
def walk (d : Discovery) (t : FileTree) : List Path :=
  match t.place d.root with
  | .error _ => []
  | .ok place =>
    match t.get? place with
    | none => []
    | some .directory =>
      ((t.filesBelow place).filter (Ignore.isReached t place)).map (pathOf d.root)
    | some _ => [d.root]

/-- The files that belong to the index, in order. -/
def search (d : Discovery) (t : FileTree) : List Path :=
  Path.sort ((d.walk t).filter fun p => d.accepts p && d.isSmall t p)

end Discovery

end JobIndex
