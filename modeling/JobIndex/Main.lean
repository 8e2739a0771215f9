import JobIndex.Command.Run

/-!
# The program

Reads what a use of the program may ask for into a tree, runs it, prints the result and writes the
changes of the tree back. Only this module looks at real files.
-/

namespace JobIndex.Main

/-- The modification time of a file. -/
def fileTime (m : IO.FS.Metadata) : FileTime :=
  ⟨m.modified.sec * 1000000000 + m.modified.nsec.toNat⟩

/-- The place that a path from the root leads to. -/
def placeOf (path : String) : Place :=
  (Path.mk path).segments.foldl FileTree.step []

/-- Adds an entry to a tree, unless there is one. -/
def add (t : FileTree) (place : Place) (e : FileEntry) : FileTree :=
  if (t.get? place).isSome then t else t.set place e

/-- Why a file that is there could not be read. -/
def reasonOf : IO.Error → IoError
  | .noFileOrDirectory .. => .notFound
  | .permissionDenied .. => .permissionDenied
  | _ => .inputOutput

/-- What can be told of a file: its bytes, or why they cannot be read. -/
def readEntry (path : String) (m : IO.FS.Metadata) : IO FileEntry := do
  try
    return .file (← IO.FS.readBinFile path).toList (fileTime m)
  catch e => return .unreadable m.byteSize.toNat (fileTime m) (reasonOf e)

/-- Adds what is at a place. What cannot even be looked at is left out. -/
def addPlace (t : FileTree) (place : Place) : IO FileTree := do
  try
    let path ← IO.FS.realPath (FileTree.spell place).spelling
    let m ← path.metadata
    match m.type with
    | .file => return add t place (← readEntry path.toString m)
    | .dir => return add t place .directory
    | _ => return t
  catch _ => return t

/-- Adds the directories below a directory and those files below it that pass a test. Links and
directories that cannot be listed are left out. -/
partial def addBelow (keep : Place → Bool) (t : FileTree) (place : Place) : IO FileTree := do
  try
    let path ← IO.FS.realPath (FileTree.spell place).spelling
    let mut t := t
    for e in ← path.readDir do
      let found := place ++ [e.fileName]
      match (← e.path.symlinkMetadata).type with
      | .dir => t ← addBelow keep (add t found .directory) found
      | .file => if keep found then t ← addPlace t found
      | _ => pure ()
    return t
  catch _ => return t

/-- Adds the directories on the way to a place, and the place itself. -/
def addWay (t : FileTree) (place : Place) : IO FileTree :=
  (List.range place.length).foldlM
    (fun t n =>
      let found := place.take (n + 1)
      if (t.get? found).isSome then pure t else addPlace t found) t

/-- Adds the lists of ignored paths in the directories on the way to a place. -/
def addIgnoreFiles (t : FileTree) (place : Place) : IO FileTree :=
  (List.range place.length).foldlM
    (fun t n => Ignore.files.foldlM (fun t file => addWay t (place.take n ++ file)) t) t

/-- A text without blanks at both ends. -/
def trimmed (cs : List Char) : List Char :=
  ((cs.dropWhile Char.isWhitespace).reverse.dropWhile Char.isWhitespace).reverse

/-- The path that a line of the settings of git gives for the list of the user. -/
def excludesFile? (line : String) : Option String :=
  let (key, value) := line.toList.span (· != '=')
  let value := trimmed ((trimmed (value.drop 1)).filter (·.toNat != 0x22))
  if (String.ofList (trimmed key)).toLower == "excludesfile" && !value.isEmpty
      && !value.any Char.isWhitespace then
    some (String.ofList value)
  else none

/-- Where the user lists paths that are ignored everywhere: the settings of git may tell, and else it
is the usual place. -/
def userIgnore : IO (Option Place) := do
  let home ← IO.getEnv "HOME"
  let settings := match ← IO.getEnv "XDG_CONFIG_HOME" with
    | some dir => if dir == "" then home.map (· ++ "/.config") else some dir
    | none => home.map (· ++ "/.config")
  for file in [home.map (· ++ "/.gitconfig"), settings.map (· ++ "/git/config")].filterMap id do
    try
      if let some path := (← IO.FS.lines file).toList.findSome? excludesFile? then
        return some (placeOf (path.replace "~" (home.getD "~")))
    catch _ => pure ()
  return settings.map fun dir => placeOf (dir ++ "/git/ignore")

/-- Whether a file of a workspace counts: it may belong to the index or list ignored paths. -/
def counts (d : Discovery) (place : Place) : Bool :=
  d.accepts (FileTree.spell place) || Ignore.files.any fun file => file.isSuffixOf place

/-- The tree in which a use of the program takes place. -/
def readTree (o : Command.Options) : IO FileTree := do
  let here := placeOf (← IO.currentDir).toString
  let userIgnore? ← userIgnore
  let t ← addWay { root := .directory [], here, now := ⟨0⟩, userIgnore? } here
  let t ← addWay t (userIgnore?.getD here)
  let place := o.workspace.segments.foldl FileTree.step (t.start o.workspace)
  let root := FileTree.spell place
  let t ← addWay t place
  let t ← match o.config? with
    | some file => addWay t (file.segments.foldl FileTree.step (t.start file))
    | none => addWay t (placeOf (IndexConfig.fileIn root).spelling)
  match Command.configure t o root with
  | .error _ => return t
  | .ok config =>
    match Discovery.ofConfig root config with
    | .error _ => return t
    | .ok d =>
      let t ← addIgnoreFiles t place
      let t ← addBelow (counts d) t place
      addWay t (placeOf (ParseCache.filePath (config.cacheDirIn root)).spelling)

/-- Writes an entry of a tree. -/
def writeEntry (e : Place × FileEntry) : IO Unit := do
  let path := (FileTree.spell e.1).spelling
  try
    match e.2 with
    | .directory => IO.FS.createDirAll path
    | .file content _ => IO.FS.writeBinFile path ⟨content.toArray⟩
    | .unreadable .. => return ()
  catch _ => return ()

/-- Prints a result, and gives the code to end with. -/
def finish (r : Command.Result) : IO UInt32 := do
  IO.print r.output
  IO.eprint r.errors
  return r.code.toUInt32

end JobIndex.Main

/-- Runs the program. -/
def main (arguments : List String) : IO UInt32 := do
  match JobIndex.Command.parse arguments with
  | .error stop => JobIndex.Main.finish stop.result
  | .ok i =>
    let old ← JobIndex.Main.readTree i.options
    let (t, r) := JobIndex.Command.execute old arguments
    (JobIndex.FileTree.changesSince old t).forM JobIndex.Main.writeEntry
    JobIndex.Main.finish r
