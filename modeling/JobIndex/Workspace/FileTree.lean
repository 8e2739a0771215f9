import JobIndex.Path
import JobIndex.Workspace.FileNode

/-!
# File trees

The files and directories that a path can lead to. A place is the names on the way from the root
directory. A path is followed segment by segment: an empty segment and `.` stay, `..` goes up, and a
name goes down; each of them needs a directory to start from.
-/

namespace JobIndex

/-- The segments of a path between slashes. -/
def Path.segments (p : Path) : List String :=
  (p.spelling.toList.splitOn '/').map String.ofList

/-- The files and directories. -/
structure FileTree where
  /-- The root directory. -/
  root : FileNode
  /-- The directory where relative paths start. -/
  here : Place
  /-- The time of the next change. -/
  now : FileTime
  /-- Where the user lists paths that are ignored everywhere. -/
  userIgnore? : Option Place := none
deriving Repr

namespace FileTree

/-- What is at a place. -/
def get? (t : FileTree) (place : Place) : Option FileEntry :=
  (t.root.get? place).map FileNode.entry

/-- The tree with a file, or a directory that holds nothing, at a place. -/
def set (t : FileTree) (place : Place) (e : FileEntry) : FileTree :=
  { t with root := (FileNode.ofEntry e).put t.root place }

/-! ### Following paths -/

/-- The place that a segment leads to. -/
def step (place : Place) (segment : String) : Place :=
  if segment == "" || segment == "." then place
  else if segment == ".." then place.dropLast
  else place ++ [segment]

/-- Whether a name has more bytes than a directory can hold. -/
def isTooLong (name : String) : Bool :=
  decide (name.utf8ByteSize > 255)

/-- Whether a path has more bytes than can be followed. -/
def isTooLongPath (p : Path) : Bool :=
  decide (p.spelling.utf8ByteSize > 4095)

/-- A text is a path if it is not empty and has no NUL. -/
def check (p : Path) : Except IoError Unit :=
  if p.spelling.toList.contains '\x00' then .error .nulInName
  else if p.spelling == "" then .error .notFound
  else .ok ()

/-- The place that segments lead to from a place. All but the last of them lead to directories. -/
def walk (t : FileTree) : Place → List String → Except IoError Place
  | place, [] => .ok place
  | place, segment :: segments =>
    match t.get? place with
    | none => .error .notFound
    | some .directory =>
      if isTooLong segment then .error .nameTooLong else t.walk (step place segment) segments
    | some _ => .error .notDirectory

/-- Where the segments of a path start. -/
def start (t : FileTree) (p : Path) : Place :=
  if p.isAbsolute then [] else t.here

/-- The place that a path leads to, however long it is. There may be nothing. -/
def resolve (t : FileTree) (p : Path) : Except IoError Place :=
  match check p with
  | .error e => .error e
  | .ok () => t.walk (t.start p) p.segments

/-- The place that a path leads to if it is not too long. There may be nothing. -/
def place (t : FileTree) (p : Path) : Except IoError Place :=
  match check p with
  | .error e => .error e
  | .ok () => if isTooLongPath p then .error .nameTooLong else t.walk (t.start p) p.segments

/-- What a path leads to. -/
def find (t : FileTree) (p : Path) : Except IoError FileEntry :=
  match t.place p with
  | .error e => .error e
  | .ok place =>
    match t.get? place with
    | none => .error .notFound
    | some e => .ok e

/-- Whether a path leads to something. -/
def has (t : FileTree) (p : Path) : Bool :=
  (t.find p).isOk

/-- The bytes of the file that a path leads to. -/
def contentOf (t : FileTree) (p : Path) : Except IoError (List UInt8) :=
  match t.find p with
  | .error e => .error e
  | .ok e => e.bytes

/-- A place as a path from the root. -/
def spell (place : Place) : Path :=
  ⟨"/" ++ "/".intercalate place⟩

/-- The path from the root, without detours, to what a path leads to. Only this path must not be too
long. -/
def canonical? (t : FileTree) (p : Path) : Option Path :=
  match t.resolve p with
  | .error _ => none
  | .ok place =>
    if (t.get? place).isSome && !(isTooLongPath (spell place)) then some (spell place) else none

/-! ### Changes -/

/-- The tree with a file that was changed at a given time. What cannot be read cannot be written
either. -/
def putFileAt (t : FileTree) (p : Path) (content : List UInt8) (modified : FileTime) :
    Except IoError FileTree :=
  match t.place p with
  | .error e => .error e
  | .ok place =>
    match t.get? place with
    | some .directory => .error .isDirectory
    | some (.unreadable _ _ reason) => .error reason
    | _ => .ok (t.set place (.file content modified))

/-- The tree a moment later. -/
def tick (t : FileTree) : FileTree :=
  { t with now := ⟨t.now.nanos + 1000000⟩ }

/-- The tree with a file that is changed now. -/
def putFile (t : FileTree) (p : Path) (content : List UInt8) : Except IoError FileTree :=
  (t.putFileAt p content t.now).map tick

/-- Whether segments lead nowhere and one of them is a `.`. -/
def areDots (segments : List String) : Bool :=
  segments.contains "." && segments.all fun s => s == "" || s == "."

/-- Makes the directories that are missing along segments, up to the first that cannot be made. A
directory after which there are only dots is not made. -/
def makeDirectoriesFrom (t : FileTree) : Place → List String → FileTree × Option IoError
  | _, [] => (t, none)
  | place, segment :: segments =>
    match t.walk place [segment] with
    | .error e => (t, some e)
    | .ok next =>
      match t.get? next with
      | some .directory => t.makeDirectoriesFrom next segments
      | some _ => (t, some .notDirectory)
      | none =>
        if areDots segments then (t, some .notFound)
        else (t.set next .directory).makeDirectoriesFrom next segments

/-- Makes the directories that are missing along a path. The tree may be changed even if not all of
them can be made. -/
def makeDirectories (t : FileTree) (p : Path) : FileTree × Option IoError :=
  if p.spelling == "" then (t, none)
  else
    match check p with
    | .error e => (t, some e)
    | .ok () =>
      if isTooLongPath p then (t, some .nameTooLong)
      else t.makeDirectoriesFrom (t.start p) p.segments

/-- The tree without what is at a place. -/
def erase (t : FileTree) (place : Place) : FileTree :=
  { t with root := t.root.erase place }

/-- The tree without a file. -/
def removeFile (t : FileTree) (p : Path) : Except IoError FileTree :=
  match t.place p with
  | .error e => .error e
  | .ok place =>
    match t.get? place with
    | none => .error .notFound
    | some .directory => .error .isDirectory
    | some _ => .ok (t.erase place)

/-! ### Looking below a place -/

/-- The names that lead from a place to the files below it. -/
def filesBelow (t : FileTree) (place : Place) : List Place :=
  match t.root.get? place with
  | none => []
  | some n =>
    n.contents.filterMap fun (found, e) =>
      match e with
      | .directory => none
      | _ => some found

/-- What is in a tree but not in an older one. -/
def changesSince (old t : FileTree) : List (Place × FileEntry) :=
  t.root.contents.filter fun e => old.get? e.1 != some e.2

end FileTree

end JobIndex
