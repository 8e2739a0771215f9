import JobIndex.Index.Table
import JobIndex.Workspace.Time

/-!
# Files and directories

A node is a file, or a directory with the nodes in it by name. What is below a node is reached by
names, one for each directory on the way: `FileNode.get?` looks there, `FileNode.put` and
`FileNode.erase` change what is there, and `FileNode.contents` lists all of it.

A file may be there without being readable, for want of a permission or because the device fails.
Its size and its modification time are known all the same.
-/

namespace JobIndex

/-- The names on the way from a directory. -/
abbrev Place := List String

/-- Why a path does not lead to what is asked for, or why that cannot be read. -/
inductive IoError where
  | notFound
  | permissionDenied
  | inputOutput
  | notDirectory
  | isDirectory
  | nameTooLong
  | nulInName
deriving Repr, DecidableEq

/-- The words for an error. -/
def IoError.message : IoError → String
  | .notFound => "No such file or directory (os error 2)"
  | .permissionDenied => "Permission denied (os error 13)"
  | .inputOutput => "Input/output error (os error 5)"
  | .notDirectory => "Not a directory (os error 20)"
  | .isDirectory => "Is a directory (os error 21)"
  | .nameTooLong => "File name too long (os error 36)"
  | .nulInName => "file name contained an unexpected NUL byte"

/-- What is at a place. -/
inductive FileEntry where
  | directory
  | file (content : List UInt8) (modified : FileTime)
  /-- A file of which only the size and the time can be told. -/
  | unreadable (size : Nat) (modified : FileTime) (reason : IoError)
deriving Repr, DecidableEq

namespace FileEntry

/-- The bytes that are read from what is at a place. -/
def bytes : FileEntry → Except IoError (List UInt8)
  | .directory => .error .isDirectory
  | .file content _ => .ok content
  | .unreadable _ _ reason => .error reason

/-- The number of bytes of a file, whether or not they can be read. -/
def size? : FileEntry → Option Nat
  | .directory => none
  | .file content _ => some content.length
  | .unreadable size _ _ => some size

end FileEntry

/-- A file, or a directory with what it holds. -/
inductive FileNode where
  | file (content : List UInt8) (modified : FileTime)
  | unreadable (size : Nat) (modified : FileTime) (reason : IoError)
  | directory (entries : List (String × FileNode))
deriving Repr

namespace FileNode

/-- What a node is, apart from what it holds. -/
def entry : FileNode → FileEntry
  | .file content modified => .file content modified
  | .unreadable size modified reason => .unreadable size modified reason
  | .directory _ => .directory

/-- A file, or a directory that holds nothing. -/
def ofEntry : FileEntry → FileNode
  | .file content modified => .file content modified
  | .unreadable size modified reason => .unreadable size modified reason
  | .directory => .directory []

/-- What a directory holds; a file holds nothing. -/
def entries : FileNode → Table String FileNode
  | .file .. => []
  | .unreadable .. => []
  | .directory entries => entries

/-- The node that names lead to. -/
def get? (n : FileNode) : Place → Option FileNode
  | [] => some n
  | name :: names =>
    match n.entries.get? name with
    | none => none
    | some m => m.get? names

/-- The node with another one where names lead to. Directories are made on the way if there are
none. -/
def put (new n : FileNode) : Place → FileNode
  | [] => new
  | name :: names =>
    let m := (n.entries.get? name).getD (.directory [])
    .directory (n.entries.put name (put new m names))

/-- The node without what names lead to. -/
def erase (n : FileNode) : Place → FileNode
  | [] => n
  | name :: names =>
    match n.entries.get? name with
    | none => n
    | some m =>
      .directory (if names.isEmpty then n.entries.erase name
        else n.entries.put name (m.erase names))

mutual

/-- All that is below a node, with the names that lead there. -/
def contents : FileNode → List (Place × FileEntry)
  | .file .. => []
  | .unreadable .. => []
  | .directory entries => contentsOf entries

/-- All that is in a directory with some entries, with the names that lead there. -/
def contentsOf : List (String × FileNode) → List (Place × FileEntry)
  | [] => []
  | (name, n) :: entries =>
    ([name], n.entry) :: (n.contents.map fun (place, e) => (name :: place, e)) ++ contentsOf entries

end

end FileNode

end JobIndex
