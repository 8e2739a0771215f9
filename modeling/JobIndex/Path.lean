/-!
# Paths

A path is kept as it is spelled and compared by its parts: repeated and trailing slashes and inner
`.` make no difference. Paths are ordered part by part, the root before `.` before `..` before
names, and names by their characters.
-/

namespace JobIndex

/-- A path as it is spelled. -/
structure Path where
  spelling : String
deriving Repr, Inhabited

namespace Path

/-- A part of a path. -/
inductive Part where
  | root
  | here
  | up
  | name (text : String)
deriving Repr, DecidableEq

/-- The part that a segment between slashes stands for. A `.` counts only at the very start. -/
def Part.ofSegment (first : Bool) (segment : List Char) : Option Part :=
  if segment.isEmpty then none
  else if segment == ['.'] then if first then some .here else none
  else if segment == ['.', '.'] then some .up
  else some (.name (String.ofList segment))

/-- Whether a path starts at the root. -/
def isAbsolute (p : Path) : Bool :=
  p.spelling.toList.head? == some '/'

/-- The parts of a path. -/
def parts (p : Path) : List Part :=
  match p.spelling.toList.splitOn '/' with
  | [] => []
  | first :: rest =>
    let body := (Part.ofSegment true first).toList ++ rest.filterMap (Part.ofSegment false)
    if p.isAbsolute then .root :: body else body

/-- Paths with the same parts are the same. -/
instance : BEq Path where
  beq p q := p.parts == q.parts

/-- The place of a part in the order of parts, as a word of numbers. -/
def Part.key : Part → List Nat
  | .root => [0]
  | .here => [1]
  | .up => [2]
  | .name text => 3 :: text.toList.map Char.toNat

/-- The place of a path in the order of paths. -/
def key (p : Path) : List (List Nat) :=
  p.parts.map Part.key

/-- The order of paths. -/
instance : Ord Path where
  compare p q := compare p.key q.key

/-- Whether a path comes before another one or is the same. -/
def le (p q : Path) : Bool :=
  (compare p q).isLE

/-- Paths in order. -/
def sort (paths : List Path) : List Path :=
  paths.mergeSort le

/-- The path that `q` names when it is read from the directory `p`. -/
def join (p q : Path) : Path :=
  if q.isAbsolute || p.spelling == "" then q
  else if p.spelling.toList.getLast? == some '/' then ⟨p.spelling ++ q.spelling⟩
  else ⟨p.spelling ++ "/" ++ q.spelling⟩

/-- The path of an entry of a directory. -/
def child (p : Path) (name : String) : Path :=
  p.join ⟨name⟩

/-! ### Paths below a directory -/

/-- The segments after so many parts; `first` tells that no segment has been passed. -/
def dropParts : Nat → Bool → List (List Char) → List (List Char)
  | 0, _, segments => segments
  | _ + 1, _, [] => []
  | n + 1, first, s :: segments =>
    if (Part.ofSegment first s).isSome || (first && s.isEmpty) then dropParts n false segments
    else dropParts (n + 1) false segments

/-- Whether a segment leads nowhere. -/
def isIdle (segment : List Char) : Bool :=
  segment.isEmpty || segment == ['.']

/-- Segments without those at the end that lead nowhere. -/
def trimSegments (segments : List (List Char)) : List (List Char) :=
  (segments.reverse.dropWhile isIdle).reverse

/-- The text of segments. -/
def ofSegments (segments : List (List Char)) : Path :=
  ⟨"/".intercalate (segments.map String.ofList)⟩

/-- A path without segments at its end that lead nowhere. -/
def trimEnd (p : Path) : Path :=
  match p.spelling.toList.splitOn '/' with
  | [] => p
  | first :: rest =>
    match trimSegments rest with
    | [] => if p.isAbsolute then ⟨"/"⟩ else ofSegments [first]
    | rest => ofSegments (first :: rest)

/-- The path that leads from a directory to a path below it. -/
def below? (dir p : Path) : Option Path :=
  if dir.parts.isPrefixOf p.parts then
    if dir.parts.isEmpty then some p.trimEnd
    else
      let rest := dropParts dir.parts.length true (p.spelling.toList.splitOn '/')
      some (ofSegments (trimSegments (rest.dropWhile isIdle)))
  else none

/-- The path that leads from a directory to a path, or the path itself if it is not below. -/
def relative (dir p : Path) : Path :=
  (below? dir p).getD p

end Path

end JobIndex
