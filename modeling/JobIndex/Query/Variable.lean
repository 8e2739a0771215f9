import JobIndex.Record.Job
import JobIndex.Text.Line
import JobIndex.Text.White

/-!
# Variables

The references to variables in the scalars of a job: a name between double braces, which a filter
may follow after a bar. Values are never put in; only the places of the names are told.
-/

namespace JobIndex

/-- The letters, and the underscore. -/
def isNameStart (c : Char) : Bool :=
  ('a' ≤ c && c ≤ 'z') || ('A' ≤ c && c ≤ 'Z') || c == '_'

/-- The characters of a name after its first one. -/
def isNameChar (c : Char) : Bool :=
  isNameStart c || ('0' ≤ c && c ≤ '9') || c == '.'

/-- What follows a filter, which a bar begins and a brace ends. -/
def afterFilter : List Char → List Char
  | '|' :: cs => cs.dropWhile (· != '\x7d')
  | cs => cs

/-- A reference at the start of a sequence: the number of characters before its name, the name, and
what follows the reference. -/
def variableAt? : List Char → Option (Nat × List Char × List Char)
  | '\x7b' :: '\x7b' :: cs =>
    let body := cs.dropWhile Text.isWhite
    let name := body.takeWhile isNameChar
    if (name.head?.map isNameStart).getD false then
      match afterFilter ((body.dropWhile isNameChar).dropWhile Text.isWhite) with
      | '\x7d' :: '\x7d' :: rest => some (2 + (cs.takeWhile Text.isWhite).length, name, rest)
      | _ => none
    else
      none
  | _ => none

/-- The names of the references in a sequence, with their places; the first place is `i`. After a
reference the search goes on behind it, and `skip` characters are passed over. -/
def variablesFrom : Nat → Nat → List Char → List (Nat × List Char)
  | _, _, [] => []
  | i, skip + 1, _ :: cs => variablesFrom (i + 1) skip cs
  | i, 0, c :: cs =>
    match variableAt? (c :: cs) with
    | some (before, name, rest) =>
      (i + before, name) :: variablesFrom (i + 1) (cs.length - rest.length) cs
    | none => variablesFrom (i + 1) 0 cs

/-- A variable and where its name stands. -/
structure VariableToken where
  name : String
  location : Location
deriving Repr

/-- The location of a name that stands at place `i` of a located value. -/
def Location.part (l : Location) (i : Nat) (name : List Char) : Location :=
  let startCol := l.startCol + i
  let startByte := l.startByte + Text.byteSize (l.value.toList.take i)
  { l with
    value := String.ofList name
    startCol
    endCol := startCol + name.length
    startByte
    endByte := startByte + Text.byteSize name }

/-- The variables in a located value. -/
def Location.variables (l : Location) : List VariableToken :=
  (variablesFrom 0 0 l.value.toList).map fun (i, name) => ⟨String.ofList name, l.part i name⟩

/-- The variables in the located values of a job. -/
def Job.variables (job : Job) : List VariableToken :=
  job.locations.flatMap Location.variables

end JobIndex
