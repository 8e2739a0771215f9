import JobIndex.Glob.Matching
import JobIndex.Text.White
import JobIndex.Workspace.FileTree

/-!
# Ignored files

A directory may hold files that list patterns of paths to be ignored, or, after a `!`, to be kept
nevertheless. Of the lines of one file the last that matches counts, of the files the one in the
innermost directory, and `.ignore` counts before `.gitignore` and that before `.git/info/exclude`.
Last of all counts the list that a user has for everything.
-/

namespace JobIndex

/-- A line of a list of ignored paths. -/
structure IgnoreRule where
  glob : Glob
  /-- The path is kept. -/
  keeps : Bool
  /-- Only directories match. -/
  onlyDirectories : Bool
deriving Repr

/-- What a list says of a path. -/
inductive Verdict where
  | ignored
  | kept
deriving Repr, DecidableEq

namespace IgnoreRule

/-- Takes a first character away, if it is the given one. -/
def dropFirst (c : Char) : List Char → Bool × List Char
  | [] => (false, [])
  | d :: cs => if c == d then (true, cs) else (false, d :: cs)

/-- Takes a slash away from the end, with the backslash before it, if there is one. -/
def dropLastSlash (cs : List Char) : Bool × List Char :=
  match cs.reverse with
  | '/' :: '\\' :: rest => (true, rest.reverse)
  | '/' :: rest => (true, rest.reverse)
  | _ => (false, cs)

/-- The pattern of a line. One without a slash is looked for in all directories, and one that ends
with a double star does not match the directory itself. -/
def pattern (anchored : Bool) (line : List Char) : String :=
  let everywhere := !anchored && !line.contains '/' && line != ['*', '*']
  let text := (if everywhere then "**/" else "") ++ String.ofList line
  if text.endsWith "/**" then text ++ "/*" else text

/-- The signs at the start of a line: whether it keeps paths, whether it is anchored to its
directory, and what follows. A backslash takes the meaning from a sign. -/
def signs (line : List Char) : Bool × Bool × List Char :=
  match line with
  | '\\' :: '!' :: rest => (false, false, '!' :: rest)
  | '\\' :: '#' :: rest => (false, false, '#' :: rest)
  | _ =>
    let (keeps, line) := dropFirst '!' line
    let (anchored, line) := dropFirst '/' line
    (keeps, anchored, line)

/-- The line without white space at its end, unless a backslash protects it. -/
def trimmed (line : List Char) : List Char :=
  match line.reverse with
  | ' ' :: '\\' :: _ => line
  | _ => Text.trimEnd line

/-- The rule that a line stands for; comments, empty lines and lines with a faulty pattern stand for
none. -/
def ofLine? (line : List Char) : Option IgnoreRule :=
  if line.head? == some '#' then none
  else
    let line := trimmed line
    if line.isEmpty then none
    else
      let (keeps, anchored, line) := signs line
      let (onlyDirectories, line) := dropLastSlash line
      match Glob.compileSeparate (pattern anchored line) with
      | .error _ => none
      | .ok glob => some { glob, keeps, onlyDirectories }

/-- What a rule says of a path. -/
def verdict? (r : IgnoreRule) (path : String) (isDirectory : Bool) : Option Verdict :=
  if (isDirectory || !r.onlyDirectories) && r.glob.accepts path then
    some (if r.keeps then .kept else .ignored)
  else none

end IgnoreRule

namespace Ignore

/-- The lines of bytes: each ends with a line feed, before which a carriage return does not count.
`done` holds the bytes of the line so far in reverse. -/
def lineBytes : List UInt8 → List UInt8 → List (List UInt8)
  | done, [] => if done.isEmpty then [] else [done.reverse]
  | done, b :: bs =>
    if b == 10 then
      let line := if done.head? == some 13 then done.drop 1 else done
      line.reverse :: lineBytes [] bs
    else lineBytes (b :: done) bs

/-- The lines that are text, up to the first one that is none. -/
def textLines : List (List UInt8) → List (List Char)
  | [] => []
  | line :: lines =>
    match Text.decode line with
    | .error _ => []
    | .ok text => text.toList :: textLines lines

/-- The lines without byte order marks at the start. -/
def unmarked : List (List Char) → List (List Char)
  | [] => []
  | line :: lines => line.dropWhile (· == '\ufeff') :: lines

/-- The rules in a file. -/
def rules (bytes : List UInt8) : List IgnoreRule :=
  (unmarked (textLines (lineBytes [] bytes))).filterMap IgnoreRule.ofLine?

/-- What rules say of a path; the last one counts. -/
def verdictOf? (rules : List IgnoreRule) (path : String) (isDirectory : Bool) : Option Verdict :=
  rules.reverse.findSome? fun r => r.verdict? path isDirectory

/-- The files that list ignored paths, the first of them counting most. -/
def files : List (List String) :=
  [[".ignore"], [".gitignore"], [".git", "info", "exclude"]]

/-- The rules in a file at a place, none if there is no such file. -/
def rulesAt (t : FileTree) (place : Place) : List IgnoreRule :=
  match t.get? place with
  | some (.file content _) => rules content
  | _ => []

/-- Rules and how many names lead to the directory that they are in. -/
structure RuleList where
  depth : Nat
  rules : List IgnoreRule
deriving Repr

/-- What rules say of a place below their directory. -/
def RuleList.verdict? (l : RuleList) (place : Place) (isDirectory : Bool) : Option Verdict :=
  if l.depth < place.length then
    verdictOf? l.rules ("/".intercalate (place.drop l.depth)) isDirectory
  else none

/-- The rules in files with a name in the directories on the way to a place, the innermost first. -/
def rulesOnWay (t : FileTree) (place : Place) (file : List String) : List RuleList :=
  ((List.range place.length).reverse.map fun n => ⟨n, rulesAt t (place.take n ++ file)⟩).filter
    fun l => !l.rules.isEmpty

/-- The rules of the user, which hold everywhere. -/
def userRules (t : FileTree) : List RuleList :=
  match t.userIgnore? with
  | none => []
  | some place => [⟨0, rulesAt t place⟩]

/-- The rules for what is at a place, those first that count most. -/
def listsFor (t : FileTree) (place : Place) : List (List RuleList) :=
  files.map (rulesOnWay t place) ++ [userRules t]

/-- Whether a place is ignored: of the rules in files with one name the innermost directory with
something to say counts, and of the names the first. -/
def isIgnored (lists : List (List RuleList)) (place : Place) (isDirectory : Bool) : Bool :=
  lists.findSome? (fun ls => ls.findSome? fun l => l.verdict? place isDirectory) == some .ignored

/-- Whether a file below a place is reached without passing anything that is ignored. -/
def isReached (t : FileTree) (place : Place) (names : List String) : Bool :=
  let lists := listsFor t (place ++ names)
  (List.range names.length).all fun i =>
    !(isIgnored lists (place ++ names.take (i + 1)) (i + 1 < names.length))

end Ignore

end JobIndex
