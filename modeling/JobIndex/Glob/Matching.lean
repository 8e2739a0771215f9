import JobIndex.Glob.LastName
import JobIndex.Glob.Shape
import JobIndex.Text.Utf8

/-!
# Matching paths

The shape that the tokens of a pattern stand for. Paths are matched byte by byte, so that a wildcard
for one character stands for one byte, and a class for the bytes of the characters in it.
-/

namespace JobIndex.Glob

/-- The byte of a slash. -/
def slash : UInt8 :=
  47

/-- A slash. -/
def slashShape : Shape :=
  .one (.single slash)

/-- Any bytes. -/
def anything : Shape :=
  .many .all

/-- Bytes one after another. -/
def bytesShape : List UInt8 → Shape
  | [] => .nothing
  | b :: bs => (Shape.one (.single b)).andThen (bytesShape bs)

/-- The bytes of a character. -/
def charBytes (c : Char) : List UInt8 :=
  Text.encodeCode c.toNat

/-- The ranges of bytes of a range of characters: the last byte of the first character up to the
first byte of the last one, and the other bytes of both for themselves. -/
def byteRanges (r : Char × Char) : List (UInt8 × UInt8) :=
  let low := charBytes r.1
  let high := charBytes r.2
  let itself := fun b => (b, b)
  if r.1 == r.2 then low.map itself
  else low.dropLast.map itself ++ [(low.getLast?.getD 0, high.head?.getD 0)]
    ++ (high.drop 1).map itself

/-- One of some shapes, anything else than none of them. -/
def eitherOf : List Shape → Shape
  | [] => .nothing
  | [a] => a
  | a :: shapes => .either a (eitherOf shapes)

mutual

/-- Whether a token stands for nothing: a group of such branches. -/
def Token.isBlank : Token → Bool
  | .alternatives branches => branchesBlank branches
  | _ => false

/-- Whether all branches stand for nothing. -/
def branchesBlank : List (List Token) → Bool
  | [] => true
  | b :: branches => tokensBlank b && branchesBlank branches

/-- Whether all tokens stand for nothing. -/
def tokensBlank : List Token → Bool
  | [] => true
  | t :: ts => t.isBlank && tokensBlank ts

end

mutual

/-- The shape of a token. With `separate`, wildcards do not stand for slashes. -/
def Token.shape (separate : Bool) : Token → Shape
  | .literal c => bytesShape (charBytes c)
  | .any => .one (if separate then .allBut slash else .all)
  | .star => .many (if separate then .allBut slash else .all)
  | .componentsFirst => .either (.either .nothing slashShape) (.followed anything slashShape)
  | .componentsLast => .followed slashShape anything
  | .components =>
    .either slashShape (.followed slashShape (.followed anything slashShape))
  | .oneOf negated ranges => .one ⟨negated, ranges.flatMap byteRanges⟩
  | .alternatives branches => eitherOf (branchShapes separate branches)

/-- The shapes of branches; those that stand for nothing do not count. -/
def branchShapes (separate : Bool) : List (List Token) → List Shape
  | [] => []
  | b :: branches =>
    if tokensBlank b then branchShapes separate branches
    else tokensShape separate b :: branchShapes separate branches

/-- The shape of tokens one after another. -/
def tokensShape (separate : Bool) : List Token → Shape
  | [] => .nothing
  | t :: ts => (t.shape separate).andThen (tokensShape separate ts)

end

/-- The shape of a pattern; a double star alone stands for anything. -/
def patternShape (separate : Bool) : List Token → Shape
  | [.componentsFirst] => anything
  | ts => tokensShape separate ts

end JobIndex.Glob

namespace JobIndex

/-- A pattern for paths. -/
structure Glob where
  text : String
  shape : Glob.Shape
  /-- Paths without a last name do not match. -/
  forLastName : Bool
deriving Repr

namespace Glob

/-- A text that is no pattern. -/
structure Error where
  text : String
  cause : Cause
deriving Repr

/-- The words for a text that is no pattern. -/
def Error.message (e : Error) : String :=
  "error parsing glob '" ++ e.text ++ "': " ++ e.cause.message

/-- A pattern whose wildcards stand for slashes too. -/
def compile (text : String) : Except Error Glob :=
  match tokens false text with
  | .error cause => .error ⟨text, cause⟩
  | .ok ts => .ok ⟨text, patternShape false ts, isForLastName false ts⟩

/-- A pattern whose wildcards do not stand for slashes, and in which a bracket that is not closed
stands for itself. -/
def compileSeparate (text : String) : Except Error Glob :=
  match tokens true text with
  | .error cause => .error ⟨text, cause⟩
  | .ok ts => .ok ⟨text, patternShape true ts, isForLastName true ts⟩

/-- Patterns in order; the first text that is none counts. -/
def compileAll : List String → Except Error (List Glob)
  | [] => .ok []
  | text :: texts =>
    match compile text with
    | .error e => .error e
    | .ok g =>
      match compileAll texts with
      | .error e => .error e
      | .ok globs => .ok (g :: globs)

/-- Whether a path matches a pattern. -/
def accepts (g : Glob) (path : String) : Bool :=
  !(g.forLastName && hasNoLastName path) && g.shape.fits (Text.encode path)

end Glob

end JobIndex
