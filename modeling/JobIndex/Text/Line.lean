/-!
# Lines of a text

A text is cut after each line feed. A `Line` is what stands on it, without the line feed and the
carriage returns before it, and the byte at which it starts. Positions on a line count characters,
positions in the text count bytes; `byteSize` takes one to the other. The blanks at the start of a
line are counted on the piece itself, from which only its line break is taken.
-/

namespace JobIndex.Text

/-- The number of bytes of a sequence of characters. -/
def byteSize : List Char → Nat
  | [] => 0
  | c :: cs => c.utf8Size + byteSize cs

/-- A line: its characters, and the number of bytes before it in the text. -/
structure Line where
  content : List Char
  start : Nat
deriving Repr, DecidableEq

/-- Cuts after each line feed. -/
def pieces : List Char → List (List Char)
  | [] => []
  | c :: cs =>
    if c == '\n' then [c] :: pieces cs
    else
      match pieces cs with
      | [] => [[c]]
      | piece :: rest => (c :: piece) :: rest

/-- A piece without the character `c` at its end, however often it stands there. -/
def dropTrailing (c : Char) (cs : List Char) : List Char :=
  (cs.reverse.dropWhile (· == c)).reverse

/-- What stands on a line: a piece without its line feed and the carriage returns before it. -/
def lineContent (piece : List Char) : List Char :=
  dropTrailing '\r' (dropTrailing '\n' piece)

/-- The lines of pieces of which the first starts at byte `start`. -/
def linesFrom (start : Nat) : List (List Char) → List Line
  | [] => []
  | piece :: rest => ⟨lineContent piece, start⟩ :: linesFrom (start + byteSize piece) rest

/-- The lines of a text. -/
def lines (text : String) : Array Line :=
  (linesFrom 0 (pieces text.toList)).toArray

/-- A piece without its line break: a line feed, and a carriage return if one stands before it. -/
def withoutBreak (piece : List Char) : List Char :=
  match piece.reverse with
  | '\n' :: '\r' :: cs => cs.reverse
  | '\n' :: cs => cs.reverse
  | _ => piece

/-- The number of spaces and tabs at the start of a sequence of characters. -/
def blanks (cs : List Char) : Nat :=
  (cs.takeWhile fun c => c == ' ' || c == '\t').length

/-- The number of blanks at the start of each line of a text. -/
def indentations (text : String) : Array Nat :=
  ((pieces text.toList).map fun piece => blanks (withoutBreak piece)).toArray

/-- The place of the first occurrence of `word` in a sequence whose first place is `i`. -/
def findFrom (word : List Char) : List Char → Nat → Option Nat
  | [], i => if word.isEmpty then some i else none
  | c :: cs, i => if word.isPrefixOf (c :: cs) then some i else findFrom word cs (i + 1)

/-- The column at which `word` stands on a line: its first occurrence at or after `column`, or else
its first occurrence. -/
def Line.find? (line : Line) (word : List Char) (column : Nat) : Option Nat :=
  let from? := findFrom word (line.content.drop column) (min column line.content.length)
  from?.or (findFrom word line.content 0)

end JobIndex.Text
