import JobIndex.Path

/-!
# Locations

Where a scalar stands in a file. Lines and columns count from zero, columns in characters, and
bytes are counted from the start of the file.
-/

namespace JobIndex

/-- An occurrence of a scalar in a file. -/
structure Location where
  value : String
  file : Path
  line : Nat
  indentation : Nat
  startCol : Nat
  endCol : Nat
  startByte : Nat
  endByte : Nat
deriving Repr, BEq

namespace Location

/-- Whether a point lies in a location; the column after the last character does. -/
def contains (l : Location) (line col : Nat) : Bool :=
  l.line == line && decide (l.startCol ≤ col) && decide (col ≤ l.endCol)

/-- Whether two locations are the same occurrence: the same value on lines of the same number and
indentation. -/
def sameOccurrence (l m : Location) : Bool :=
  l.value == m.value && l.line == m.line && l.indentation == m.indentation

/-- The locations that differ from the one kept before them, which is `last`. -/
def collapseAfter (last : Location) : List Location → List Location
  | [] => []
  | l :: ls => if last.sameOccurrence l then collapseAfter last ls else l :: collapseAfter l ls

/-- Locations with neighbours of the same occurrence taken as one. -/
def collapse : List Location → List Location
  | [] => []
  | l :: ls => l :: collapseAfter l ls

/-- Whether a location comes before another one or stands at the same place. -/
def le (l m : Location) : Bool :=
  ((compare l.file m.file).then ((compare l.line m.line).then (compare l.startCol m.startCol))).isLE

/-- The locations without those equal to the one kept before them, which is `last`. -/
def dedupAfter (last : Location) : List Location → List Location
  | [] => []
  | l :: ls => if last == l then dedupAfter last ls else l :: dedupAfter l ls

/-- Locations with equal neighbours taken as one. -/
def dedup : List Location → List Location
  | [] => []
  | l :: ls => l :: dedupAfter l ls

/-- Locations in the order of files, lines and columns, equal neighbours taken as one. -/
def ordered (ls : List Location) : List Location :=
  dedup (ls.mergeSort le)

end Location

end JobIndex
