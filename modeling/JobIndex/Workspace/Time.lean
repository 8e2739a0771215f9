/-!
# Modification times
-/

namespace JobIndex

/-- A modification time, in nanoseconds since the epoch. -/
structure FileTime where
  nanos : Int
deriving Repr, DecidableEq

namespace FileTime

/-- The time `secs` seconds and `nanos` nanoseconds from the epoch, both before it if `secs` is
negative. -/
def ofParts (secs : Int) (nanos : Nat) : FileTime :=
  if secs < 0 then ⟨secs * 1000000000 - nanos⟩ else ⟨secs * 1000000000 + nanos⟩

/-- The time a number of milliseconds from the epoch. -/
def ofMillis (millis : Int) : FileTime :=
  ⟨millis * 1000000⟩

/-- The whole milliseconds between the epoch and a time, negative before it, as a word. -/
def millis (t : FileTime) : Int64 :=
  Int64.ofInt (t.nanos.tdiv 1000000)

end FileTime

end JobIndex
