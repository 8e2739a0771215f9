/-!
# Shapes of byte sequences

A shape stands for a set of byte sequences. `Shape.Holds` says which ones, and `Shape.fits` decides
it: it goes through the shape once and keeps marks at the points between bytes that are reached.
-/

namespace JobIndex.Glob

/-- A set of bytes: those in some ranges, or all others. -/
structure ByteSet where
  negated : Bool
  ranges : List (UInt8 × UInt8)
deriving Repr, DecidableEq

namespace ByteSet

/-- All bytes. -/
def all : ByteSet :=
  ⟨true, []⟩

/-- One byte. -/
def single (b : UInt8) : ByteSet :=
  ⟨false, [(b, b)]⟩

/-- All bytes but one. -/
def allBut (b : UInt8) : ByteSet :=
  ⟨true, [(b, b)]⟩

/-- Whether a set has a byte. -/
def has (s : ByteSet) (b : UInt8) : Bool :=
  (s.ranges.any fun r => r.1 ≤ b && b ≤ r.2) != s.negated

end ByteSet

/-- A set of byte sequences. -/
inductive Shape where
  /-- No bytes. -/
  | nothing
  /-- One byte of a set. -/
  | one (s : ByteSet)
  /-- Any number of bytes of a set. -/
  | many (s : ByteSet)
  /-- A sequence of one shape, and then one of the other. -/
  | followed (a b : Shape)
  /-- A sequence of one of two shapes. -/
  | either (a b : Shape)
deriving Repr, DecidableEq

namespace Shape

/-- Which byte sequences are of a shape. -/
inductive Holds : Shape → List UInt8 → Prop where
  | nothing : Holds .nothing []
  | one {s : ByteSet} {b : UInt8} : s.has b = true → Holds (.one s) [b]
  | many {s : ByteSet} {bs : List UInt8} : (∀ b ∈ bs, s.has b = true) → Holds (.many s) bs
  | followed {a b : Shape} {bs cs : List UInt8} :
      Holds a bs → Holds b cs → Holds (.followed a b) (bs ++ cs)
  | left {a b : Shape} {bs : List UInt8} : Holds a bs → Holds (.either a b) bs
  | right {a b : Shape} {bs : List UInt8} : Holds b bs → Holds (.either a b) bs

/-- One shape after another. -/
def andThen (a b : Shape) : Shape :=
  match a with
  | .nothing => b
  | _ => .followed a b

/-- The points one byte of a set behind those that are marked. -/
def afterOne (s : ByteSet) (bytes : List UInt8) (marks : List Bool) : List Bool :=
  false :: List.zipWith (fun b m => m && s.has b) bytes marks

/-- The points any number of bytes of a set behind those that are marked; `reached` tells of the
first point whether a mark before it reaches it. -/
def afterMany (s : ByteSet) : Bool → List UInt8 → List Bool → List Bool
  | _, _, [] => []
  | reached, [], m :: _ => [reached || m]
  | reached, b :: bs, m :: marks =>
    (reached || m) :: afterMany s ((reached || m) && s.has b) bs marks

/-- The points that a sequence of a shape reaches from those that are marked. There is a mark for
the point before each of the bytes, and one for their end. -/
def reach : Shape → List UInt8 → List Bool → List Bool
  | .nothing, _, marks => marks
  | .one s, bytes, marks => afterOne s bytes marks
  | .many s, bytes, marks => afterMany s false bytes marks
  | .followed a b, bytes, marks => b.reach bytes (a.reach bytes marks)
  | .either a b, bytes, marks =>
    List.zipWith (fun m n => m || n) (a.reach bytes marks) (b.reach bytes marks)

/-- Whether a sequence is of a shape: the shape reaches from its start to its end. -/
def fits (a : Shape) (bytes : List UInt8) : Bool :=
  (a.reach bytes (true :: bytes.map fun _ => false)).getLast?.getD false

end Shape

end JobIndex.Glob
