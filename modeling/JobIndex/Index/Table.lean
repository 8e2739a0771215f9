/-!
# Tables

A finite map as a list of keys and values, each key at most once. Keys are compared by `==`; a key
that is written again keeps its first spelling.
-/

namespace JobIndex

/-- A finite map. -/
abbrev Table (κ ν : Type) := List (κ × ν)

namespace Table

variable {κ ν : Type} [BEq κ]

/-- The value of a key. -/
def get? (t : Table κ ν) (k : κ) : Option ν :=
  (t.find? fun e => e.1 == k).map Prod.snd

/-- Whether a table has a key. -/
def has (t : Table κ ν) (k : κ) : Bool :=
  t.any fun e => e.1 == k

/-- The table in which a key has a value. -/
def put (k : κ) (v : ν) : Table κ ν → Table κ ν
  | [] => [(k, v)]
  | e :: t => if e.1 == k then (e.1, v) :: t else e :: put k v t

/-- The table without a key. -/
def erase (t : Table κ ν) (k : κ) : Table κ ν :=
  t.filter fun e => !(e.1 == k)

/-- The keys of a table. -/
def keys (t : Table κ ν) : List κ :=
  t.map Prod.fst

/-- The values of a table. -/
def values (t : Table κ ν) : List ν :=
  t.map Prod.snd

/-! ### Tables of lists -/

variable {α : Type}

/-- The list of a key, which is empty if the table does not have the key. -/
def list (t : Table κ (List α)) (k : κ) : List α :=
  (t.get? k).getD []

/-- The table in which the list of a key holds only what is to be kept. A key of which nothing is
kept is dropped. -/
def sift (keep : α → Bool) (t : Table κ (List α)) (k : κ) : Table κ (List α) :=
  match (t.get? k).map (List.filter keep) with
  | none => t
  | some [] => t.erase k
  | some (a :: as) => t.put k (a :: as)

end Table

end JobIndex
