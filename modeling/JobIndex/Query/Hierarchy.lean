import JobIndex.Index.Jobs

/-!
# The tree of descendants

The jobs below a job, each under its parent. A job on the way from the root is not entered again.
-/

namespace JobIndex

/-- A job and the jobs below it. -/
inductive Hierarchy where
  | node (name : String) (file : Path) (line? : Option Nat) (children : List Hierarchy)
deriving Repr

namespace Hierarchy

mutual

/-- The number of jobs in a tree. -/
def size : Hierarchy → Nat
  | .node _ _ _ children => 1 + sizes children

/-- The number of jobs in trees. -/
def sizes : List Hierarchy → Nat
  | [] => 0
  | h :: hs => h.size + sizes hs

end

end Hierarchy

namespace JobRegistry

/-- The tree below a job, at most `depth` deep; `above` holds the names on the way to it. -/
def descend (r : JobRegistry) : Nat → List String → String → Job → Hierarchy
  | 0, _, name, job => .node name job.file (job.nameLocation?.map Location.line) []
  | depth + 1, above, name, job =>
    .node name job.file (job.nameLocation?.map Location.line)
      ((r.children name).filterMap fun child =>
        match child.name? with
        | none => none
        | some childName =>
          if (name :: above).contains childName then none
          else some (descend r depth (name :: above) childName child))

/-- The tree below the active job of a name. No way down is longer than there are names. -/
def hierarchy? (r : JobRegistry) (name : String) : Option Hierarchy :=
  (r.get? name).map (r.descend r.count [] name)

end JobRegistry

end JobIndex
