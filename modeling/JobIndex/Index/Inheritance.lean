import JobIndex.Index.Jobs

/-!
# Inheritance

A job inherits the attributes of its parent, of the parent of that, and so on up to a job without a
parent, with a parent that is no job, or with a parent that is already among them. Of several values
for one path the one closest to the job counts.
-/

namespace JobIndex

/-- The ancestors of a job. -/
structure Ancestry where
  /-- The job itself, its parent, and so on. -/
  jobs : List Job
  /-- The names met and the one that is met again, if there is one. -/
  cycle? : Option (List String)
  /-- The parent that is no job, if there is one. -/
  missing? : Option String
deriving Repr

namespace Ancestry

/-- The names of the ancestors. -/
def names (a : Ancestry) : List String :=
  a.jobs.filterMap Job.name?

/-- Whether the walk was cut at a name that is met again. -/
def isTruncated (a : Ancestry) : Bool :=
  a.cycle?.isSome

end Ancestry

/-- A value that a job has or inherits. -/
structure ResolvedAttribute where
  path : String
  value : String
  /-- The job that gives the value. -/
  provenance : String
  location? : Option Location
  /-- The place of that job among the ancestors, counted from the root. -/
  depth : Nat
deriving Repr

/-- The last key of the path of a value. -/
def ResolvedAttribute.shortName (a : ResolvedAttribute) : String :=
  lastKey a.path

/-- The attributes that a job has or inherits, in the order of their paths. -/
structure Resolution where
  job : String
  /-- The names of the ancestors, the root first. -/
  chain : List String
  truncated : Bool
  entries : List ResolvedAttribute
deriving Repr

/-- The entries in which the path of `a` has the value of `a`. -/
def insertAttribute (a : ResolvedAttribute) : List ResolvedAttribute → List ResolvedAttribute
  | [] => [a]
  | b :: entries =>
    match compare a.path b.path with
    | .lt => a :: b :: entries
    | .eq => a :: entries
    | .gt => b :: insertAttribute a entries

/-- Of two values the one closer to the job, the first if they are equally close. -/
def closer (best? : Option ResolvedAttribute) (a : ResolvedAttribute) : Option ResolvedAttribute :=
  match best? with
  | some best => if best.depth ≥ a.depth then some best else some a
  | none => some a

namespace Resolution

/-- The value with a path, or else the closest one with that last key. -/
def get? (r : Resolution) (key : String) : Option ResolvedAttribute :=
  match r.entries.find? (·.path == key) with
  | some a => some a
  | none => (r.entries.filter (·.shortName == key)).foldl closer none

/-- The text of the value with a path or a last key. -/
def value? (r : Resolution) (key : String) : Option String :=
  (r.get? key).map ResolvedAttribute.value

end Resolution

namespace JobRegistry

/-- Walks from a job to its parents, at most `hops` times. `seen` holds the names met, latest first,
`start` is the name of the first job. -/
def walk (r : JobRegistry) (start : String) : Nat → Job → List String → Ancestry × List Diagnostic
  | hops, job, seen =>
    match job.parent? with
    | none => (⟨[job], none, none⟩, [])
    | some parent =>
      let cycle := seen.reverse ++ [parent]
      let stopped := (⟨[job], some cycle, none⟩, [Diagnostic.parentCycle start cycle])
      if seen.contains parent then stopped
      else match hops with
        | 0 => stopped
        | hops + 1 =>
          match r.get? parent with
          | none =>
            (⟨[job], none, some parent⟩, [.unknownParent (job.name?.getD start) parent])
          | some next =>
            let (rest, reported) := walk r start hops next (parent :: seen)
            ({ rest with jobs := job :: rest.jobs }, reported)

/-- The ancestors of a job, which needs a name. -/
def ancestors (r : JobRegistry) (job : Job) : Except JobError (Ancestry × List Diagnostic) :=
  match job.name with
  | .error e => .error e
  | .ok name => .ok (r.walk name (r.count + 1) job [name])

/-- The leaves of a job as values that it gives, which needs a name. -/
def contribution (depth : Nat) (job : Job) : Except JobError (List ResolvedAttribute) :=
  match job.name with
  | .error e => .error e
  | .ok name =>
    .ok (job.locatedLeaves.map fun leaf => ⟨leaf.path, leaf.value, name, leaf.location?, depth⟩)

/-- The values that jobs give, of which the first has place `depth`; later ones count. -/
def merge : Nat → List Job → List ResolvedAttribute → Except JobError (List ResolvedAttribute)
  | _, [], entries => .ok entries
  | depth, job :: jobs, entries =>
    match contribution depth job with
    | .error e => .error e
    | .ok given =>
      merge (depth + 1) jobs (given.foldl (fun entries a => insertAttribute a entries) entries)

/-- The attributes that a job has or inherits. -/
def resolve (r : JobRegistry) (job : Job) : Except JobError (Resolution × List Diagnostic) :=
  match r.ancestors job, job.name with
  | .error e, _ => .error e
  | .ok _, .error e => .error e
  | .ok (ancestry, reported), .ok name =>
    match merge 0 ancestry.jobs.reverse [] with
    | .error e => .error e
    | .ok entries =>
      .ok ({ job := name
             chain := ancestry.names.reverse
             truncated := ancestry.isTruncated
             entries }, reported)

/-- The attributes that the active job of a name has or inherits. -/
def resolveName (r : JobRegistry) (name : String) :
    Except JobError (Option Resolution × List Diagnostic) :=
  match r.get? name with
  | none => .ok (none, [])
  | some job =>
    match r.resolve job with
    | .error e => .error e
    | .ok (resolution, reported) => .ok (some resolution, reported)

end JobRegistry

end JobIndex
