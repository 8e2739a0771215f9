import JobIndex.Proofs.Index.Resolution
import Mathlib.Data.List.Chain

/-!
# The ancestors are the longest line of parents

A line goes from a job to the active job of its parent, from there to that of the next parent, and
so on, and meets no name twice (`JobRegistry.Line`). In whatever registry:

* the names met on a climb, those before it and those of the jobs it adds, differ (`met`), and all
  that are added are names of the registry, so that a line has at most one job more than there are
  names;
* a climb ends for one of three reasons (`JobRegistry.Stops`): there is no parent, the parent is no
  job, or the parent has been met;
* from none of these ends does a line go on, so that every line from the job begins the climb.

The hops that a walk counts never decide anything: with more of them it finds the same ancestors.
-/

namespace JobIndex

/-- The names met when the jobs after the first of `jobs` are added to the names `seen`, which hold
the latest first. -/
def met (seen : List String) (jobs : List Job) : List String :=
  seen.reverse ++ jobs.tail.filterMap Job.name?

/-- A job that is reached is met under its name. -/
theorem met_cons_cons {job next : Job} {parent : String} (hname : next.name? = some parent)
    (seen : List String) (jobs : List Job) :
  met seen (job :: next :: jobs) = met (parent :: seen) (next :: jobs)
  := by
  rw [met, met, List.tail_cons, List.filterMap_cons_some hname, List.tail_cons,
    List.reverse_cons, List.append_assoc, List.singleton_append]

theorem met_singleton {job : Job} {name : String} (hname : job.name? = some name)
    (jobs : List Job) :
  met [name] (job :: jobs) = (job :: jobs).filterMap Job.name?
  := by
  rw [met, List.tail_cons, List.filterMap_cons_some hname]
  rfl

namespace JobRegistry

/-! ### Lines of parents -/

/-- The active job of the parent of a job. -/
def above? (r : JobRegistry) (job : Job) : Option Job :=
  job.parent?.bind r.get?

/-- A line from a job: from each job to the active job of its parent, no name twice. -/
structure Line (r : JobRegistry) (job : Job) (jobs : List Job) : Prop where
  head : jobs.head? = some job
  chain : jobs.IsChain fun child parent => r.above? child = some parent
  nodup : (jobs.filterMap Job.name?).Nodup

/-- Why the ancestors `a` end with the job `last`, where a walk that started at the name `start` has
met the names `met`: -/
inductive Stops (r : JobRegistry) (start : String) (met : List String) (a : Ancestry) (last : Job)
    (reported : List Diagnostic) : Prop
  /-- it has no parent, -/
  | root (hparent : last.parent? = none) (hcycle : a.cycle? = none) (hmissing : a.missing? = none)
      (hreported : reported = [])
  /-- or its parent has not been met and is no job, -/
  | missing {name parent : String} (hname : last.name? = some name)
      (hparent : last.parent? = some parent) (hfresh : parent ∉ met) (hget : r.get? parent = none)
      (hcycle : a.cycle? = none) (hmissing : a.missing? = some parent)
      (hreported : reported = [.unknownParent name parent])
  /-- or its parent has been met. -/
  | cycle {parent : String} (hparent : last.parent? = some parent) (hmet : parent ∈ met)
      (hcycle : a.cycle? = some (met ++ [parent])) (hmissing : a.missing? = none)
      (hreported : reported = [.parentCycle start (met ++ [parent])])

variable {r : JobRegistry} {start name : String} {seen : List String} {job last : Job}
  {a : Ancestry} {reported : List Diagnostic}

/-- Ancestors with one more job in front end for the same reason. -/
theorem Stops.cons {met : List String} (h : r.Stops start met a last reported) (job : Job) :
  r.Stops start met { a with jobs := job :: a.jobs } last reported
  := by
  cases h with
  | root hparent hcycle hmissing hreported => exact .root hparent hcycle hmissing hreported
  | missing hname hparent hfresh hget hcycle hmissing hreported =>
      exact .missing hname hparent hfresh hget hcycle hmissing hreported
  | cycle hparent hmet hcycle hmissing hreported =>
      exact .cycle hparent hmet hcycle hmissing hreported

/-! ### Climbs -/

namespace Climb

/-- There is one climb from a job. -/
theorem unique {b : Ancestry} {reported' : List Diagnostic} (h : Climb r start seen job a reported)
    (h' : Climb r start seen job b reported') :
  a = b ∧ reported = reported'
  := by
  induction h generalizing b with
  | root hparent => cases h' <;> simp_all
  | cycle hparent hmem => cases h' <;> simp_all
  | missing hparent hfresh hget => cases h' <;> simp_all
  | up hparent hfresh hget _ ih =>
      cases h' with
      | root hparent' => simp_all
      | cycle hparent' hmem' => simp_all
      | missing hparent' hfresh' hget' => simp_all
      | up hparent' hfresh' hget' hrest' =>
          obtain rfl := Option.some.inj (hparent.symm.trans hparent')
          obtain rfl := Option.some.inj (hget.symm.trans hget')
          obtain ⟨rfl, rfl⟩ := ih hrest'
          exact ⟨rfl, rfl⟩

/-- Each ancestor but the first is the active job of the parent before it. -/
theorem isChain (h : Climb r start seen job a reported) :
  a.jobs.IsChain fun child parent => r.above? child = some parent
  := by
  induction h with
  | root _ => apply List.isChain_singleton
  | cycle _ _ => apply List.isChain_singleton
  | missing _ _ _ => apply List.isChain_singleton
  | @up seen job next parent a reported hparent hfresh hget hclimb ih =>
      obtain ⟨rest, hjobs, -⟩ := hclimb.jobs_eq_cons
      rw [hjobs] at ih ⊢
      apply List.isChain_cons_cons.mpr ⟨?_, ih⟩
      rw [above?, hparent, Option.bind_some, hget]

variable {log : JobLog}

/-- A climb adds only names that have not been met. -/
theorem nodup_met (hr : r.Represents log) (h : Climb r start seen job a reported)
    (hseen : seen.Nodup) :
  (met seen a.jobs).Nodup
  := by
  induction h with
  | root _ => simpa [met] using hseen
  | cycle _ _ => simpa [met] using hseen
  | missing _ _ _ => simpa [met] using hseen
  | @up seen job next parent a reported hparent hfresh hget hclimb ih =>
      obtain ⟨rest, hjobs, -⟩ := hclimb.jobs_eq_cons
      rw [hjobs] at ih
      rw [hjobs, met_cons_cons (hr.name_of_get? hget)]
      apply ih (List.nodup_cons.mpr ⟨hfresh, hseen⟩)

/-- A climb ends for one of three reasons. -/
theorem exists_stops (hr : r.Represents log) (h : Climb r start seen job a reported)
    (hname : job.name? = some name) :
  ∃ last, a.jobs.getLast? = some last ∧ r.Stops start (met seen a.jobs) a last reported
  := by
  induction h generalizing name with
  | @root seen job hparent => exact ⟨job, rfl, .root hparent rfl rfl rfl⟩
  | @cycle seen job parent hparent hmem =>
      have hmet : met seen [job] = seen.reverse := List.append_nil _
      refine ⟨job, rfl, .cycle hparent ?_ ?_ rfl ?_⟩
      · rw [hmet, List.mem_reverse]
        exact hmem
      · rw [hmet]
      · rw [hmet]
  | @missing seen job parent hparent hfresh hget =>
      have hmet : met seen [job] = seen.reverse := List.append_nil _
      refine ⟨job, rfl, .missing hname hparent ?_ hget rfl rfl ?_⟩
      · rw [hmet, List.mem_reverse]
        exact hfresh
      · rw [hname, Option.getD_some]
  | @up seen job next parent a reported hparent hfresh hget hclimb ih =>
      obtain ⟨rest, hjobs, -⟩ := hclimb.jobs_eq_cons
      have hnext := hr.name_of_get? hget
      obtain ⟨last, hlast, hstops⟩ := ih hnext
      refine ⟨last, ?_, ?_⟩
      · rw [hjobs] at hlast ⊢
        rw [List.getLast?_cons_cons, hlast]
      · have hmet : met seen (job :: a.jobs) = met (parent :: seen) a.jobs := by
          rw [hjobs, met_cons_cons hnext]
        rw [hmet]
        apply hstops.cons

/-- A line that meets none of the names met before begins the climb. -/
theorem isPrefix (hr : r.Represents log) (h : Climb r start seen job a reported) {jobs : List Job}
    (hchain : (job :: jobs).IsChain fun child parent => r.above? child = some parent)
    (hnodup : (met seen (job :: jobs)).Nodup) :
  job :: jobs <+: a.jobs
  := by
  induction jobs generalizing job seen a with
  | nil =>
      obtain ⟨rest, hjobs, -⟩ := h.jobs_eq_cons
      rw [hjobs]
      apply List.cons_prefix_cons.mpr ⟨rfl, List.nil_prefix⟩
  | cons next jobs ih =>
      obtain ⟨habove, hrest⟩ := List.isChain_cons_cons.mp hchain
      obtain ⟨parent, hparent, hget⟩ := Option.bind_eq_some_iff.mp habove
      have hname := hr.name_of_get? hget
      rw [met_cons_cons hname] at hnodup
      have hfresh : parent ∉ seen := by
        rw [met, List.nodup_append, List.nodup_reverse] at hnodup
        apply (List.nodup_cons.mp hnodup.1).1
      cases h with
      | root hparent' =>
          rw [hparent'] at hparent
          cases hparent
      | cycle hparent' hmem =>
          obtain rfl := Option.some.inj (hparent.symm.trans hparent')
          exact absurd hmem hfresh
      | missing hparent' _ hnone =>
          obtain rfl := Option.some.inj (hparent.symm.trans hparent')
          rw [hnone] at hget
          cases hget
      | up hparent' _ hget' hclimb =>
          obtain rfl := Option.some.inj (hparent.symm.trans hparent')
          obtain rfl := Option.some.inj (hget.symm.trans hget')
          apply List.cons_prefix_cons.mpr ⟨rfl, ?_⟩
          apply ih hclimb hrest hnodup

/-- The names after the first are names of the registry. -/
theorem length_le (hr : r.Represents log) (h : Climb r start seen job a reported)
    (hseen : seen.Nodup) :
  a.jobs.length ≤ r.count + 1
  := by
  obtain ⟨rest, hjobs, hrest⟩ := h.jobs_eq_cons
  have hnodup := h.nodup_met hr hseen
  rw [hjobs, met, List.tail_cons] at hnodup
  have hsub : rest.filterMap Job.name? ⊆ r.byName.keys := by
    intro n hn
    obtain ⟨j, hj, hname⟩ := List.mem_filterMap.mp hn
    obtain ⟨m, hget⟩ := hrest j hj
    obtain rfl := Option.some.inj (hname.symm.trans (hr.name_of_get? hget))
    apply mem_keys_of_get? hget
  have hlength : (rest.filterMap Job.name?).length = rest.length := by
    rw [List.length_filterMap_eq_countP]
    apply List.countP_eq_length.mpr
    intro j hj
    obtain ⟨m, hget⟩ := hrest j hj
    rw [hr.name_of_get? hget]
    rfl
  have hle := (List.subperm_of_subset (List.nodup_append.mp hnodup).2.1 hsub).length_le
  rw [hlength, Table.keys, List.length_map] at hle
  rw [hjobs, List.length_cons]
  apply Nat.succ_le_succ hle

end Climb

/-! ### The ancestors of a job -/

/-- The ancestors of a job with a name are the longest line from it. -/
structure LongestLine (r : JobRegistry) (name : String) (job : Job) (a : Ancestry)
    (reported : List Diagnostic) : Prop where
  line : r.Line job a.jobs
  /-- All of them have names. -/
  names_eq : a.names.map some = a.jobs.map Job.name?
  length_le : a.jobs.length ≤ r.count + 1
  /-- They end for one reason, and only that is reported. -/
  stops : ∃ last, a.jobs.getLast? = some last ∧ r.Stops name a.names a last reported
  /-- No line goes elsewhere or further. -/
  longest : ∀ jobs, r.Line job jobs → jobs <+: a.jobs
  /-- More hops do not lead further. -/
  bound : ∀ hops, r.count < hops → r.walk name hops job [name] = (a, reported)

/-- After any sequence of operations, the ancestors of a job with a name, stored or not, are the
longest line from it. -/
theorem ancestors_longestLine (operations : List Operation) {job : Job} {name : String}
    (hname : job.name? = some name) :
  ∃ a reported, (run operations).ancestors job = .ok (a, reported) ∧
    (run operations).LongestLine name job a reported
  := by
  have hr := run_represents operations
  generalize run operations = r at hr
  obtain ⟨a, reported, hancestors, hclimb⟩ := r.ancestors_climb hname
  obtain ⟨rest, hjobs, -⟩ := hclimb.jobs_eq_cons
  have hmet : met [name] a.jobs = a.names := by
    rw [hjobs, met_singleton hname, Ancestry.names, hjobs]
  have hseen : [name].Nodup := List.nodup_singleton name
  use a, reported, hancestors
  constructor
  · constructor
    · rw [hjobs, List.head?_cons]
    · apply hclimb.isChain
    · have hnodup := hclimb.nodup_met hr hseen
      rwa [hmet] at hnodup
  · apply Ancestry.map_some_names (hclimb.named hr hname)
  · apply hclimb.length_le hr hseen
  · have hstops := hclimb.exists_stops hr hname
    rwa [hmet] at hstops
  · rintro (_ | ⟨first, jobs⟩) hline
    · apply List.nil_prefix
    · obtain rfl : first = job := Option.some.inj hline.head
      apply hclimb.isPrefix hr hline.chain
      rw [met_singleton hname]
      exact hline.nodup
  · intro hops hhops
    have hle := r.length_unseen_le [name]
    obtain ⟨ha, hreported⟩ := (r.walk_climb name (hle.trans_lt hhops)).unique hclimb
    rw [← ha, ← hreported]

/-- The line from a job that is not stored uses the whole registry, and its last parent is no
job. -/
theorem ancestors_longestLine_whole :
  let base : Job := ⟨⟨"a.yaml"⟩, [("name", .scalar "base"), ("parent", .scalar "root")], []⟩
  let unit : Job := ⟨⟨"b.yaml"⟩, [("name", .scalar "unit"), ("parent", .scalar "base")], []⟩
  let lint : Job := ⟨⟨"c.yaml"⟩, [("name", .scalar "lint"), ("parent", .scalar "unit")], []⟩
  lint.name? = some "lint" ∧ ∃ a reported,
    (run [.add base, .add unit]).ancestors lint = .ok (a, reported) ∧
    (run [.add base, .add unit]).LongestLine "lint" lint a reported
  := by
  intro base unit lint
  have hname : lint.name? = some "lint" := by decide
  exact ⟨hname, ancestors_longestLine [.add base, .add unit] hname⟩

end JobRegistry

end JobIndex
