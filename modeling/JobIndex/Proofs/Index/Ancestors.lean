import JobIndex.Index.Inheritance
import JobIndex.Proofs.Index.JobLog

/-!
# The walk to the ancestors

The walk from a job to its parents counts hops so that it ends whatever the registry holds. In a
registry that is in step with a log the count is never used up: a name is met at most once, and
there are not more names than hops. `Climb` is the walk without hops, and the walk is a climb.
-/

namespace JobIndex.JobRegistry

/-- The walk from a job up to its last ancestor: `Climb r start seen job a reported` says that from
`job`, when the names `seen` have been met, the ancestors are `a` and the walk, which started at the
name `start`, reports `reported`. -/
inductive Climb (r : JobRegistry) (start : String) :
    List String → Job → Ancestry → List Diagnostic → Prop where
  | root {seen : List String} {job : Job} :
      job.parent? = none → Climb r start seen job ⟨[job], none, none⟩ []
  | cycle {seen : List String} {job : Job} {parent : String} :
      job.parent? = some parent → parent ∈ seen →
      Climb r start seen job ⟨[job], some (seen.reverse ++ [parent]), none⟩
        [.parentCycle start (seen.reverse ++ [parent])]
  | missing {seen : List String} {job : Job} {parent : String} :
      job.parent? = some parent → parent ∉ seen → r.get? parent = none →
      Climb r start seen job ⟨[job], none, some parent⟩
        [.unknownParent (job.name?.getD start) parent]
  | up {seen : List String} {job next : Job} {parent : String} {a : Ancestry}
      {reported : List Diagnostic} :
      job.parent? = some parent → parent ∉ seen → r.get? parent = some next →
      Climb r start (parent :: seen) next a reported →
      Climb r start seen job { a with jobs := job :: a.jobs } reported

/-- The names of a registry that have not been met. -/
def unseen (r : JobRegistry) (seen : List String) : List String :=
  r.byName.keys.filter fun name => !seen.contains name

theorem length_unseen_le (r : JobRegistry) (seen : List String) :
  (r.unseen seen).length ≤ r.count
  := by
  rw [unseen, count, ← List.length_map Prod.fst]
  apply List.length_filter_le

/-- A name of the registry that is met leaves fewer names to be met. -/
theorem length_unseen_cons_lt {r : JobRegistry} {seen : List String} {name : String}
    (hname : name ∈ r.byName.keys) (hfresh : name ∉ seen) :
  (r.unseen (name :: seen)).length < (r.unseen seen).length
  := by
  have hfilter : r.unseen (name :: seen) = (r.unseen seen).filter fun n => !(n == name) := by
    rw [unseen, unseen, List.filter_filter]
    congr 1
    funext n
    rw [List.contains_cons, Bool.not_or]
  rw [hfilter]
  apply List.length_filter_lt_length_iff_exists.mpr
  use name
  constructor
  · simp [unseen, hname, hfresh]
  · simp

theorem mem_keys_of_get? {r : JobRegistry} {name : String} {job : Job}
    (h : r.get? name = some job) :
  name ∈ r.byName.keys
  := by
  have hne : r.byName.list name ≠ [] := by
    intro hnil
    rw [get?, definitions, hnil] at h
    cases h
  obtain ⟨key, hkey, hmem⟩ := Table.mem_of_list_ne_nil hne
  obtain rfl := beq_iff_eq.mp hkey
  apply List.mem_map_of_mem hmem

/-- With more hops than names that have not been met, the walk is a climb. -/
theorem walk_climb (r : JobRegistry) (start : String) {hops : Nat} {job : Job} {seen : List String}
    (hhops : (r.unseen seen).length < hops) :
  Climb r start seen job (r.walk start hops job seen).1 (r.walk start hops job seen).2
  := by
  -- Each hop meets a name of the registry that was not met before, so the hops never run out.
  induction hops generalizing job seen with
  | zero => cases hhops
  | succ hops ih =>
      rw [walk]
      cases hparent : job.parent? with
      | none =>
          simp only
          apply Climb.root hparent
      | some parent =>
          by_cases hseen : parent ∈ seen
          · simp only [List.contains_iff_mem.mpr hseen, if_true]
            apply Climb.cycle hparent hseen
          · simp only [List.contains_iff_mem, hseen, if_false]
            cases hget : r.get? parent with
            | none => apply Climb.missing hparent hseen hget
            | some next =>
                apply Climb.up hparent hseen hget
                apply ih
                have hlt := length_unseen_cons_lt (mem_keys_of_get? hget) hseen
                omega

/-- A job with a name has ancestors, and they are reached by a climb. -/
theorem ancestors_climb (r : JobRegistry) {job : Job} {name : String} (h : job.name? = some name) :
  ∃ a reported, r.ancestors job = .ok (a, reported) ∧ Climb r name [name] job a reported
  := by
  use (r.walk name (r.count + 1) job [name]).1, (r.walk name (r.count + 1) job [name]).2
  constructor
  · simp [ancestors, Job.name, h]
  · apply walk_climb
    have hle := r.length_unseen_le [name]
    omega

namespace Climb

variable {r : JobRegistry} {start : String} {seen : List String} {job : Job} {a : Ancestry}
  {reported : List Diagnostic}

/-- The first ancestor is the job itself, the others are active jobs of the registry. -/
theorem jobs_eq_cons (h : Climb r start seen job a reported) :
  ∃ rest, a.jobs = job :: rest ∧ ∀ j ∈ rest, ∃ name, r.get? name = some j
  := by
  induction h with
  | root _ => exact ⟨[], rfl, by simp⟩
  | cycle _ _ => exact ⟨[], rfl, by simp⟩
  | missing _ _ _ => exact ⟨[], rfl, by simp⟩
  | up _ _ hget _ ih =>
      obtain ⟨rest, hjobs, hrest⟩ := ih
      refine ⟨_, rfl, ?_⟩
      rw [hjobs]
      intro j hj
      rcases List.mem_cons.mp hj with rfl | hj
      · exact ⟨_, hget⟩
      · apply hrest j hj

/-- The walk is cut exactly when the parent of the last ancestor has been met. -/
theorem isTruncated_iff (hnames : ∀ name j, r.get? name = some j → j.name? = some name)
    (h : Climb r start seen job a reported) :
  a.isTruncated = true ↔ ∃ last parent, a.jobs.getLast? = some last ∧ last.parent? = some parent ∧
    (parent ∈ seen ∨ parent ∈ a.jobs.tail.filterMap Job.name?)
  := by
  induction h with
  | root hparent => simp [Ancestry.isTruncated, hparent]
  | cycle hparent hseen => simp [Ancestry.isTruncated, hparent, hseen]
  | missing hparent hfresh _ => simp [Ancestry.isTruncated, hparent, hfresh]
  | @up seen job next parent a reported hparent hfresh hget hclimb ih =>
      obtain ⟨rest, hjobs, -⟩ := hclimb.jobs_eq_cons
      have hname := hnames parent next hget
      rw [Ancestry.isTruncated] at ih ⊢
      rw [ih, hjobs]
      simp [List.getLast?_cons_cons, hname, or_assoc, or_left_comm]

end Climb

end JobIndex.JobRegistry
