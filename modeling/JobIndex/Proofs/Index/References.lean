import JobIndex.Proofs.Index.TemplateLog
import Mathlib.Data.List.Flatten
import Mathlib.Data.List.Perm.Basic
import Mathlib.Data.String.Basic

/-!
# The table of references is exact

The registry of templates keeps for each job the files in which a template names it, and finds the
templates by going through these files. A file is noted once for all its templates, and removing it
must take out what it noted and nothing else. After any sequence of operations

* the templates found for a job are those of the log that name it, in the order of their files and
  within a file in the order in which they were stored;
* the jobs in the table are those that some template names;
* removing a file touches no other file.

All of this follows from what the table holds for a log (`TemplateRegistry.Represents.answersFrom`).
-/

namespace JobIndex

/-! ### Files in order -/

namespace Path

theorem compare_eq_iff {p q : Path} :
  compare p q = .eq ↔ (p == q) = true
  := Std.LawfulBEqOrd.compare_eq_iff_beq

/-- Equal paths compare alike. -/
theorem compare_congr {p p' q q' : Path} (hp : (p == p') = true) (hq : (q == q') = true) :
  compare p q = compare p' q'
  := by
  have hleft : compare p q = compare p' q := Std.TransCmp.congr_left (compare_eq_iff.mpr hp)
  have hright : compare p' q = compare p' q' := Std.TransCmp.congr_right (compare_eq_iff.mpr hq)
  rw [hleft, hright]

theorem beq_eq_false_of_lt {p q : Path} (h : compare p q = .lt) :
  (p == q) = false
  := by
  rw [← Bool.not_eq_true]
  intro hpq
  rw [compare_eq_iff.mpr hpq] at h
  cases h

end Path

theorem any_insertPath (p file : Path) (ps : List Path) :
  (insertPath p ps).any (· == file) = (p == file || ps.any (· == file))
  := by
  induction ps with
  | nil => rfl
  | cons q ps ih =>
      rw [insertPath]
      cases h : compare p q with
      | lt => rfl
      | eq =>
          have hpq := Path.compare_eq_iff.mp h
          rw [List.any_cons, BEq.congr_left hpq, ← Bool.or_assoc, Bool.or_self]
      | gt => rw [List.any_cons, List.any_cons, ih, Bool.or_left_comm]

namespace TemplateLog

/-- The files for a job are those of the templates that name it. -/
theorem any_filesNaming (log : TemplateLog) (job : String) (file : Path) :
  (log.filesNaming job).any (· == file) = log.any fun t => t.mentions job && t.file == file
  := by
  induction log using List.reverseRecOn with
  | nil => rfl
  | append_singleton log t ih =>
      rw [filesNaming_append_singleton, List.any_append, List.any_cons, List.any_nil, Bool.or_false]
      cases t.mentions job with
      | true => rw [if_pos rfl, any_insertPath, ih, Bool.true_and, Bool.or_comm]
      | false => rw [if_neg Bool.false_ne_true, ih, Bool.false_and, Bool.or_false]

theorem filesNaming_ne_nil_iff {log : TemplateLog} {job : String} :
  log.filesNaming job ≠ [] ↔ ∃ t ∈ log, job ∈ t.references
  := by
  constructor
  · intro hne
    obtain ⟨file, hfile⟩ := List.exists_mem_of_ne_nil _ hne
    have hany : (log.filesNaming job).any (· == file) = true :=
      List.any_eq_true.mpr ⟨file, hfile, BEq.rfl⟩
    rw [any_filesNaming] at hany
    obtain ⟨t, ht, hmentions⟩ := List.any_eq_true.mp hany
    use t, ht
    rw [Bool.and_eq_true] at hmentions
    simpa [Template.mentions] using hmentions.1
  · rintro ⟨t, ht, hjob⟩ hnil
    have hany := any_filesNaming log job t.file
    rw [hnil, List.any_nil] at hany
    have hmentions : (t.mentions job && t.file == t.file) = true := by
      simpa [Template.mentions] using hjob
    rw [List.any_eq_true.mpr ⟨t, ht, hmentions⟩] at hany
    cases hany

/-! ### Templates file by file -/

theorem mem_inFile {log : TemplateLog} {file : Path} {t : Template} :
  t ∈ log.inFile file ↔ t ∈ log ∧ (t.file == file) = true
  := List.mem_filter

/-- Taking the first file leaves the log without it for the others. -/
theorem flatMap_inFile_cons (log : TemplateLog) {file : Path} {files : List Path}
    (hfiles : ∀ other ∈ files, (file == other) = false) :
  (file :: files).flatMap log.inFile
    = log.inFile file ++ files.flatMap (inFile (log.removeFile file))
  := by
  rw [List.flatMap_cons]
  congr 1
  apply List.flatMap_congr
  intro other hother
  rw [inFile_removeFile, hfiles other hother, if_neg Bool.false_ne_true]

theorem any_of_mem_removeFile {log : TemplateLog} {file : Path} {files : List Path}
    (h : ∀ t ∈ log, (file :: files).any (· == t.file) = true) :
  ∀ t ∈ log.removeFile file, files.any (· == t.file) = true
  := by
  intro t ht
  obtain ⟨hmem, hother⟩ := List.mem_filter.mp ht
  rw [Bool.not_eq_true', BEq.comm] at hother
  simpa only [List.any_cons, hother, Bool.false_or] using h t hmem

/-- Templates taken file by file are all of a log, if each file comes once and none is left out. -/
theorem flatMap_inFile_perm {log : TemplateLog} {files : List Path}
    (hfiles : files.Pairwise fun p q => (p == q) = false)
    (h : ∀ t ∈ log, files.any (· == t.file) = true) :
  (files.flatMap log.inFile).Perm log
  := by
  induction files generalizing log with
  | nil =>
      obtain rfl : log = [] := by
        apply List.eq_nil_iff_forall_not_mem.mpr
        intro t ht
        cases h t ht
      apply List.Perm.refl
  | cons file files ih =>
      obtain ⟨hfirst, hrest⟩ := List.pairwise_cons.mp hfiles
      rw [flatMap_inFile_cons log hfirst]
      apply List.Perm.trans _ (List.filter_append_perm (fun t => t.file == file) log)
      apply List.Perm.append_left
      apply ih hrest (any_of_mem_removeFile h)

/-- Templates taken file by file are in each file those that the log has there, in its order. -/
theorem inFile_flatMap_inFile {log : TemplateLog} {files : List Path}
    (hfiles : files.Pairwise fun p q => (p == q) = false)
    (h : ∀ t ∈ log, files.any (· == t.file) = true) (other : Path) :
  inFile (files.flatMap log.inFile) other = log.inFile other
  := by
  induction files generalizing log with
  | nil =>
      symm
      apply List.filter_eq_nil_iff.mpr
      intro t ht
      cases h t ht
  | cons file files ih =>
      obtain ⟨hfirst, hrest⟩ := List.pairwise_cons.mp hfiles
      rw [flatMap_inFile_cons log hfirst, inFile_append, ih hrest (any_of_mem_removeFile h),
        inFile_removeFile]
      cases hother : file == other with
      | true =>
          rw [if_pos rfl, List.append_nil, inFile, inFile, List.filter_filter]
          apply List.filter_congr
          intro t _
          rw [BEq.congr_right hother, Bool.and_self]
      | false =>
          have hnone : inFile (log.inFile file) other = [] := by
            apply List.filter_eq_nil_iff.mpr
            intro t ht
            rw [BEq.congr_left (mem_inFile.mp ht).2, hother]
            exact Bool.false_ne_true
          rw [if_neg Bool.false_ne_true, hnone, List.nil_append]

/-- Templates taken file by file, the files in order, stand in the order of their files. -/
theorem pairwise_flatMap_inFile (log : TemplateLog) {files : List Path} (hfiles : Increasing files) :
  (files.flatMap log.inFile).Pairwise fun a b => a.file.le b.file = true
  := by
  apply List.pairwise_flatMap.mpr
  constructor
  · intro file _
    apply List.pairwise_of_forall_mem_list
    intro a ha b hb
    rw [Path.le, Path.compare_congr (mem_inFile.mp ha).2 (mem_inFile.mp hb).2,
      Path.compare_eq_iff.mpr BEq.rfl]
    rfl
  · apply hfiles.imp
    intro p q hpq a ha b hb
    rw [Path.le, Path.compare_congr (mem_inFile.mp ha).2 (mem_inFile.mp hb).2, hpq]
    rfl

end TemplateLog

namespace TemplateRegistry

/-! ### Answers from the log -/

section

variable {r : TemplateRegistry} {log : TemplateLog}

theorem Represents.inFile_eq (hr : r.Represents log) (file : Path) :
  r.inFile file = log.inFile file
  := hr.byFile.list_eq file

/-- The templates found for a job are taken, file by file, from those of the log that name it. -/
theorem Represents.naming_eq (hr : r.Represents log) (job : String) :
  r.naming job
    = (log.filesNaming job).flatMap (TemplateLog.inFile (log.filter fun t => t.mentions job))
  := by
  rw [naming, filesNaming, hr.referencedBy.list_eq, List.filter_flatMap]
  apply List.flatMap_congr
  intro file _
  rw [hr.inFile_eq, TemplateLog.inFile, TemplateLog.inFile, List.filter_filter,
    List.filter_filter]
  congr 1
  funext t
  apply Bool.and_comm

theorem distinct_filesNaming (log : TemplateLog) (job : String) :
  (log.filesNaming job).Pairwise fun p q => (p == q) = false
  := (log.increasing_filesNaming job).imp Path.beq_eq_false_of_lt

/-- No file of a template that names a job is left out. -/
theorem any_filesNaming_of_mem (job : String) :
  ∀ t ∈ log.filter fun t => t.mentions job, (log.filesNaming job).any (· == t.file) = true
  := by
  intro t ht
  obtain ⟨hmem, hmentions⟩ := List.mem_filter.mp ht
  rw [TemplateLog.any_filesNaming]
  apply List.any_eq_true.mpr
  use t, hmem
  rw [hmentions, BEq.rfl, Bool.and_self]

theorem Represents.naming_perm (hr : r.Represents log) (job : String) :
  (r.naming job).Perm (log.filter fun t => t.mentions job)
  := by
  rw [hr.naming_eq]
  apply TemplateLog.flatMap_inFile_perm (distinct_filesNaming log job) (any_filesNaming_of_mem job)

theorem Represents.naming_inFile (hr : r.Represents log) (job : String) (file : Path) :
  TemplateLog.inFile (r.naming job) file = (log.inFile file).filter fun t => t.mentions job
  := by
  rw [hr.naming_eq, TemplateLog.inFile_flatMap_inFile (distinct_filesNaming log job)
    (any_filesNaming_of_mem job), TemplateLog.inFile, TemplateLog.inFile, List.filter_filter,
    List.filter_filter]
  congr 1
  funext t
  apply Bool.and_comm

theorem Represents.all_perm (hr : r.Represents log) :
  r.all.Perm log
  := by
  have hall : r.all = r.byFile.keys.flatMap log.inFile := by
    rw [all, Table.values, Table.keys, List.flatMap_map, ← List.flatMap_def]
    apply List.flatMap_congr
    intro e he
    rw [← hr.byFile.list_eq, Table.list, hr.byFile.distinct.get?_of_mem he, Option.getD_some]
  rw [hall]
  apply TemplateLog.flatMap_inFile_perm hr.byFile.distinct
  intro t ht
  have hne : r.byFile.list t.file ≠ [] := by
    rw [hr.byFile.list_eq]
    apply List.ne_nil_of_mem (TemplateLog.mem_inFile.mpr ⟨ht, BEq.rfl⟩)
  rw [Table.keys, List.any_map]
  apply (hr.byFile.filled.has_iff t.file).mpr hne

theorem Represents.mem_referencedJobs (hr : r.Represents log) (job : String) :
  job ∈ r.referencedJobs ↔ ∃ t ∈ log, job ∈ t.references
  := by
  rw [referencedJobs, List.mem_mergeSort, Table.mem_keys_iff_has, hr.referencedBy.filled.has_iff,
    hr.referencedBy.list_eq, TemplateLog.filesNaming_ne_nil_iff]

/-- The jobs that templates name come in order, each once. -/
theorem Represents.referencedJobs_sorted (hr : r.Represents log) :
  r.referencedJobs.Pairwise (· < ·)
  := by
  have hle : r.referencedJobs.Pairwise fun a b => decide (a ≤ b) = true := by
    apply List.pairwise_mergeSort
    · intro a b c hab hbc
      rw [decide_eq_true_eq] at hab hbc ⊢
      apply le_trans hab hbc
    · intro a b
      rw [Bool.or_eq_true, decide_eq_true_eq, decide_eq_true_eq]
      apply le_total
  have hne : r.referencedJobs.Pairwise (· ≠ ·) :=
    (List.mergeSort_perm _ _).nodup_iff.mpr hr.referencedBy.distinct.nodup_keys
  apply (hle.and hne).imp
  rintro a b ⟨hab, hne'⟩
  apply lt_of_le_of_ne (of_decide_eq_true hab) hne'

/-- Of each template that names a job all locations count whose value is the job. -/
theorem referenceLocations_eq (r : TemplateRegistry) (job : String) :
  r.referenceLocations job = (r.naming job).flatMap fun t => t.locations.filter (·.value == job)
  := by
  rw [referenceLocations]
  apply List.flatMap_congr
  intro t ht
  rw [Template.referenceLocations, if_pos (List.mem_filter.mp ht).2]

theorem Represents.removed_eq (hr : r.Represents log) (file : Path) :
  (r.removeFile file).2 = (log.inFile file).length
  := by
  rw [← hr.inFile_eq, inFile, Table.list, TemplateRegistry.removeFile]
  cases r.byFile.get? file <;> rfl

theorem Represents.inFile_removeFile (hr : r.Represents log) (file other : Path) :
  (r.removeFile file).1.inFile other = if file == other then [] else r.inFile other
  := by
  rw [(hr.removeFile file).inFile_eq, TemplateLog.inFile_removeFile, hr.inFile_eq]

end

/-- Every question to `r` about the templates that name a job is answered from `log`. -/
structure AnswersFrom (r : TemplateRegistry) (log : TemplateLog) : Prop where
  /-- The templates are those of the log, -/
  all : r.all.Perm log
  /-- those of a file in the order in which they were stored. -/
  inFile : ∀ file, r.inFile file = log.inFile file
  /-- The templates for a job are those that name it, -/
  naming : ∀ job, (r.naming job).Perm (log.filter fun t => t.mentions job)
  /-- in the order of their files, -/
  naming_sorted : ∀ job, (r.naming job).Pairwise fun a b => a.file.le b.file = true
  /-- and within a file in the order in which they were stored. -/
  naming_inFile : ∀ job file,
    TemplateLog.inFile (r.naming job) file = (log.inFile file).filter fun t => t.mentions job
  /-- The jobs are those that some template names, -/
  referencedJobs : ∀ job, job ∈ r.referencedJobs ↔ ∃ t ∈ log, job ∈ t.references
  /-- in order and each once. -/
  referencedJobs_sorted : r.referencedJobs.Pairwise (· < ·)
  /-- A job is named at the locations of these templates that have it as their value. -/
  referenceLocations : ∀ job,
    r.referenceLocations job = (r.naming job).flatMap fun t => t.locations.filter (·.value == job)
  /-- Removing a file says how many templates stood there, and leaves those of all others. -/
  removed : ∀ file, (r.removeFile file).2 = (log.inFile file).length
  kept : ∀ file other,
    (r.removeFile file).1.inFile other = if file == other then [] else r.inFile other

theorem Represents.answersFrom {r : TemplateRegistry} {log : TemplateLog}
    (hr : r.Represents log) :
  r.AnswersFrom log
  where
  all := hr.all_perm
  inFile := hr.inFile_eq
  naming := hr.naming_perm
  naming_sorted job := by
    rw [hr.naming_eq]
    apply TemplateLog.pairwise_flatMap_inFile _ (log.increasing_filesNaming job)
  naming_inFile := hr.naming_inFile
  referencedJobs := hr.mem_referencedJobs
  referencedJobs_sorted := hr.referencedJobs_sorted
  referenceLocations := r.referenceLocations_eq
  removed := hr.removed_eq
  kept := hr.inFile_removeFile

/-! ### Sequences of operations -/

/-- An operation on the stored templates. -/
inductive Operation where
  | add (t : Template)
  | removeFile (file : Path)
  | clear

/-- The registry after an operation. -/
def perform (r : TemplateRegistry) : Operation → TemplateRegistry
  | .add t => r.add t
  | .removeFile file => (r.removeFile file).1
  | .clear => empty

/-- The registry after operations, from one without templates. -/
def run (operations : List Operation) : TemplateRegistry :=
  operations.foldl perform empty

end TemplateRegistry

/-- The log after an operation. -/
def TemplateLog.perform (log : TemplateLog) : TemplateRegistry.Operation → TemplateLog
  | .add t => log ++ [t]
  | .removeFile file => log.removeFile file
  | .clear => []

/-- The log after operations, from one without templates. -/
def TemplateLog.run (operations : List TemplateRegistry.Operation) : TemplateLog :=
  operations.foldl TemplateLog.perform []

namespace TemplateRegistry

/-- A registry stays in step with its log under every operation. -/
theorem Represents.perform {r : TemplateRegistry} {log : TemplateLog} (hr : r.Represents log)
    (operation : Operation) :
  (r.perform operation).Represents (log.perform operation)
  := by
  cases operation with
  | add t => apply hr.add
  | removeFile file => apply hr.removeFile
  | clear => apply represents_empty

theorem Represents.foldl_perform {r : TemplateRegistry} {log : TemplateLog}
    (hr : r.Represents log) (operations : List Operation) :
  (operations.foldl TemplateRegistry.perform r).Represents
    (operations.foldl TemplateLog.perform log)
  := by
  induction operations generalizing r log with
  | nil => exact hr
  | cons operation operations ih => apply ih (hr.perform operation)

/-- After any sequence of operations, whatever is asked of the registry about templates and the jobs
that they name is answered from the log of the same operations. -/
theorem run_references_exact (operations : List Operation) :
  (run operations).AnswersFrom (TemplateLog.run operations)
  := (represents_empty.foldl_perform operations).answersFrom

end TemplateRegistry

end JobIndex
