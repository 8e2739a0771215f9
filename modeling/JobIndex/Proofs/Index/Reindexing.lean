import JobIndex.Proofs.Index.History
import JobIndex.Proofs.Index.References

/-!
# Indexing a file again

When a file is indexed again with the text that it has, its records move to the end of the log.

* Its templates and the files of the index show nothing of that.
* Of the definitions of a job the last one is active, so those of the file become active
  (`JobLog.newest?_moved`), also where that of another file was active before.

So what an index holds stays the same exactly if the file has the active definition of each job that
it defines (`IndexState.snapshot_reindexed_iff`).
-/

namespace JobIndex

/-! ### Lists in order -/

section

variable {α : Type} (cmp : α → α → Ordering) [Std.TransCmp cmp]

theorem pairwise_mergeSort_isLE (l : List α) :
  (l.mergeSort fun a b => (cmp a b).isLE).Pairwise fun a b => (cmp a b).isLE = true
  := by
  apply List.pairwise_mergeSort
  · intro a b c hab hbc
    apply Std.TransCmp.isLE_trans hab hbc
  · intro a b
    have hswap : cmp b a = (cmp a b).swap := Std.OrientedCmp.eq_swap
    rw [hswap]
    cases cmp a b <;> rfl

/-- Lists with the same items are in the same order when they are sorted, if only equal items
compare as equal. -/
theorem mergeSort_eq_of_perm {l l' : List α} (h : l.Perm l')
    (heq : ∀ a ∈ l, ∀ b ∈ l, cmp a b = .eq → a = b) :
  l.mergeSort (fun a b => (cmp a b).isLE) = l'.mergeSort fun a b => (cmp a b).isLE
  := by
  have hsorted : (l.mergeSort fun a b => (cmp a b).isLE).Perm l := List.mergeSort_perm _ _
  have hsorted' : (l'.mergeSort fun a b => (cmp a b).isLE).Perm l' := List.mergeSort_perm _ _
  apply List.Perm.eq_of_pairwise _ (pairwise_mergeSort_isLE cmp l) (pairwise_mergeSort_isLE cmp l')
  · apply hsorted.trans (h.trans hsorted'.symm)
  · intro a b ha hb hab hba
    apply heq a (hsorted.mem_iff.mp ha) b (h.mem_iff.mpr (hsorted'.mem_iff.mp hb))
    apply Std.OrientedCmp.isLE_antisymm hab hba

end

/-! ### Jobs that move to the end -/

namespace JobLog

/-- The jobs of a file that move to the end become the active ones of their names, and all other
names keep theirs. -/
theorem newest?_moved (log : JobLog) (file : Path) (name : String) :
  newest? (log.removeFile file ++ log.inFile file) name
    = (newest? (log.inFile file) name).or (log.newest? name)
  := by
  rw [newest?, definitions_append, List.getLast?_append, ← newest?]
  cases hnewest : newest? (log.inFile file) name with
  | some job => rfl
  | none =>
      have hnone : definitions (log.inFile file) name = [] := List.getLast?_eq_none_iff.mp hnewest
      have hkept : (log.removeFile file).definitions name = log.definitions name := by
        rw [definitions_removeFile]
        apply List.filter_eq_self.mpr
        intro job hjob
        obtain ⟨hmem, hname⟩ := mem_definitions.mp hjob
        rw [Bool.not_eq_true', ← Bool.not_eq_true]
        intro hfile
        have hjob' : job ∈ definitions (log.inFile file) name :=
          mem_definitions.mpr ⟨mem_inFile.mpr ⟨hmem, hfile⟩, hname⟩
        rw [hnone] at hjob'
        cases hjob'
      rw [hkept]
      rfl

/-- The active jobs then stand in the same files as before exactly if the file already had the
active one of each name that it defines. -/
theorem file_moved_iff {log : JobLog} {file spelled : Path}
    (hspelled : ∀ job ∈ log.inFile file, job.file = spelled) :
  (∀ name, (newest? (log.removeFile file ++ log.inFile file) name).map Job.file
      = (log.newest? name).map Job.file)
    ↔ ∀ job ∈ log.inFile file, ∀ name, job.name? = some name →
      ∃ active, log.newest? name = some active ∧ (active.file == file) = true
  := by
  simp only [newest?_moved]
  constructor
  · intro heq job hjob name hname
    obtain ⟨last, hlast⟩ := Option.isSome_iff_exists.mp (newest?_isSome.mpr ⟨job, hjob, hname⟩)
    have hfile := heq name
    rw [hlast, Option.some_or, Option.map_some, eq_comm, Option.map_eq_some_iff] at hfile
    obtain ⟨active, hactive, hfile⟩ := hfile
    use active, hactive
    rw [hfile]
    apply (mem_inFile.mp (mem_of_newest? hlast)).2
  · intro hactive name
    cases hlast : newest? (log.inFile file) name with
    | none => rw [Option.none_or]
    | some last =>
        have hmem := mem_of_newest? hlast
        obtain ⟨active, hget, hfile⟩ := hactive last hmem name (name_of_newest? hlast)
        have hmem' := mem_inFile.mpr ⟨mem_of_newest? hget, hfile⟩
        rw [hget, Option.some_or, Option.map_some, Option.map_some, hspelled last hmem,
          hspelled active hmem']

end JobLog

theorem IndexLog.replaceFile_eq (log : IndexLog) (file : Path) (d : Document) :
  log.replaceFile file d = log.removeFile file ++ empty.append d
  := rfl

attribute [ext] IndexSnapshot

namespace IndexState

variable {s s' : IndexState} {log log' : IndexLog} {texts : Path → Option Source}

/-! ### What an index holds -/

/-- The order of jobs by name and file, -/
def compareJobs (a b : String × Path) : Ordering :=
  (compare a.1 b.1).then (compare a.2 b.2)

/-- and of templates by name, file and the jobs they name. -/
def compareTemplates (a b : String × Path × List String) : Ordering :=
  (compare a.1 b.1).then ((compare a.2.1 b.2.1).then (compare a.2.2 b.2.2))

instance : Std.TransCmp compareJobs :=
  inferInstanceAs (Std.TransCmp (compareLex (compareOn Prod.fst) (compareOn Prod.snd)))

instance : Std.TransCmp compareTemplates :=
  inferInstanceAs (Std.TransCmp (compareLex (compareOn Prod.fst)
    (compareLex (compareOn fun a : String × Path × List String => a.2.1)
      (compareOn fun a => a.2.2))))

/-- A job with its file, as an index shows it. -/
def shownJob? (job : Job) : Option (String × Path) :=
  job.name?.map fun name => (name, job.file)

theorem shownJob?_eq_some_iff {job : Job} {name : String} {file : Path} :
  shownJob? job = some (name, file) ↔ job.name? = some name ∧ job.file = file
  := by
  rw [shownJob?, Option.map_eq_some_iff]
  constructor
  · rintro ⟨name, hname, heq⟩
    cases heq
    exact ⟨hname, rfl⟩
  · rintro ⟨hname, rfl⟩
    exact ⟨name, hname, rfl⟩

/-- An index shows the latest job of each name, -/
theorem Represents.mem_shown (hs : s.Represents log) {name : String} {file : Path} :
  (name, file) ∈ s.jobs.active.filterMap shownJob?
    ↔ (log.jobs.newest? name).map Job.file = some file
  := by
  rw [List.mem_filterMap, Option.map_eq_some_iff]
  constructor
  · rintro ⟨job, hactive, hshown⟩
    obtain ⟨hname, hfile⟩ := shownJob?_eq_some_iff.mp hshown
    obtain ⟨other, hnewest⟩ := hs.jobs.mem_active.mp hactive
    have hother := JobLog.name_of_newest? hnewest
    rw [hname] at hother
    obtain rfl := Option.some.inj hother
    use job
  · rintro ⟨job, hnewest, hfile⟩
    use job, hs.jobs.mem_active.mpr ⟨name, hnewest⟩
    apply shownJob?_eq_some_iff.mpr ⟨JobLog.name_of_newest? hnewest, hfile⟩

/-- each of them once. -/
theorem Represents.nodup_shown (hs : s.Represents log) :
  (s.jobs.active.filterMap shownJob?).Nodup
  := by
  apply List.Pairwise.filterMap _ _ hs.jobs.active_pairwise
  rintro job job' hne ⟨name, file⟩ hshown _ hshown' rfl
  apply hne
  rw [(shownJob?_eq_some_iff.mp hshown).1, (shownJob?_eq_some_iff.mp hshown').1]

/-- Two states show the same jobs exactly if the latest jobs of each name stand in the same file. -/
theorem Represents.snapshot_jobs_eq_iff (hs : s.Represents log) (hs' : s'.Represents log') :
  s'.snapshot.jobs = s.snapshot.jobs
    ↔ ∀ name, (log'.jobs.newest? name).map Job.file = (log.jobs.newest? name).map Job.file
  := by
  constructor
  · intro h name
    have hperm : (s'.jobs.active.filterMap shownJob?).Perm (s.jobs.active.filterMap shownJob?) := by
      apply (List.mergeSort_perm _ _).symm.trans
      apply (List.Perm.of_eq h).trans (List.mergeSort_perm _ _)
    apply Option.ext
    intro file
    exact hs'.mem_shown.symm.trans (hperm.mem_iff.trans hs.mem_shown)
  · intro h
    have hmem : ∀ e, e ∈ s'.jobs.active.filterMap shownJob?
        ↔ e ∈ s.jobs.active.filterMap shownJob? := by
      rintro ⟨name, file⟩
      rw [hs.mem_shown, hs'.mem_shown, h]
    apply mergeSort_eq_of_perm compareJobs
    · apply (List.perm_ext_iff_of_nodup hs'.nodup_shown hs.nodup_shown).mpr hmem
    · rintro ⟨name, file⟩ ha ⟨name', file'⟩ hb heq
      obtain ⟨hname, -⟩ := Ordering.then_eq_eq.mp heq
      obtain rfl := Std.LawfulEqOrd.eq_of_compare hname
      have hfile := (hs'.mem_shown.mp ha).symm.trans (hs'.mem_shown.mp hb)
      rw [Option.some.inj hfile]

/-- Two states show the same templates if they hold the same ones, in whatever order. -/
theorem HoldsTexts.snapshot_templates_eq (hs : s.HoldsTexts log texts) (hs' : s'.Represents log')
    (h : log'.templates.Perm log.templates) :
  s'.snapshot.templates = s.snapshot.templates
  := by
  have hall : s'.templates.all.Perm log.templates := hs'.templates.all_perm.trans h
  apply mergeSort_eq_of_perm compareTemplates
  · apply List.Perm.map
    apply hall.trans hs.represents.templates.all_perm.symm
  · intro a ha b hb heq
    obtain ⟨t, ht, rfl⟩ := List.mem_map.mp ha
    obtain ⟨t', ht', rfl⟩ := List.mem_map.mp hb
    rw [hall.mem_iff] at ht ht'
    obtain ⟨hname, hrest⟩ := Ordering.then_eq_eq.mp heq
    obtain ⟨hfile, hreferences⟩ := Ordering.then_eq_eq.mp hrest
    -- templates of one file come from one text, so the file is spelled in one way
    obtain ⟨x, hx, -, hspelled⟩ := hs.exists_of_mem_templates ht
    obtain ⟨y, hy, -, hspelled'⟩ := hs.exists_of_mem_templates ht'
    rw [hs.congr _ _ (Std.LawfulBEqOrd.compare_eq_iff_beq.mp hfile), hy] at hx
    obtain rfl := Option.some.inj hx
    rw [Prod.mk.injEq, Prod.mk.injEq]
    exact ⟨Std.LawfulEqOrd.eq_of_compare hname, hspelled.trans hspelled'.symm,
      Std.LawfulEqOrd.eq_of_compare hreferences⟩

/-- Indexing a file again that is in the index leaves the files that are in the index. -/
theorem tracked_replaceFile {file : Path} (h : s.isTracked file = true) (d : Document) :
  (s.replaceFile file d).1.tracked = s.tracked
  := by
  have hkeys : (s.files.put file .indexed).keys = s.files.keys := by
    rw [Table.keys_put]
    exact if_pos h
  rw [tracked, tracked]
  exact congrArg Path.sort hkeys

/-! ### Indexing again -/

/-- The records of a file that is indexed again with its text move to the end of the log. -/
theorem HoldsTexts.replaceFile_eq (h : s.HoldsTexts log texts) {file : Path} {x : Source}
    (hx : texts file = some x) :
  log.replaceFile file x.document = log.removeFile file ++ log.inFile file
  := by
  rw [h.inFile_eq file x hx, IndexLog.replaceFile_eq]

/-- After that, what the index holds is the same unless a job had its active definition
elsewhere. -/
theorem HoldsTexts.snapshot_replaceFile_eq_iff (h : s.HoldsTexts log texts) {file : Path}
    {x : Source} (hx : texts file = some x) :
  (s.replaceFile file x.document).1.snapshot = s.snapshot
    ↔ ∀ job ∈ log.jobs.inFile file, ∀ name, job.name? = some name →
      ∃ active, log.jobs.newest? name = some active ∧ (active.file == file) = true
  := by
  have hstands : x.document.StandsIn file := Source.standsIn (h.file_beq file x hx)
  have hs' := h.represents.replaceFile hstands
  rw [h.replaceFile_eq hx] at hs'
  have hspelled : ∀ job ∈ log.jobs.inFile file, job.file = x.file :=
    fun job hjob => Source.file_of_mem_jobs ((h.mem_jobs hx).mp hjob).1
  rw [← JobLog.file_moved_iff hspelled]
  apply Iff.trans _ (h.represents.snapshot_jobs_eq_iff hs')
  constructor
  · intro heq
    rw [heq]
  · intro heq
    apply IndexSnapshot.ext heq
    · apply h.snapshot_templates_eq hs'
      apply List.perm_append_comm.trans
      apply List.filter_append_perm
    · apply tracked_replaceFile
      rw [h.isTracked_eq, hx]
      rfl

/-- When a file is indexed again with the text that it has, what the index holds stays the same
exactly if the file has the active definition of each job that it defines. -/
theorem snapshot_reindexed_iff (operations : List Operation) {file : Path}
    (htracked : (run operations).isTracked file = true) :
  ∃ x, text? operations file = some x ∧
    (((run operations).replaceFile file x.document).1.snapshot = (run operations).snapshot
      ↔ ∀ job ∈ x.document.jobs, ∀ name, job.name? = some name →
        ∃ active, (run operations).jobs.get? name = some active ∧ (active.file == file) = true)
  := by
  obtain ⟨log, h⟩ := exists_holdsTexts operations
  rw [h.isTracked_eq] at htracked
  obtain ⟨x, hx⟩ := Option.isSome_iff_exists.mp htracked
  use x, hx
  simp only [h.snapshot_replaceFile_eq_iff hx, h.represents.jobs.get?_eq]
  constructor
  · intro hactive job hjob name hname
    apply hactive job _ name hname
    apply (h.mem_jobs hx).mpr ⟨hjob, Option.isSome_of_mem hname⟩
  · intro hactive job hjob
    apply hactive job ((h.mem_jobs hx).mp hjob).1

/-- The file that is indexed again has another one before it. -/
theorem snapshot_reindexed_iff_hidden :
  let unit : String := "- job:\n    name: unit\n"
  let file : Path := ⟨"a.yaml"⟩
  let operations : List Operation := [.replace ⟨[], file, unit⟩, .replace ⟨[], ⟨"b.yaml"⟩, unit⟩]
  (run operations).isTracked file = true ∧
    ∃ x, text? operations file = some x ∧
      (((run operations).replaceFile file x.document).1.snapshot = (run operations).snapshot
        ↔ ∀ job ∈ x.document.jobs, ∀ name, job.name? = some name →
          ∃ active, (run operations).jobs.get? name = some active ∧ (active.file == file) = true)
  := by
  intro unit file operations
  have htracked : (run operations).isTracked file = true := by decide +kernel
  exact ⟨htracked, snapshot_reindexed_iff operations htracked⟩

/-- Two files define one job. Indexing the first of them again, with the text that it has, brings
its definition before the other one. -/
theorem snapshot_reindexed_swaps :
  let unit : String := "- job:\n    name: unit\n"
  let file : Path := ⟨"a.yaml"⟩
  let operations : List Operation := [.replace ⟨[], file, unit⟩, .replace ⟨[], ⟨"b.yaml"⟩, unit⟩]
  let shown (s : IndexState) : List (String × String) :=
    s.snapshot.jobs.map fun job => (job.1, job.2.spelling)
  ∃ x, text? operations file = some x ∧ (run operations).isTracked file = true ∧
    shown (run operations) = [("unit", "b.yaml")] ∧
    shown ((run operations).replaceFile file x.document).1 = [("unit", "a.yaml")]
  := by
  intro unit file operations shown
  have hother : (({ spelling := "b.yaml" } : Path) == file) = false := by decide +kernel
  use ⟨[], file, unit⟩
  constructor
  · simp only [operations, text?, List.foldl_cons, List.foldl_nil, Operation.textOf, hother,
      BEq.rfl, if_true, Bool.false_eq_true, if_false]
  · refine ⟨?_, ?_, ?_⟩ <;> decide +kernel

end IndexState

end JobIndex
