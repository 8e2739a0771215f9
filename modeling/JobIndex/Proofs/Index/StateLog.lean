import JobIndex.Index.State
import JobIndex.Proofs.Index.JobLog
import JobIndex.Proofs.Index.TemplateLog

/-!
# The state of the index as a log

The log of an index are the logs of its registries. Replacing the records of a file moves them to
the end of the log, removing a file takes them out. `IndexState.Represents s log` says that the
registries of `s` hold the records of `log` and that all of these stand in files that `s` has; it is
kept by everything that happens to a single file. Two states with one log hold the same.
-/

namespace JobIndex

/-! ### Storing several jobs -/

theorem JobRegistry.Represents.addAll {r : JobRegistry} {log : JobLog} (hr : r.Represents log)
    (jobs : List Job) :
  (r.addAll jobs).1.Represents (log ++ jobs.filter fun job => job.name?.isSome)
  := by
  induction jobs generalizing r log with
  | nil =>
      rw [List.filter_nil, List.append_nil]
      exact hr
  | cons job jobs ih =>
      have h := ih (hr.add job)
      rw [JobLog.add] at h
      rw [List.filter_cons]
      split
      · next hname =>
        rwa [if_pos hname, List.append_assoc] at h
      · next hname =>
        rwa [if_neg hname] at h

/-! ### Logs -/

/-- All records of a document stand in a file. -/
structure Document.StandsIn (d : Document) (file : Path) : Prop where
  jobs : ∀ job ∈ d.jobs, (job.file == file) = true
  templates : ∀ t ∈ d.templates, (t.file == file) = true

/-- The records of an index in the order in which they were stored. -/
@[ext]
structure IndexLog where
  jobs : JobLog
  templates : TemplateLog

namespace IndexLog

/-- No records. -/
def empty : IndexLog where
  jobs := []
  templates := []

/-- The log without the records of a file. -/
def removeFile (log : IndexLog) (file : Path) : IndexLog where
  jobs := log.jobs.removeFile file
  templates := log.templates.removeFile file

/-- The log with the records of a document at its end; jobs without a name are left out. -/
def append (log : IndexLog) (d : Document) : IndexLog where
  jobs := log.jobs ++ d.jobs.filter fun job => job.name?.isSome
  templates := log.templates ++ d.templates

/-- The log in which the records of a file have been replaced. -/
def replaceFile (log : IndexLog) (file : Path) (d : Document) : IndexLog :=
  (log.removeFile file).append d

/-- A log follows another one. -/
instance : Append IndexLog where
  append log log' := ⟨log.jobs ++ log'.jobs, log.templates ++ log'.templates⟩

/-- The files of all records have a property. -/
structure AllFiles (p : Path → Prop) (log : IndexLog) : Prop where
  jobs : ∀ job ∈ log.jobs, p job.file
  templates : ∀ t ∈ log.templates, p t.file

theorem AllFiles.imp {p q : Path → Prop} {log : IndexLog} (h : log.AllFiles p)
    (hpq : ∀ file, p file → q file) :
  log.AllFiles q
  where
  jobs job hjob := hpq _ (h.jobs job hjob)
  templates t ht := hpq _ (h.templates t ht)

/-- What is left when a file has been removed stands in other files. -/
theorem AllFiles.removeFile {p : Path → Prop} {log : IndexLog} (h : log.AllFiles p)
    (file : Path) :
  (log.removeFile file).AllFiles fun other => p other ∧ (other == file) = false
  where
  jobs job hjob := by
    obtain ⟨hmem, hfile⟩ := List.mem_filter.mp hjob
    exact ⟨h.jobs job hmem, by simpa using hfile⟩
  templates t ht := by
    obtain ⟨hmem, hfile⟩ := List.mem_filter.mp ht
    exact ⟨h.templates t hmem, by simpa using hfile⟩

theorem AllFiles.append {p : Path → Prop} {log : IndexLog} (h : log.AllFiles p) {d : Document}
    {file : Path} (hd : d.StandsIn file) (hfile : ∀ other, (other == file) = true → p other) :
  (log.append d).AllFiles p
  where
  jobs job hjob := by
    obtain hmem | hmem := List.mem_append.mp hjob
    · apply h.jobs job hmem
    · apply hfile _ (hd.jobs job (List.mem_of_mem_filter hmem))
  templates t ht := by
    obtain hmem | hmem := List.mem_append.mp ht
    · apply h.templates t hmem
    · apply hfile _ (hd.templates t hmem)

/-! ### The records of a file -/

/-- The records of a log that stand in a file. -/
def inFile (log : IndexLog) (file : Path) : IndexLog where
  jobs := log.jobs.inFile file
  templates := log.templates.inFile file

theorem inFile_removeFile (log : IndexLog) (file other : Path) :
  (log.removeFile file).inFile other = if file == other then empty else log.inFile other
  := by
  rw [inFile, removeFile, JobLog.inFile_removeFile, TemplateLog.inFile_removeFile]
  split <;> rfl

theorem inFile_append (log : IndexLog) (d : Document) (file : Path) :
  (log.append d).inFile file = log.inFile file ++ (empty.append d).inFile file
  := IndexLog.ext (List.filter_append ..) (List.filter_append ..)

theorem inFile_document {d : Document} {file : Path} (hd : d.StandsIn file) (other : Path) :
  (empty.append d).inFile other = if file == other then empty.append d else empty
  := by
  have hjobs : ∀ job ∈ (empty.append d).jobs, (job.file == file) = true :=
    fun job hjob => hd.jobs job (List.mem_of_mem_filter hjob)
  have htemplates : ∀ t ∈ (empty.append d).templates, (t.file == file) = true := hd.templates
  rw [inFile, JobLog.inFile, Path.filter_of_standsIn Job.file hjobs, TemplateLog.inFile,
    Path.filter_of_standsIn Template.file htemplates]
  split <;> rfl

/-- Replacing the records of a file gives it those of the document, and leaves all other files. -/
theorem inFile_replaceFile (log : IndexLog) {file : Path} {d : Document} (hd : d.StandsIn file)
    (other : Path) :
  (log.replaceFile file d).inFile other
    = if file == other then empty.append d else log.inFile other
  := by
  rw [replaceFile, inFile_append, inFile_removeFile, inFile_document hd]
  split
  · exact IndexLog.ext (List.nil_append _) (List.nil_append _)
  · exact IndexLog.ext (List.append_nil _) (List.append_nil _)

end IndexLog

namespace IndexState

/-- The registries of `s` hold the records of `log`, which stand in files that `s` has. -/
structure Represents (s : IndexState) (log : IndexLog) : Prop where
  jobs : s.jobs.Represents log.jobs
  templates : s.templates.Represents log.templates
  distinct : s.files.Distinct
  tracked : log.AllFiles fun file => s.isTracked file = true

theorem represents_empty :
  empty.Represents IndexLog.empty
  where
  jobs := JobRegistry.represents_empty
  templates := TemplateRegistry.represents_empty
  distinct := Table.distinct_nil
  tracked := ⟨fun _ h => (nomatch h), fun _ h => (nomatch h)⟩

theorem any_tracked (s : IndexState) (file : Path) :
  s.tracked.any (· == file) = s.isTracked file
  := by
  rw [tracked, Path.sort, (List.mergeSort_perm _ _).any_eq, Table.keys, List.any_map]
  rfl

/-- A file that a state does not have has no records. -/
theorem Represents.inFile_of_untracked {s : IndexState} {log : IndexLog} (hs : s.Represents log)
    {file : Path} (h : s.isTracked file = false) :
  log.inFile file = IndexLog.empty
  := by
  have htracked : ∀ other : Path, s.isTracked other = true → ¬ (other == file) = true := by
    intro other hother hfile
    rw [isTracked, s.files.has_congr hfile, ← isTracked, h] at hother
    cases hother
  apply IndexLog.ext
  · apply List.filter_eq_nil_iff.mpr
    intro job hjob
    apply htracked _ (hs.tracked.jobs job hjob)
  · apply List.filter_eq_nil_iff.mpr
    intro t ht
    apply htracked _ (hs.tracked.templates t ht)

/-! ### Single files -/

/-- A state stays in step with its log when a file is removed. -/
theorem Represents.clearFile {s : IndexState} {log : IndexLog} (hs : s.Represents log)
    (file : Path) :
  (s.clearFile file).1.Represents (log.removeFile file)
  where
  jobs := hs.jobs.removeFile file
  templates := hs.templates.removeFile file
  distinct := hs.distinct.erase file
  tracked := by
    apply (hs.tracked.removeFile file).imp
    rintro other ⟨htracked, hother⟩
    apply (Table.has_erase s.files file other).trans
    rw [BEq.comm, hother]
    exact htracked

/-- A state stays in step with its log when the records of a file are replaced. -/
theorem Represents.replaceFile {s : IndexState} {log : IndexLog} (hs : s.Represents log)
    {file : Path} {d : Document} (hd : d.StandsIn file) :
  (s.replaceFile file d).1.Represents (log.replaceFile file d)
  where
  jobs := (hs.jobs.removeFile file).addAll d.jobs
  templates := (hs.templates.removeFile file).addAll d.templates
  distinct := hs.distinct.put file .indexed
  tracked := by
    apply IndexLog.AllFiles.append _ hd
    · intro other hother
      apply (Table.has_put s.files file .indexed other).trans
      rw [BEq.comm, hother, Bool.true_or]
    · apply (hs.tracked.removeFile file).imp
      rintro other ⟨htracked, -⟩
      apply (Table.has_put s.files file .indexed other).trans
      rw [Bool.or_eq_true]
      exact Or.inr htracked

/-- Marking a file touches neither the records nor which files there are. -/
theorem isTracked_beginReindex (s : IndexState) (file other : Path) :
  (s.beginReindex file).isTracked other = s.isTracked other
  := by
  unfold beginReindex
  split
  · next hfile =>
    apply (Table.has_put s.files file .reindexing other).trans
    cases hother : file == other with
    | true =>
        rw [Bool.true_or, isTracked, ← s.files.has_congr hother]
        exact hfile.symm
    | false => rw [Bool.false_or, isTracked]
  · rfl

theorem Represents.beginReindex {s : IndexState} {log : IndexLog} (hs : s.Represents log)
    (file : Path) :
  (s.beginReindex file).Represents log
  := by
  constructor
  · unfold IndexState.beginReindex
    split <;> exact hs.jobs
  · unfold IndexState.beginReindex
    split <;> exact hs.templates
  · unfold IndexState.beginReindex
    split
    · apply hs.distinct.put
    · exact hs.distinct
  · apply hs.tracked.imp
    intro other htracked
    rwa [isTracked_beginReindex]

/-- That a file has been marked is forgotten when its records are replaced, -/
theorem replaceFile_beginReindex (s : IndexState) (file : Path) (d : Document) :
  (s.beginReindex file).replaceFile file d = s.replaceFile file d
  := by
  unfold beginReindex
  split
  · simp only [replaceFile, removeRecords, Table.put_put]
  · rfl

/-- and when it is removed. -/
theorem clearFile_beginReindex (s : IndexState) (file : Path) :
  (s.beginReindex file).clearFile file = s.clearFile file
  := by
  unfold beginReindex
  split
  · simp only [clearFile, removeRecords, Table.erase_put]
  · rfl

theorem Represents.markIndexed {s : IndexState} {log : IndexLog} (hs : s.Represents log) :
  s.markIndexed.Represents log
  := ⟨hs.jobs, hs.templates, hs.distinct, hs.tracked⟩

/-! ### States with one log -/

/-- Two states hold the same: for each name the same definitions in the same order, for each file
the same jobs and templates, for each job the same files that name it, and the same files with the
same status. -/
structure SameContents (s s' : IndexState) : Prop where
  definitions : ∀ name, s.jobs.definitions name = s'.jobs.definitions name
  jobsInFile : ∀ file, s.jobs.inFile file = s'.jobs.inFile file
  templatesInFile : ∀ file, s.templates.inFile file = s'.templates.inFile file
  filesNaming : ∀ job, s.templates.filesNaming job = s'.templates.filesNaming job
  tracked : ∀ file, s.isTracked file = s'.isTracked file
  status : ∀ file, s.status file = s'.status file

/-- States that represent one log hold the same, if they have the same files. -/
theorem Represents.sameContents {s s' : IndexState} {log : IndexLog} (hs : s.Represents log)
    (hs' : s'.Represents log) (hfiles : ∀ file, s.files.get? file = s'.files.get? file) :
  s.SameContents s'
  := by
  have hdefinitions : ∀ name, s.jobs.definitions name = s'.jobs.definitions name := by
    intro name
    apply (hs.jobs.byName.list_eq name).trans (hs'.jobs.byName.list_eq name).symm
  constructor
  · exact hdefinitions
  · intro file
    have hnames : s.jobs.byFile.list file = s'.jobs.byFile.list file :=
      (hs.jobs.byFile.list_eq file).trans (hs'.jobs.byFile.list_eq file).symm
    rw [JobRegistry.inFile, JobRegistry.inFile, hnames]
    congr 1
    apply List.flatMap_congr
    intro name _
    rw [hdefinitions]
  · intro file
    apply (hs.templates.byFile.list_eq file).trans (hs'.templates.byFile.list_eq file).symm
  · intro job
    apply (hs.templates.referencedBy.list_eq job).trans
      (hs'.templates.referencedBy.list_eq job).symm
  · intro file
    rw [isTracked, isTracked, Table.has_eq_isSome, Table.has_eq_isSome, hfiles]
  · intro file
    rw [status, status, hfiles]

end IndexState

end JobIndex
