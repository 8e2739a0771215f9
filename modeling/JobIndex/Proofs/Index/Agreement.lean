import JobIndex.Proofs.Index.References
import JobIndex.Proofs.Index.Spelling
import JobIndex.Proofs.Index.StateLog

/-!
# States whose files hold the same records

The order in which files came into an index shows only where two of them define one job. If no job
is defined in two files, then the tables of an index are determined by the records of each file: two
states that have the same files, with the same records in each of them, agree
(`IndexState.Represents.agrees`), whatever happened to them before.
-/

namespace JobIndex

/-- Tables without empty lists say the same of a key when their lists do. -/
theorem Table.Filled.map_get?_eq {κ α β : Type} [BEq κ] {t t' : Table κ (List α)} (ht : t.Filled)
    (ht' : t'.Filled) (g : α → β) {k : κ} (h : (t.list k).map g = (t'.list k).map g) :
  (t.get? k).map (List.map g) = (t'.get? k).map (List.map g)
  := by
  have hget : ∀ {t : Table κ (List α)}, t.Filled → (t.get? k).map (List.map g)
      = if ((t.list k).map g).isEmpty then none else some ((t.list k).map g) := by
    intro t ht
    cases hget : t.get? k with
    | none =>
        rw [list, hget, Option.getD_none, List.map_nil, Option.map_none, List.isEmpty_nil,
          if_pos rfl]
    | some as =>
        have hne : as ≠ [] := by
          obtain ⟨k', -, hmem⟩ := mem_of_get? hget
          apply ht _ hmem
        rw [list, hget, Option.getD_some, Option.map_some, if_neg]
        simpa using hne
  rw [hget ht, hget ht', h]

/-! ### Logs file by file -/

namespace JobLog

variable {jobs jobs' log log' : JobLog}

theorem view_definitions (h : jobs.map Job.view = jobs'.map Job.view) (name : String) :
  (jobs.definitions name).map Job.view = (jobs'.definitions name).map Job.view
  := by
  have hview : ∀ jobs : JobLog, (jobs.definitions name).map Job.view
      = (jobs.map Job.view).filter fun v => v.2.1.scalar? "name" == some name := by
    intro jobs
    rw [List.filter_map]
    rfl
  rw [hview, hview, h]

theorem namesOf_congr (h : jobs.map Job.view = jobs'.map Job.view) :
  JobRegistry.namesOf jobs = JobRegistry.namesOf jobs'
  := by
  have hview : ∀ jobs : JobLog, jobs.filterMap Job.name?
      = (jobs.map Job.view).filterMap fun v => v.2.1.scalar? "name" := by
    intro jobs
    rw [List.filterMap_map]
    rfl
  rw [JobRegistry.namesOf, JobRegistry.namesOf, hview, hview, h]

/-- A job of which all definitions stand in one file is defined by that file. -/
theorem definitions_eq_of_inFile {name : String} {file : Path}
    (h : ∀ job ∈ log, job.name? = some name → (job.file == file) = true) :
  log.definitions name = JobLog.definitions (log.inFile file) name
  := by
  rw [definitions, definitions, inFile, List.filter_filter]
  apply List.filter_congr
  intro job hjob
  cases hname : job.name? == some name with
  | false => rfl
  | true => rw [h job hjob (eq_of_beq hname), Bool.and_self]

/-- Logs that have the same jobs in each file have the same definitions of each name, if no name is
defined in two files. -/
theorem view_definitions_of_inFile
    (hview : ∀ file, (log.inFile file).map Job.view = (log'.inFile file).map Job.view)
    (hunique : ∀ job ∈ log', ∀ job' ∈ log', ∀ name, job.name? = some name →
      job'.name? = some name → (job.file == job'.file) = true) (name : String) :
  (log.definitions name).map Job.view = (log'.definitions name).map Job.view
  := by
  obtain ⟨file, hfile⟩ : ∃ file, ∀ job ∈ log', job.name? = some name →
      (job.file == file) = true := by
    by_cases hex : ∃ job ∈ log', job.name? = some name
    · obtain ⟨job, hjob, hname⟩ := hex
      use job.file
      intro other hother hname'
      apply hunique other hother job hjob name hname' hname
    · use ⟨""⟩
      intro job hjob hname
      exact absurd ⟨job, hjob, hname⟩ hex
  -- a job of the other log has a twin in this one, under the same name and in the same file
  have hfile' : ∀ job ∈ log, job.name? = some name → (job.file == file) = true := by
    intro job hjob hname
    have hmem : job.view ∈ (log'.inFile job.file).map Job.view := by
      rw [← hview]
      apply List.mem_map_of_mem (mem_inFile.mpr ⟨hjob, BEq.rfl⟩)
    obtain ⟨twin, htwin, hsame⟩ := List.mem_map.mp hmem
    obtain ⟨htwin, hjobFile⟩ := mem_inFile.mp htwin
    rw [← Job.name?_congr hsame] at hname
    apply BEq.trans (BEq.symm hjobFile) (hfile twin htwin hname)
  rw [definitions_eq_of_inFile hfile, definitions_eq_of_inFile hfile']
  apply view_definitions (hview file)

end JobLog

/-- Paths in order come in the order of their parts. -/
theorem Increasing.pairwise_parts {ps : List Path} (h : Increasing ps) :
  (ps.map Path.parts).Pairwise fun a b =>
    compare (a.map Path.Part.key) (b.map Path.Part.key) = .lt
  := List.pairwise_map.mpr h

theorem Increasing.nodup_parts {ps : List Path} (h : Increasing ps) :
  (ps.map Path.parts).Nodup
  := by
  apply h.pairwise_parts.imp
  rintro a _ hlt rfl
  rw [Std.ReflOrd.compare_self] at hlt
  cases hlt

theorem parts_mem_of_any {p : Path} {qs : List Path} (h : qs.any (· == p) = true) :
  p.parts ∈ qs.map Path.parts
  := by
  obtain ⟨q, hq, heq⟩ := List.any_eq_true.mp h
  rw [← Path.beq_iff_parts.mp heq]
  apply List.mem_map_of_mem hq

/-- Paths in order are determined by what they are equal to. -/
theorem Increasing.map_parts_eq {ps qs : List Path} (hps : Increasing ps) (hqs : Increasing qs)
    (h : ∀ file, ps.any (· == file) = qs.any (· == file)) :
  ps.map Path.parts = qs.map Path.parts
  := by
  have hmem : ∀ a, a ∈ ps.map Path.parts ↔ a ∈ qs.map Path.parts := by
    intro a
    constructor
    · intro ha
      obtain ⟨p, hp, rfl⟩ := List.mem_map.mp ha
      apply parts_mem_of_any
      rw [← h]
      exact List.any_eq_true.mpr ⟨p, hp, BEq.rfl⟩
    · intro ha
      obtain ⟨q, hq, rfl⟩ := List.mem_map.mp ha
      apply parts_mem_of_any
      rw [h]
      exact List.any_eq_true.mpr ⟨q, hq, BEq.rfl⟩
  apply List.Perm.eq_of_pairwise _ hps.pairwise_parts hqs.pairwise_parts
  · apply (List.perm_ext_iff_of_nodup hps.nodup_parts hqs.nodup_parts).mpr hmem
  · intro a b _ _ hab hba
    rw [Std.OrientedOrd.eq_swap, hab] at hba
    cases hba

/-- Logs that have the same templates in each file have the same files for each job. -/
theorem TemplateLog.parts_filesNaming {log log' : TemplateLog}
    (hview : ∀ file, (log.inFile file).map Template.view = (log'.inFile file).map Template.view)
    (job : String) :
  (log.filesNaming job).map Path.parts = (log'.filesNaming job).map Path.parts
  := by
  have hany : ∀ (log : TemplateLog) (file : Path), (log.filesNaming job).any (· == file)
      = ((log.inFile file).map Template.view).any fun v => v.2.2.1.contains job := by
    intro log file
    rw [any_filesNaming, inFile, List.any_map, List.any_filter]
    congr 1
    funext t
    apply Bool.and_comm
  apply (log.increasing_filesNaming job).map_parts_eq (log'.increasing_filesNaming job)
  intro file
  rw [hany, hany, hview]

/-! ### States -/

/-- Logs have the same records up to the spelling of paths. -/
structure IndexLog.SameView (log log' : IndexLog) : Prop where
  jobs : log.jobs.map Job.view = log'.jobs.map Job.view
  templates : log.templates.map Template.view = log'.templates.map Template.view

/-- Documents with one view give logs with one view. -/
theorem IndexLog.append_sameView {d d' : Document} (h : d.SameView d') :
  (empty.append d).SameView (empty.append d')
  := by
  have hview : ∀ jobs : List Job, (jobs.filter fun job => job.name?.isSome).map Job.view
      = (jobs.map Job.view).filter fun v => (v.2.1.scalar? "name").isSome := by
    intro jobs
    rw [List.filter_map]
    rfl
  refine ⟨?_, h.templates⟩
  show (d.jobs.filter _).map Job.view = (d'.jobs.filter _).map Job.view
  rw [hview, hview, h.jobs]

namespace IndexState

variable {s s' : IndexState} {log log' : IndexLog}

/-- All tables of two states are the same finite maps, up to the spelling of paths. -/
structure Agrees (s s' : IndexState) : Prop where
  byName : ∀ name, (s.jobs.byName.get? name).map (List.map Job.view)
    = (s'.jobs.byName.get? name).map (List.map Job.view)
  byFile : ∀ file, s.jobs.byFile.get? file = s'.jobs.byFile.get? file
  templates : ∀ file, (s.templates.byFile.get? file).map (List.map Template.view)
    = (s'.templates.byFile.get? file).map (List.map Template.view)
  referencedBy : ∀ job, (s.templates.referencedBy.get? job).map (List.map Path.parts)
    = (s'.templates.referencedBy.get? job).map (List.map Path.parts)
  files : ∀ file, s.files.get? file = s'.files.get? file

/-- States agree that have the same files, with the same records in each of them, if no job is
defined in two files. -/
theorem Represents.agrees (hs : s.Represents log) (hs' : s'.Represents log')
    (hfiles : ∀ file, s.files.get? file = s'.files.get? file)
    (hview : ∀ file, (log.inFile file).SameView (log'.inFile file))
    (hunique : ∀ job ∈ log'.jobs, ∀ job' ∈ log'.jobs, ∀ name, job.name? = some name →
      job'.name? = some name → (job.file == job'.file) = true) :
  s.Agrees s'
  := by
  have hjobs : ∀ file, (log.jobs.inFile file).map Job.view = (log'.jobs.inFile file).map Job.view :=
    fun file => (hview file).jobs
  have htemplates : ∀ file, (log.templates.inFile file).map Template.view
      = (log'.templates.inFile file).map Template.view := fun file => (hview file).templates
  constructor
  · intro name
    apply hs.jobs.byName.filled.map_get?_eq hs'.jobs.byName.filled
    rw [hs.jobs.byName.list_eq, hs'.jobs.byName.list_eq]
    apply JobLog.view_definitions_of_inFile hjobs hunique
  · intro file
    have hlist : s.jobs.byFile.list file = s'.jobs.byFile.list file := by
      rw [hs.jobs.byFile.list_eq, hs'.jobs.byFile.list_eq, JobLog.namesOf_congr (hjobs file)]
    have hnames := hs.jobs.byFile.filled.map_get?_eq hs'.jobs.byFile.filled id
      (congrArg (List.map id) hlist)
    rwa [List.map_id_fun, Option.map_id_fun, id, id] at hnames
  · intro file
    apply hs.templates.byFile.filled.map_get?_eq hs'.templates.byFile.filled
    rw [hs.templates.byFile.list_eq, hs'.templates.byFile.list_eq, htemplates]
  · intro job
    apply hs.templates.referencedBy.filled.map_get?_eq hs'.templates.referencedBy.filled
    rw [hs.templates.referencedBy.list_eq, hs'.templates.referencedBy.list_eq]
    apply TemplateLog.parts_filesNaming htemplates
  · exact hfiles

end IndexState

end JobIndex
