import JobIndex.Proofs.Index.History
import JobIndex.Proofs.Index.References

/-!
# Replacing the records of two files commutes

Replacing the records of a file changes each entry of each table in a way that depends on this entry
and the records alone: what stands in the file is taken out, and what the document says is put in.

* Of the definitions of a name those of two files are taken out and put in independently, as long as
  only one of the documents puts some at the end.
* The files that name a job stand in order, so it does not matter which of two files comes in first.
* All other entries belong to one file.

So the order in which two files are replaced makes no difference if the documents define no job in
common (`IndexState.replaceFile_comm`), whatever stands in other files or stood in these before.
-/

namespace JobIndex

/-! ### Entries of lists -/

namespace Table

variable {α : Type} {keep : α → Bool}

/-- An entry from which is taken what is not to be kept, if it is to be touched at all. -/
def siftedIf (touched : Bool) (keep : α → Bool) (as? : Option (List α)) : Option (List α) :=
  if touched then asEntry ((as?.getD []).filter keep) else as?

/-- An entry with more at the end of its list. -/
def extended (as? : Option (List α)) : List α → Option (List α)
  | [] => as?
  | a :: more => some (as?.getD [] ++ a :: more)

@[simp]
theorem extended_nil (as? : Option (List α)) :
  extended as? [] = as?
  := rfl

/-- Taking out commutes, -/
theorem siftedIf_comm (touched touched' : Bool) (keep keep' : α → Bool) (as? : Option (List α)) :
  siftedIf touched keep (siftedIf touched' keep' as?)
    = siftedIf touched' keep' (siftedIf touched keep as?)
  := by
  cases touched <;> cases touched' <;> simp [siftedIf, List.filter_filter, Bool.and_comm]

/-- and what is put in stays when something else is taken out. -/
theorem siftedIf_extended (touched : Bool) (as? : Option (List α)) {more : List α}
    (h : ∀ a ∈ more, keep a = true) :
  siftedIf touched keep (extended as? more) = extended (siftedIf touched keep as?) more
  := by
  cases more with
  | nil => rfl
  | cons a more =>
      cases touched with
      | false => rfl
      | true =>
          have hmore : (as?.getD [] ++ a :: more).filter keep
              = (as?.getD []).filter keep ++ a :: more := by
            rw [List.filter_append, List.filter_eq_self.mpr h]
          simp only [siftedIf, if_true, extended, Option.getD_some, hmore, getD_asEntry]
          cases (as?.getD []).filter keep <;> rfl

end Table

open Table (siftedIf extended)

/-! ### Jobs -/

namespace JobRegistry

/-- The registry in which the jobs of a file have been replaced. -/
def replaceFile (r : JobRegistry) (file : Path) (jobs : List Job) : JobRegistry :=
  ((r.removeFile file).1.addAll jobs).1

/-- The names of a file with that of a job, if it has one. -/
def noteName (names? : Option (List String)) (job : Job) : Option (List String) :=
  match job.name? with
  | none => names?
  | some name => some (withName (names?.getD []) name)

theorem get?_byName_removeFile (r : JobRegistry) (file : Path) (name : String) :
  (r.removeFile file).1.byName.get? name
    = siftedIf ((r.byFile.list file).any (· == name)) (fun job => !(job.file == file))
        (r.byName.get? name)
  := by
  unfold removeFile Table.list
  split
  · next hget =>
    rw [hget]
    rfl
  · next names hget =>
    rw [hget]
    apply Table.get?_foldl_sift

theorem get?_byFile_removeFile (r : JobRegistry) (file other : Path) :
  (r.removeFile file).1.byFile.get? other
    = if file == other then none else r.byFile.get? other
  := by
  unfold removeFile
  split
  · next hget =>
    split
    · next hother => rw [← r.byFile.get?_congr hother, hget]
    · rfl
  · apply Table.get?_erase

/-- Storing jobs puts those of a name at the end of its definitions. -/
theorem get?_byName_addAll (r : JobRegistry) (jobs : List Job) (name : String) :
  (r.addAll jobs).1.byName.get? name
    = extended (r.byName.get? name) (JobLog.definitions jobs name)
  := by
  induction jobs generalizing r with
  | nil => rfl
  | cons job jobs ih =>
      rw [addAll, ih, JobLog.definitions, JobLog.definitions, List.filter_cons, add]
      cases hname : job.name? with
      | none => rfl
      | some n =>
          simp only [Table.get?_put]
          cases hn : n == name with
          | false => simp [beq_eq_false_iff_ne.mp hn]
          | true =>
              obtain rfl := eq_of_beq hn
              simp only [if_true, BEq.rfl, definitions, Table.list]
              cases jobs.filter fun job => job.name? == some n <;> simp [extended]

/-- Storing jobs of a file notes their names for this file. -/
theorem get?_byFile_addAll (r : JobRegistry) {file : Path} {jobs : List Job}
    (hjobs : ∀ job ∈ jobs, (job.file == file) = true) (other : Path) :
  (r.addAll jobs).1.byFile.get? other
    = if file == other then jobs.foldl noteName (r.byFile.get? other) else r.byFile.get? other
  := by
  induction jobs generalizing r with
  | nil => simp [addAll]
  | cons job jobs ih =>
      obtain ⟨hjob, hrest⟩ := List.forall_mem_cons.mp hjobs
      rw [addAll, ih _ hrest, List.foldl_cons, add, noteName]
      cases hname : job.name? with
      | none => rfl
      | some name =>
          simp only [Table.get?_put, BEq.congr_left hjob]
          split
          · next hother => rw [Table.list, r.byFile.get?_congr (BEq.trans hjob hother)]
          · rfl

variable (r : JobRegistry) {p q : Path} {jobs jobs' : List Job}

theorem get?_byName_replaceFile (file : Path) (jobs : List Job) (name : String) :
  (r.replaceFile file jobs).byName.get? name
    = extended (siftedIf ((r.byFile.list file).any (· == name)) (fun job => !(job.file == file))
        (r.byName.get? name)) (JobLog.definitions jobs name)
  := by
  rw [replaceFile, get?_byName_addAll, get?_byName_removeFile]

theorem get?_byFile_replaceFile (hjobs : ∀ job ∈ jobs, (job.file == p) = true) (file : Path) :
  (r.replaceFile p jobs).byFile.get? file
    = if p == file then jobs.foldl noteName none else r.byFile.get? file
  := by
  rw [replaceFile, get?_byFile_addAll _ hjobs, get?_byFile_removeFile]
  split <;> rfl

/-- Replacing a file leaves the names of all other files. -/
theorem list_byFile_replaceFile (hjobs : ∀ job ∈ jobs, (job.file == p) = true)
    (hpq : (p == q) = false) :
  (r.replaceFile p jobs).byFile.list q = r.byFile.list q
  := by
  rw [Table.list, get?_byFile_replaceFile r hjobs, hpq, if_neg Bool.false_ne_true, Table.list]

/-- The names of files do not show in which order two files have been replaced, -/
theorem get?_byFile_replaceFile_comm (hpq : (p == q) = false)
    (hjobs : ∀ job ∈ jobs, (job.file == p) = true)
    (hjobs' : ∀ job ∈ jobs', (job.file == q) = true) (file : Path) :
  ((r.replaceFile p jobs).replaceFile q jobs').byFile.get? file
    = ((r.replaceFile q jobs').replaceFile p jobs).byFile.get? file
  := by
  simp only [get?_byFile_replaceFile _ hjobs, get?_byFile_replaceFile _ hjobs']
  split
  · next hq =>
    have hp : (p == file) = false := by rwa [← BEq.congr_right hq]
    rw [hp, if_neg Bool.false_ne_true]
  · rfl

/-- and the definitions of a name do not either, if one of them does not define it. -/
theorem get?_byName_replaceFile_comm (hpq : (p == q) = false)
    (hjobs : ∀ job ∈ jobs, (job.file == p) = true)
    (hjobs' : ∀ job ∈ jobs', (job.file == q) = true) {name : String}
    (hname : JobLog.definitions jobs' name = []) :
  ((r.replaceFile p jobs).replaceFile q jobs').byName.get? name
    = ((r.replaceFile q jobs').replaceFile p jobs).byName.get? name
  := by
  have hqp : (q == p) = false := by rwa [BEq.comm]
  have hkept : ∀ job ∈ JobLog.definitions jobs name, (!(job.file == q)) = true := by
    intro job hjob
    rw [BEq.congr_left (hjobs job (List.mem_of_mem_filter hjob)), hpq, Bool.not_false]
  simp only [get?_byName_replaceFile, list_byFile_replaceFile r hjobs hpq,
    list_byFile_replaceFile r hjobs' hqp, hname, Table.extended_nil,
    Table.siftedIf_extended _ _ hkept]
  rw [Table.siftedIf_comm]

end JobRegistry

/-! ### Paths in order -/

theorem insertPath_comm_of_lt {p q : Path} (hpq : compare p q = .lt) (ps : List Path) :
  insertPath p (insertPath q ps) = insertPath q (insertPath p ps)
  := by
  have hqp : compare q p = .gt := Std.OrientedCmp.gt_of_lt hpq
  induction ps with
  | nil => simp only [insertPath, hpq, hqp]
  | cons a ps ih =>
      cases hp : compare p a with
      | lt => cases hq : compare q a <;> simp only [insertPath, hp, hq, hpq, hqp]
      | eq =>
          have hq : compare q a = .gt := by rwa [← Std.TransCmp.congr_right hp]
          simp only [insertPath, hp, hq]
      | gt =>
          have hq : compare q a = .gt := Std.TransCmp.gt_trans hqp hp
          simp only [insertPath, hp, hq, ih]

/-- Of two paths it does not matter which is inserted first. -/
theorem insertPath_comm {p q : Path} (hpq : (p == q) = false) (ps : List Path) :
  insertPath p (insertPath q ps) = insertPath q (insertPath p ps)
  := by
  cases h : compare p q with
  | lt => apply insertPath_comm_of_lt h
  | eq =>
      rw [Path.compare_eq_iff.mp h] at hpq
      cases hpq
  | gt =>
      symm
      apply insertPath_comm_of_lt (Std.OrientedCmp.lt_of_gt h)

/-- The files of an entry with one more. -/
def noted (file? : Option Path) (files? : Option (List Path)) : Option (List Path) :=
  match file? with
  | none => files?
  | some file => some (insertPath file (files?.getD []))

/-- Files are noted in whatever order, -/
theorem noted_comm {p? q? : Option Path} (h : ∀ p ∈ p?, ∀ q ∈ q?, (p == q) = false)
    (files? : Option (List Path)) :
  noted p? (noted q? files?) = noted q? (noted p? files?)
  := by
  cases p? with
  | none => rfl
  | some p =>
      cases q? with
      | none => rfl
      | some q =>
          simp only [noted, Option.getD_some]
          rw [insertPath_comm (h p rfl q rfl)]

/-- and what is noted stays when another file is taken out. -/
theorem siftedIf_noted (touched : Bool) {p? : Option Path} {q : Path}
    (h : ∀ p ∈ p?, (p == q) = false) {files? : Option (List Path)}
    (hfiles : Increasing (files?.getD [])) :
  siftedIf touched (fun file => !(file == q)) (noted p? files?)
    = noted p? (siftedIf touched (fun file => !(file == q)) files?)
  := by
  cases p? with
  | none => rfl
  | some p =>
      cases touched with
      | false => rfl
      | true =>
          simp only [siftedIf, if_true, noted, Option.getD_some, Table.getD_asEntry]
          rw [filter_insertPath hfiles, h p rfl, if_neg Bool.false_ne_true]
          cases hkept : insertPath p ((files?.getD []).filter fun file => !(file == q)) with
          | nil => exact absurd hkept (insertPath_ne_nil _ _)
          | cons a as => rfl

/-- Files stay in order when some are taken out. -/
theorem Increasing.siftedIf {files? : Option (List Path)} (h : Increasing (files?.getD []))
    (touched : Bool) (keep : Path → Bool) :
  Increasing ((siftedIf touched keep files?).getD [])
  := by
  cases touched with
  | false => exact h
  | true =>
      simp only [Table.siftedIf, if_true, Table.getD_asEntry]
      apply List.Pairwise.filter keep h

/-! ### Templates -/

namespace TemplateRegistry

/-- The registry in which the templates of a file have been replaced. -/
def replaceFile (r : TemplateRegistry) (file : Path) (ts : List Template) : TemplateRegistry :=
  (r.removeFile file).1.addAll ts

/-- The file of templates that name a job, as the first of them spells it. -/
def fileNaming? (ts : List Template) (job : String) : Option Path :=
  (ts.find? (·.mentions job)).map Template.file

theorem get?_byFile_removeFile (r : TemplateRegistry) (file other : Path) :
  (r.removeFile file).1.byFile.get? other
    = if file == other then none else r.byFile.get? other
  := by
  unfold removeFile
  split
  · next hget =>
    split
    · next hother => rw [← r.byFile.get?_congr hother, hget]
    · rfl
  · apply Table.get?_erase

theorem get?_referencedBy_removeFile (r : TemplateRegistry) (file : Path) (job : String) :
  (r.removeFile file).1.referencedBy.get? job
    = siftedIf (((r.inFile file).flatMap Template.references).any (· == job))
        (fun other => !(other == file)) (r.referencedBy.get? job)
  := by
  unfold removeFile inFile Table.list
  split
  · next hget =>
    rw [hget]
    rfl
  · next ts hget =>
    rw [hget]
    apply Table.get?_foldl_sift

/-- Storing templates of a file puts them at the end of those of the file. -/
theorem get?_byFile_addAll (r : TemplateRegistry) {file : Path} {ts : List Template}
    (hts : ∀ t ∈ ts, (t.file == file) = true) (other : Path) :
  (r.addAll ts).byFile.get? other
    = if file == other then extended (r.byFile.get? other) ts else r.byFile.get? other
  := by
  induction ts generalizing r with
  | nil => simp [addAll]
  | cons t ts ih =>
      obtain ⟨ht, hrest⟩ := List.forall_mem_cons.mp hts
      have hadd : r.addAll (t :: ts) = (r.add t).addAll ts := rfl
      rw [hadd, ih _ hrest]
      simp only [add, Table.get?_put, BEq.congr_left ht]
      split
      · next hother =>
        rw [inFile, r.byFile.list_congr (BEq.trans ht hother), Table.list]
        cases ts <;> simp [extended]
      · rfl

/-- Storing templates of a file notes the file for each job that they name. -/
theorem get?_referencedBy_addAll (r : TemplateRegistry) {file : Path} {ts : List Template}
    (hts : ∀ t ∈ ts, (t.file == file) = true) (job : String) :
  (r.addAll ts).referencedBy.get? job
    = noted (fileNaming? ts job) (r.referencedBy.get? job)
  := by
  induction ts generalizing r with
  | nil => rfl
  | cons t ts ih =>
      obtain ⟨ht, hrest⟩ := List.forall_mem_cons.mp hts
      have hadd : r.addAll (t :: ts) = (r.add t).addAll ts := rfl
      rw [hadd, ih _ hrest, add, get?_foldl_addReference, fileNaming?, fileNaming?, List.find?_cons,
        Template.mentions]
      cases t.references.contains job with
      | false => rfl
      | true =>
          -- what the other templates note has been noted with the first one
          cases hfind : ts.find? (·.mentions job) with
          | none => rfl
          | some t' =>
              have ht' := hrest t' (List.mem_of_find?_eq_some hfind)
              simp only [if_true, Option.map_some, noted, Option.getD_some]
              rw [insertPath_insertPath (BEq.trans ht' (BEq.symm ht))]
              rfl

variable (r : TemplateRegistry) {p q : Path} {ts ts' : List Template}

theorem get?_byFile_replaceFile (hts : ∀ t ∈ ts, (t.file == p) = true) (file : Path) :
  (r.replaceFile p ts).byFile.get? file
    = if p == file then extended none ts else r.byFile.get? file
  := by
  rw [replaceFile, get?_byFile_addAll _ hts, get?_byFile_removeFile]
  split <;> rfl

theorem get?_referencedBy_replaceFile (hts : ∀ t ∈ ts, (t.file == p) = true) (job : String) :
  (r.replaceFile p ts).referencedBy.get? job
    = noted (fileNaming? ts job)
        (siftedIf (((r.inFile p).flatMap Template.references).any (· == job))
          (fun file => !(file == p)) (r.referencedBy.get? job))
  := by
  rw [replaceFile, get?_referencedBy_addAll _ hts, get?_referencedBy_removeFile]

/-- Replacing a file leaves the templates of all other files. -/
theorem inFile_replaceFile (hts : ∀ t ∈ ts, (t.file == p) = true) (hpq : (p == q) = false) :
  (r.replaceFile p ts).inFile q = r.inFile q
  := by
  rw [inFile, Table.list, get?_byFile_replaceFile r hts, hpq, if_neg Bool.false_ne_true, inFile,
    Table.list]

/-- The templates of files do not show in which order two files have been replaced, -/
theorem get?_byFile_replaceFile_comm (hpq : (p == q) = false)
    (hts : ∀ t ∈ ts, (t.file == p) = true) (hts' : ∀ t ∈ ts', (t.file == q) = true)
    (file : Path) :
  ((r.replaceFile p ts).replaceFile q ts').byFile.get? file
    = ((r.replaceFile q ts').replaceFile p ts).byFile.get? file
  := by
  simp only [get?_byFile_replaceFile _ hts, get?_byFile_replaceFile _ hts']
  split
  · next hq =>
    have hp : (p == file) = false := by rwa [← BEq.congr_right hq]
    rw [hp, if_neg Bool.false_ne_true]
  · rfl

theorem beq_of_mem_fileNaming? (hts : ∀ t ∈ ts, (t.file == p) = true) {job : String} {file : Path}
    (h : file ∈ fileNaming? ts job) :
  (file == p) = true
  := by
  obtain ⟨t, ht, rfl⟩ := Option.map_eq_some_iff.mp h
  apply hts t (List.mem_of_find?_eq_some ht)

/-- and the files that name a job do not either, if they stand in order. -/
theorem get?_referencedBy_replaceFile_comm (hpq : (p == q) = false)
    (hts : ∀ t ∈ ts, (t.file == p) = true) (hts' : ∀ t ∈ ts', (t.file == q) = true)
    {job : String} (hfiles : Increasing (r.filesNaming job)) :
  ((r.replaceFile p ts).replaceFile q ts').referencedBy.get? job
    = ((r.replaceFile q ts').replaceFile p ts).referencedBy.get? job
  := by
  have hqp : (q == p) = false := by rwa [BEq.comm]
  have hp : ∀ file ∈ fileNaming? ts job, (file == q) = false := by
    intro file hfile
    rw [BEq.congr_left (beq_of_mem_fileNaming? hts hfile), hpq]
  have hq : ∀ file ∈ fileNaming? ts' job, (file == p) = false := by
    intro file hfile
    rw [BEq.congr_left (beq_of_mem_fileNaming? hts' hfile), hqp]
  have hne : ∀ file ∈ fileNaming? ts' job, ∀ other ∈ fileNaming? ts job,
      (file == other) = false := by
    intro file hfile other hother
    rw [BEq.congr_right (beq_of_mem_fileNaming? hts hother), hq file hfile]
  simp only [get?_referencedBy_replaceFile _ hts, get?_referencedBy_replaceFile _ hts',
    inFile_replaceFile r hts hpq, inFile_replaceFile r hts' hqp]
  rw [siftedIf_noted _ hp (hfiles.siftedIf _ _), siftedIf_noted _ hq (hfiles.siftedIf _ _),
    noted_comm hne, Table.siftedIf_comm]

/-- In a registry that is in step with a log the files that name a job stand in order. -/
theorem Represents.increasing_filesNaming {log : TemplateLog} (hr : r.Represents log)
    (job : String) :
  Increasing (r.filesNaming job)
  := by
  rw [filesNaming, hr.referencedBy.list_eq]
  apply TemplateLog.increasing_filesNaming

end TemplateRegistry

/-! ### The state of the index -/

/-- A name has no definitions exactly when it is not among the names. -/
theorem JobLog.definitions_eq_nil_iff {log : JobLog} {name : String} :
  log.definitions name = [] ↔ name ∉ log.names
  := by
  simp [definitions, names]

namespace IndexState

/-- Two states have the same entries in all their tables: for each name the same definitions in the
same order, for each file the same names and templates, for each job the same files that name it,
and for each file the same status. -/
structure SameEntries (s s' : IndexState) : Prop where
  definitions : ∀ name, s.jobs.byName.get? name = s'.jobs.byName.get? name
  names : ∀ file, s.jobs.byFile.get? file = s'.jobs.byFile.get? file
  templates : ∀ file, s.templates.byFile.get? file = s'.templates.byFile.get? file
  references : ∀ job, s.templates.referencedBy.get? job = s'.templates.referencedBy.get? job
  files : ∀ file, s.files.get? file = s'.files.get? file
  indexedOnce : s.indexedOnce = s'.indexedOnce

/-- Whatever a state holds, the records of two files can be replaced in either order by those of
documents that define no job in common. The files that name a job have to stand in order, as they do
in every registry that is in step with a log. -/
theorem replaceFile_comm (s : IndexState) (hfiles : ∀ job, Increasing (s.templates.filesNaming job))
    {p q : Path} (hpq : (p == q) = false) {d e : Document} (hd : d.StandsIn p) (he : e.StandsIn q)
    (hnames : ∀ name ∈ JobLog.names d.jobs, name ∉ JobLog.names e.jobs) :
  SameEntries ((s.replaceFile p d).1.replaceFile q e).1 ((s.replaceFile q e).1.replaceFile p d).1
  := by
  have hqp : (q == p) = false := by rwa [BEq.comm]
  constructor
  · intro name
    by_cases h : JobLog.definitions e.jobs name = []
    · apply JobRegistry.get?_byName_replaceFile_comm s.jobs hpq hd.jobs he.jobs h
    · symm
      apply JobRegistry.get?_byName_replaceFile_comm s.jobs hqp he.jobs hd.jobs
      rw [JobLog.definitions_eq_nil_iff, not_not] at h
      rw [JobLog.definitions_eq_nil_iff]
      exact fun hname => hnames name hname h
  · apply JobRegistry.get?_byFile_replaceFile_comm s.jobs hpq hd.jobs he.jobs
  · apply TemplateRegistry.get?_byFile_replaceFile_comm s.templates hpq hd.templates he.templates
  · intro job
    apply TemplateRegistry.get?_referencedBy_replaceFile_comm s.templates hpq hd.templates
      he.templates (hfiles job)
  · intro file
    apply Eq.trans (Table.get?_put (s.files.put p .indexed) q .indexed file)
    apply Eq.trans _ (Table.get?_put (s.files.put q .indexed) p .indexed file).symm
    rw [Table.get?_put, Table.get?_put]
    split <;> simp
  · rfl

/-- Both files and a third one define the same jobs before, and both templates name one job. -/
theorem replaceFile_comm_shared :
  let a : Path := ⟨"a.yaml"⟩
  let b : Path := ⟨"b.yaml"⟩
  let operations : List Operation := [.replace ⟨[], a, "- job:\n    name: tests\n"⟩,
    .replace ⟨[], ⟨"c.yaml"⟩, "- job:\n    name: unit\n- job:\n    name: tests\n"⟩,
    .replace ⟨[], b, "- job:\n    name: unit\n"⟩]
  let x : Source := ⟨[], a,
    "- job:\n    name: unit\n- project-template:\n    jobs: [build]\n"⟩
  let y : Source := ⟨[], b,
    "- job:\n    name: tests\n- project-template:\n    jobs: [build]\n"⟩
  let s : IndexState := run operations
  (∀ job, Increasing (s.templates.filesNaming job)) ∧ (a == b) = false ∧
    x.document.StandsIn a ∧ y.document.StandsIn b ∧
    (∀ name ∈ JobLog.names x.document.jobs, name ∉ JobLog.names y.document.jobs) ∧
    SameEntries ((s.replaceFile a x.document).1.replaceFile b y.document).1
      ((s.replaceFile b y.document).1.replaceFile a x.document).1
  := by
  intro a b operations x y s
  obtain ⟨log, hlog⟩ := exists_holdsTexts operations
  have hfiles : ∀ job, Increasing (s.templates.filesNaming job) :=
    hlog.represents.templates.increasing_filesNaming
  have hne : (a == b) = false := by decide +kernel
  have hx : x.document.StandsIn a := Source.standsIn BEq.rfl
  have hy : y.document.StandsIn b := Source.standsIn BEq.rfl
  have hnames : ∀ name ∈ JobLog.names x.document.jobs, name ∉ JobLog.names y.document.jobs := by
    decide +kernel
  exact ⟨hfiles, hne, hx, hy, hnames, replaceFile_comm s hfiles hne hx hy hnames⟩

end IndexState

end JobIndex
