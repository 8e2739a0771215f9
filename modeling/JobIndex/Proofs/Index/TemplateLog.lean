import JobIndex.Index.Templates
import JobIndex.Proofs.Path
import JobIndex.Proofs.Table
import Mathlib.Data.List.Induction

/-!
# The registry of templates as a log

A log is the list of all stored templates in the order in which they were stored. Both tables of a
registry are determined by such a log: the templates of a file are those of the log that stand
there, and the files that name a job are collected from the templates of the log that name it.
Storing a template and removing a file keep a registry in step with its log.
-/

namespace JobIndex

/-! ### Paths in order -/

/-- Paths stand in order, and no two of them are equal. -/
def Increasing (ps : List Path) : Prop :=
  ps.Pairwise fun p q => compare p q = .lt

theorem mem_insertPath {p q : Path} {ps : List Path} (h : q ∈ insertPath p ps) :
  q = p ∨ q ∈ ps
  := by
  induction ps with
  | nil => exact Or.inl (List.mem_singleton.mp h)
  | cons a ps ih =>
      rw [insertPath] at h
      split at h
      · apply List.mem_cons.mp h
      · exact Or.inr h
      · obtain rfl | h := List.mem_cons.mp h
        · exact Or.inr List.mem_cons_self
        · apply Or.imp_right (List.mem_cons_of_mem a) (ih h)

theorem insertPath_ne_nil (p : Path) (ps : List Path) :
  insertPath p ps ≠ []
  := by
  cases ps with
  | nil => exact List.cons_ne_nil p []
  | cons q ps =>
      rw [insertPath]
      split <;> apply List.cons_ne_nil

/-- A path that comes before all others becomes the first. -/
theorem insertPath_of_lt {p : Path} {ps : List Path} (h : ∀ q ∈ ps, compare p q = .lt) :
  insertPath p ps = p :: ps
  := by
  cases ps with
  | nil => rfl
  | cons q ps => rw [insertPath, h q List.mem_cons_self]

/-- A path is inserted once, however it is spelled. -/
theorem insertPath_insertPath {p q : Path} (hpq : (p == q) = true) (ps : List Path) :
  insertPath p (insertPath q ps) = insertPath q ps
  := by
  have heq : compare p q = .eq := Std.LawfulBEqCmp.compare_eq_iff_beq.mpr hpq
  have hcongr : ∀ a : Path, compare p a = compare q a := fun _ => Std.TransCmp.congr_left heq
  induction ps with
  | nil => simp only [insertPath, heq]
  | cons a ps ih =>
      rw [insertPath]
      cases hq : compare q a <;>
        simp only [insertPath, hcongr, hq, ih, Std.ReflCmp.compare_self]

theorem Increasing.insertPath {ps : List Path} (hps : Increasing ps) (p : Path) :
  Increasing (insertPath p ps)
  := by
  induction ps with
  | nil => apply List.pairwise_singleton
  | cons q ps ih =>
      obtain ⟨hq, hrest⟩ := List.pairwise_cons.mp hps
      rw [JobIndex.insertPath]
      cases h : compare p q with
      | lt =>
          apply List.pairwise_cons.mpr
          refine ⟨?_, hps⟩
          intro a ha
          obtain rfl | ha := List.mem_cons.mp ha
          · exact h
          · apply Std.TransCmp.lt_trans h (hq a ha)
      | eq => exact hps
      | gt =>
          apply List.pairwise_cons.mpr
          refine ⟨?_, ih hrest⟩
          intro a ha
          obtain rfl | ha := mem_insertPath ha
          · apply Std.OrientedCmp.gt_iff_lt.mp h
          · apply hq a ha

/-- Leaving out a file commutes with inserting a path. -/
theorem filter_insertPath {ps : List Path} (hps : Increasing ps) (p file : Path) :
  (insertPath p ps).filter (fun q => !(q == file))
    = if p == file then ps.filter (fun q => !(q == file))
      else insertPath p (ps.filter fun q => !(q == file))
  := by
  induction ps with
  | nil =>
      rw [insertPath, List.filter_cons, List.filter_nil, insertPath]
      cases p == file <;> rfl
  | cons q ps ih =>
      obtain ⟨hq, hrest⟩ := List.pairwise_cons.mp hps
      rw [insertPath]
      cases h : compare p q with
      | lt =>
          have hlt : ∀ a ∈ (q :: ps).filter (fun q => !(q == file)), compare p a = .lt := by
            intro a ha
            obtain rfl | ha := List.mem_cons.mp (List.mem_of_mem_filter ha)
            · exact h
            · apply Std.TransCmp.lt_trans h (hq a ha)
          rw [insertPath_of_lt hlt]
          simp only [List.filter_cons (x := p)]
          cases p == file <;> rfl
      | eq =>
          have hpq : (p == q) = true := Std.LawfulBEqCmp.compare_eq_iff_beq.mp h
          rw [BEq.congr_left hpq]
          cases hfile : q == file with
          | true => rfl
          | false => simp [hfile, insertPath, h]
      | gt =>
          have ih := ih hrest
          cases hfile : q == file with
          | true => simpa [hfile] using ih
          | false =>
              simp only [List.filter_cons, hfile, ih, Bool.not_false, if_true, insertPath, h]
              split <;> rfl

/-! ### Logs -/

/-- Stored templates, the latest last. -/
abbrev TemplateLog := List Template

namespace TemplateLog

/-- The templates that stand in a file, in the order in which they were stored. -/
def inFile (log : TemplateLog) (file : Path) : List Template :=
  log.filter fun t => t.file == file

/-- The log without the templates of a file. -/
def removeFile (log : TemplateLog) (file : Path) : TemplateLog :=
  log.filter fun t => !(t.file == file)

/-- The files with templates that name a job, in order. -/
def filesNaming (log : TemplateLog) (job : String) : List Path :=
  (log.filter fun t => t.mentions job).foldl (fun files t => insertPath t.file files) []

theorem inFile_append (log log' : TemplateLog) (file : Path) :
  inFile (log ++ log') file = log.inFile file ++ inFile log' file
  := List.filter_append log log'

/-- Removing a file leaves no templates of that file, and those of all other files. -/
theorem inFile_removeFile (log : TemplateLog) (file other : Path) :
  (log.removeFile file).inFile other = if file == other then [] else log.inFile other
  := Path.filter_filter_not Template.file log file other

/-- One more template adds its file for the jobs that it names. -/
theorem filesNaming_append_singleton (log : TemplateLog) (t : Template) (job : String) :
  filesNaming (log ++ [t]) job
    = if t.mentions job then insertPath t.file (log.filesNaming job) else log.filesNaming job
  := by
  rw [filesNaming, List.filter_append, List.foldl_append, ← filesNaming, List.filter_cons]
  cases t.mentions job <;> rfl

theorem increasing_filesNaming (log : TemplateLog) (job : String) :
  Increasing (log.filesNaming job)
  := by
  induction log using List.reverseRecOn with
  | nil => apply List.Pairwise.nil
  | append_singleton log t ih =>
      rw [filesNaming_append_singleton]
      split
      · apply ih.insertPath
      · exact ih

/-- Removing a file takes it out of the files that name a job. -/
theorem filesNaming_removeFile (log : TemplateLog) (file : Path) (job : String) :
  (log.removeFile file).filesNaming job = (log.filesNaming job).filter fun q => !(q == file)
  := by
  induction log using List.reverseRecOn with
  | nil => rfl
  | append_singleton log t ih =>
      rw [removeFile] at ih
      rw [removeFile, List.filter_append, List.filter_cons, List.filter_nil,
        filesNaming_append_singleton]
      cases hfile : t.file == file with
      | true =>
          simp only [Bool.not_true, Bool.false_eq_true, if_false, List.append_nil, ih]
          split
          · rw [filter_insertPath (increasing_filesNaming log job), hfile, if_pos rfl]
          · rfl
      | false =>
          simp only [Bool.not_false, if_true, filesNaming_append_singleton, ih]
          split
          · rw [filter_insertPath (increasing_filesNaming log job), hfile,
              if_neg Bool.false_ne_true]
          · rfl

end TemplateLog

namespace TemplateRegistry

/-! ### The two tables of a log -/

/-- A table holds the templates of a log by file, in the order of the log. -/
structure HoldsTemplates (t : Table Path (List Template)) (log : TemplateLog) : Prop where
  distinct : t.Distinct
  filled : t.Filled
  list_eq : ∀ file, t.list file = log.inFile file

/-- A table holds for each job the files of the templates of a log that name it. -/
structure HoldsReferences (t : Table String (List Path)) (log : TemplateLog) : Prop where
  distinct : t.Distinct
  filled : t.Filled
  list_eq : ∀ job, t.list job = log.filesNaming job

/-- The tables of `r` hold the templates of `log`. -/
structure Represents (r : TemplateRegistry) (log : TemplateLog) : Prop where
  byFile : HoldsTemplates r.byFile log
  referencedBy : HoldsReferences r.referencedBy log

theorem represents_empty :
  empty.Represents []
  where
  byFile := ⟨Table.distinct_nil, Table.filled_nil, fun _ => rfl⟩
  referencedBy := ⟨Table.distinct_nil, Table.filled_nil, fun _ => rfl⟩

/-! ### Storing a template -/

theorem HoldsTemplates.put {table : Table Path (List Template)} {log : TemplateLog}
    (h : HoldsTemplates table log) (t : Template) :
  HoldsTemplates (table.put t.file (table.list t.file ++ [t])) (log ++ [t])
  := by
  constructor
  · apply h.distinct.put
  · apply h.filled.put t.file (List.concat_ne_nil t _)
  · intro file
    rw [Table.list_put, TemplateLog.inFile_append, TemplateLog.inFile, TemplateLog.inFile,
      List.filter_cons, List.filter_nil]
    cases hfile : t.file == file with
    | true => rw [if_pos rfl, if_pos rfl, table.list_congr hfile, h.list_eq, TemplateLog.inFile]
    | false =>
        rw [if_neg Bool.false_ne_true, if_neg Bool.false_ne_true, List.append_nil, h.list_eq,
          TemplateLog.inFile]

/-- Noting the jobs that a file names adds the file for each of them. -/
theorem get?_foldl_addReference (file : Path) (jobs : List String)
    (table : Table String (List Path)) (job : String) :
  (jobs.foldl (addReference file) table).get? job
    = if jobs.contains job then some (insertPath file (table.list job)) else table.get? job
  := by
  induction jobs generalizing table with
  | nil => rfl
  | cons j jobs ih =>
      rw [List.foldl_cons, ih, addReference, Table.get?_put, Table.list_put, List.contains_cons]
      by_cases hj : j = job
      · subst hj
        simp only [BEq.rfl, if_true, Bool.true_or, insertPath_insertPath, ite_self]
      · rw [beq_eq_false_iff_ne.mpr hj, beq_eq_false_iff_ne.mpr (Ne.symm hj), Bool.false_or]
        rfl

theorem list_foldl_addReference (file : Path) (jobs : List String)
    (table : Table String (List Path)) (job : String) :
  (jobs.foldl (addReference file) table).list job
    = if jobs.contains job then insertPath file (table.list job) else table.list job
  := by
  rw [Table.list, get?_foldl_addReference]
  split <;> rfl

theorem HoldsReferences.put {table : Table String (List Path)} {log : TemplateLog}
    (h : HoldsReferences table log) (t : Template) :
  HoldsReferences (t.references.foldl (addReference t.file) table) (log ++ [t])
  := by
  constructor
  · apply List.foldlRecOn (motive := Table.Distinct) _ _ h.distinct
    intro table htable job _
    apply htable.put
  · apply List.foldlRecOn (motive := Table.Filled) _ _ h.filled
    intro table htable job _
    apply htable.put job (insertPath_ne_nil _ _)
  · intro job
    rw [list_foldl_addReference, TemplateLog.filesNaming_append_singleton, h.list_eq,
      Template.mentions]

/-- A registry stays in step with its log when a template is stored. -/
theorem Represents.add {r : TemplateRegistry} {log : TemplateLog} (hr : r.Represents log)
    (t : Template) :
  (r.add t).Represents (log ++ [t])
  where
  byFile := hr.byFile.put t
  referencedBy := hr.referencedBy.put t

theorem Represents.addAll {r : TemplateRegistry} {log : TemplateLog} (hr : r.Represents log)
    (ts : List Template) :
  (r.addAll ts).Represents (log ++ ts)
  := by
  induction ts generalizing r log with
  | nil =>
      rw [List.append_nil]
      exact hr
  | cons t ts ih =>
      rw [List.append_cons]
      apply ih (hr.add t)

/-! ### Removing a file -/

theorem HoldsTemplates.erase {table : Table Path (List Template)} {log : TemplateLog}
    (h : HoldsTemplates table log) (file : Path) :
  HoldsTemplates (table.erase file) (log.removeFile file)
  := by
  constructor
  · apply h.distinct.erase
  · apply h.filled.erase
  · intro other
    rw [Table.list_erase, TemplateLog.inFile_removeFile]
    split
    · rfl
    · apply h.list_eq

/-- A table that holds the files of each job holds those of the log without a file when the jobs
that the file names have been sifted. -/
theorem HoldsReferences.removeReferences {table : Table String (List Path)} {log : TemplateLog}
    (h : HoldsReferences table log) (file : Path) :
  HoldsReferences (((log.inFile file).flatMap Template.references).foldl (removeReference file)
    table) (log.removeFile file)
  := by
  constructor
  · apply h.distinct.foldl_sift
  · apply h.filled.foldl_sift
  · intro job
    apply Eq.trans (Table.list_foldl_sift _ _ table job)
    rw [h.list_eq]
    split
    · rw [TemplateLog.filesNaming_removeFile]
    · next hjob =>
      -- no template of the file names the job, so removing the file changes nothing for the job
      rw [TemplateLog.filesNaming, TemplateLog.filesNaming, TemplateLog.removeFile,
        List.filter_filter]
      congr 1
      apply List.filter_congr
      intro t ht
      cases hfile : t.file == file with
      | false => rw [Bool.not_false, Bool.and_true]
      | true =>
          rw [Bool.not_true, Bool.and_false, ← Bool.not_eq_true]
          intro hmentions
          apply hjob
          rw [List.any_eq_true]
          use job
          constructor
          · apply List.mem_flatMap.mpr
            use t
            constructor
            · apply List.mem_filter.mpr ⟨ht, hfile⟩
            · simpa [Template.mentions] using hmentions
          · apply BEq.rfl

/-- A registry stays in step with its log when a file is removed. -/
theorem Represents.removeFile {r : TemplateRegistry} {log : TemplateLog} (hr : r.Represents log)
    (file : Path) :
  (r.removeFile file).1.Represents (log.removeFile file)
  := by
  have hlist := hr.byFile.list_eq file
  cases hget : r.byFile.get? file with
  | none =>
      rw [Table.list, hget, Option.getD_none] at hlist
      have hself : log.removeFile file = log := by
        apply List.filter_eq_self.mpr
        intro t ht
        rw [Bool.not_eq_true', ← Bool.not_eq_true]
        apply List.filter_eq_nil_iff.mp hlist.symm t ht
      rw [hself, TemplateRegistry.removeFile, hget]
      exact hr
  | some ts =>
      rw [Table.list, hget, Option.getD_some] at hlist
      rw [TemplateRegistry.removeFile, hget, hlist]
      constructor
      · apply hr.byFile.erase
      · apply hr.referencedBy.removeReferences

end TemplateRegistry

end JobIndex
