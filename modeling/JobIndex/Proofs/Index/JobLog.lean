import JobIndex.Index.Jobs
import JobIndex.Proofs.Path
import JobIndex.Proofs.Table
import Mathlib.Data.List.Dedup
import Mathlib.Data.List.Flatten
import Mathlib.Data.List.Perm.Basic
import Mathlib.Data.List.Sort
import Mathlib.Data.String.Basic

/-!
# The registry of jobs as a log

A log is the list of all stored jobs in the order in which they were stored. Storing a job appends
it, removing a file deletes its jobs wherever they stand. The two tables of a registry are an index
of such a log:

* `Represents r log` says which entries the tables have for which log;
* storing a job, removing a file and starting anew keep a registry in step with its log;
* whatever is asked of a registry is answered from the log (`AnswersFrom`), after any sequence of
  operations.
-/

namespace JobIndex

/-- Stored jobs, the latest last. -/
abbrev JobLog := List Job

namespace JobLog

/-- The jobs of a name, the latest last. -/
def definitions (log : JobLog) (name : String) : List Job :=
  log.filter fun job => job.name? == some name

/-- The latest job of a name. -/
def newest? (log : JobLog) (name : String) : Option Job :=
  (log.definitions name).getLast?

/-- The jobs that stand in a file, in the order in which they were stored. -/
def inFile (log : JobLog) (file : Path) : List Job :=
  log.filter fun job => job.file == file

/-- The names of the jobs, a name as often as there are jobs with it. -/
def names (log : JobLog) : List String :=
  log.filterMap Job.name?

/-- The log after a job has been stored; one without a name is not. -/
def add (log : JobLog) (job : Job) : JobLog :=
  if job.name?.isSome then log ++ [job] else log

/-- The log without the jobs of a file. -/
def removeFile (log : JobLog) (file : Path) : JobLog :=
  log.filter fun job => !(job.file == file)

theorem mem_definitions {log : JobLog} {name : String} {job : Job} :
  job ∈ log.definitions name ↔ job ∈ log ∧ job.name? = some name
  := by
  simp [definitions]

theorem mem_inFile {log : JobLog} {file : Path} {job : Job} :
  job ∈ log.inFile file ↔ job ∈ log ∧ (job.file == file) = true
  := List.mem_filter

theorem definitions_append (log log' : JobLog) (name : String) :
  definitions (log ++ log') name = log.definitions name ++ definitions log' name
  := List.filter_append log log'

theorem definitions_removeFile (log : JobLog) (file : Path) (name : String) :
  (log.removeFile file).definitions name
    = (log.definitions name).filter fun job => !(job.file == file)
  := by
  rw [definitions, removeFile, definitions, List.filter_filter, List.filter_filter]
  congr 1
  funext job
  apply Bool.and_comm

/-- Removing a file leaves no jobs of that file, and those of all other files. -/
theorem inFile_removeFile (log : JobLog) (file other : Path) :
  (log.removeFile file).inFile other = if file == other then [] else log.inFile other
  := Path.filter_filter_not Job.file log file other

/-- Removing a file of which there are no jobs changes nothing. -/
theorem removeFile_eq_self {log : JobLog} {file : Path} (h : log.inFile file = []) :
  log.removeFile file = log
  := by
  apply List.filter_eq_self.mpr
  intro job hjob
  have hfile := List.filter_eq_nil_iff.mp h job hjob
  rw [Bool.not_eq_true] at hfile
  rw [hfile, Bool.not_false]

/-- The latest job of a name has that name. -/
theorem name_of_newest? {log : JobLog} {name : String} {job : Job}
    (h : log.newest? name = some job) :
  job.name? = some name
  := (mem_definitions.mp (List.mem_of_getLast? h)).2

theorem mem_of_newest? {log : JobLog} {name : String} {job : Job}
    (h : log.newest? name = some job) :
  job ∈ log
  := (mem_definitions.mp (List.mem_of_getLast? h)).1

theorem newest?_isSome {log : JobLog} {name : String} :
  (log.newest? name).isSome ↔ ∃ job ∈ log, job.name? = some name
  := by
  rw [newest?, List.getLast?_isSome]
  constructor
  · intro h
    obtain ⟨job, hjob⟩ := List.exists_mem_of_ne_nil _ h
    use job
    apply mem_definitions.mp hjob
  · rintro ⟨job, hjob⟩
    apply List.ne_nil_of_mem (mem_definitions.mpr hjob)

end JobLog

namespace JobRegistry

/-! ### The two tables of a log -/

/-- A table holds the jobs of a log by name, in the order of the log. -/
structure HoldsDefinitions (t : Table String (List Job)) (log : JobLog) : Prop where
  distinct : t.Distinct
  filled : t.Filled
  list_eq : ∀ name, t.list name = log.definitions name

/-- The names of jobs in the order in which they come first. -/
def namesOf (jobs : List Job) : List String :=
  (jobs.filterMap Job.name?).foldl withName []

/-- A table holds for each file the names of the jobs of a log that stand there, each once. -/
structure HoldsNames (t : Table Path (List String)) (log : JobLog) : Prop where
  distinct : t.Distinct
  filled : t.Filled
  list_eq : ∀ file, t.list file = namesOf (log.inFile file)

/-- The tables of `r` hold the jobs of `log`, all of which have names. -/
structure Represents (r : JobRegistry) (log : JobLog) : Prop where
  named : ∀ job ∈ log, job.name?.isSome
  byName : HoldsDefinitions r.byName log
  byFile : HoldsNames r.byFile log

theorem represents_empty :
  empty.Represents []
  := by
  constructor
  · intro job hjob
    cases hjob
  · exact ⟨Table.distinct_nil, Table.filled_nil, fun _ => rfl⟩
  · exact ⟨Table.distinct_nil, Table.filled_nil, fun _ => rfl⟩

/-! ### The names of a file -/

theorem mem_withName {names : List String} {name n : String} :
  n ∈ withName names name ↔ n ∈ names ∨ n = name
  := by
  unfold withName
  split
  · next h =>
    have hname : name ∈ names := by simpa using h
    constructor
    · exact Or.inl
    · rintro (hn | rfl)
      · exact hn
      · exact hname
  · simp

theorem nodup_withName {names : List String} (h : names.Nodup) (name : String) :
  (withName names name).Nodup
  := by
  unfold withName
  split
  · exact h
  · next hname =>
    apply List.nodup_append.mpr
    refine ⟨h, List.nodup_singleton name, ?_⟩
    rintro a ha b hb rfl
    obtain rfl := List.mem_singleton.mp hb
    apply hname
    simpa using ha

theorem mem_namesOf {jobs : List Job} {name : String} :
  name ∈ namesOf jobs ↔ ∃ job ∈ jobs, job.name? = some name
  := by
  have hfold : ∀ (names seen : List String),
      name ∈ names.foldl withName seen ↔ name ∈ seen ∨ name ∈ names := by
    intro names
    induction names with
    | nil => simp
    | cons n names ih =>
        intro seen
        rw [List.foldl_cons, ih, mem_withName, List.mem_cons, or_assoc]
  rw [namesOf, hfold, List.mem_filterMap]
  simp only [List.not_mem_nil, false_or]

theorem nodup_namesOf (jobs : List Job) :
  (namesOf jobs).Nodup
  := by
  have hfold : ∀ (names seen : List String), seen.Nodup → (names.foldl withName seen).Nodup := by
    intro names
    induction names with
    | nil => exact fun _ h => h
    | cons n names ih => exact fun seen h => ih _ (nodup_withName h n)
  apply hfold _ _ List.nodup_nil

/-- A further job adds its name, if that is new. -/
theorem namesOf_append_singleton (jobs : List Job) {job : Job} {name : String}
    (h : job.name? = some name) :
  namesOf (jobs ++ [job]) = withName (namesOf jobs) name
  := by
  rw [namesOf, List.filterMap_append, List.foldl_append, List.filterMap_cons_some h]
  rfl

theorem namesOf_eq_nil_iff {jobs : List Job} (hnamed : ∀ job ∈ jobs, job.name?.isSome) :
  namesOf jobs = [] ↔ jobs = []
  := by
  constructor
  · intro hnil
    apply List.eq_nil_iff_forall_not_mem.mpr
    intro job hjob
    obtain ⟨name, hname⟩ := Option.isSome_iff_exists.mp (hnamed job hjob)
    have hmem := mem_namesOf.mpr ⟨job, hjob, hname⟩
    rw [hnil] at hmem
    cases hmem
  · rintro rfl
    rfl

/-! ### Storing a job -/

/-- A table that holds the jobs of a log by name holds one job more when that job is put behind the
definitions of its name. -/
theorem HoldsDefinitions.put {t : Table String (List Job)} {log : JobLog}
    (ht : HoldsDefinitions t log) {job : Job} {name : String} (h : job.name? = some name) :
  HoldsDefinitions (t.put name (t.list name ++ [job])) (log ++ [job])
  := by
  constructor
  · apply ht.distinct.put
  · apply ht.filled.put name (List.concat_ne_nil job _)
  · intro n
    rw [JobLog.definitions_append, ← ht.list_eq, Table.list_put]
    by_cases hn : name = n
    · simp [JobLog.definitions, h, hn]
    · simp [JobLog.definitions, h, hn]

/-- A table that holds the names of each file holds those of one job more when its name is noted
for its file. -/
theorem HoldsNames.put {t : Table Path (List String)} {log : JobLog} (ht : HoldsNames t log)
    {job : Job} {name : String} (h : job.name? = some name) :
  HoldsNames (t.put job.file (withName (t.list job.file) name)) (log ++ [job])
  := by
  constructor
  · apply ht.distinct.put
  · apply ht.filled.put
    apply List.ne_nil_of_mem (mem_withName.mpr (Or.inr rfl))
  · intro file
    rw [Table.list_put, JobLog.inFile, List.filter_append, ← JobLog.inFile]
    cases hfile : job.file == file with
    | true =>
        rw [if_pos rfl, t.list_congr hfile, ht.list_eq, List.filter_cons, hfile, if_pos rfl,
          List.filter_nil, namesOf_append_singleton _ h]
    | false =>
        rw [if_neg Bool.false_ne_true, ht.list_eq, List.filter_cons, hfile,
          if_neg Bool.false_ne_true, List.filter_nil, List.append_nil]

/-- A registry stays in step with its log when a job is stored. -/
theorem Represents.add {r : JobRegistry} {log : JobLog} (hr : r.Represents log) (job : Job) :
  (r.add job).1.Represents (log.add job)
  := by
  cases hname : job.name? with
  | none =>
      rw [JobRegistry.add, JobLog.add, hname]
      exact hr
  | some name =>
      have hlog : log.add job = log ++ [job] := by simp [JobLog.add, hname]
      rw [hlog, JobRegistry.add, hname]
      constructor
      · intro j hj
        rcases List.mem_append.mp hj with hj | hj
        · apply hr.named j hj
        · rw [List.mem_singleton.mp hj, hname]
          rfl
      · apply hr.byName.put hname
      · apply hr.byFile.put hname

/-! ### Removing a file -/

/-- A table that holds the jobs of a log by name holds those of the log without a file when the
names of that file have been removed. -/
theorem HoldsDefinitions.removeNames {t : Table String (List Job)} {log : JobLog}
    (ht : HoldsDefinitions t log) (file : Path) {names : List String}
    (hnames : ∀ name, (∃ job ∈ log.inFile file, job.name? = some name) → name ∈ names) :
  HoldsDefinitions (names.foldl (removeName file) t) (log.removeFile file)
  := by
  constructor
  · apply ht.distinct.foldl_sift
  · apply ht.filled.foldl_sift
  · intro n
    apply Eq.trans (Table.list_foldl_sift _ names t n)
    rw [JobLog.definitions_removeFile, ht.list_eq]
    split
    · rfl
    · next hn =>
      symm
      apply List.filter_eq_self.mpr
      intro job hjob
      obtain ⟨hmem, hname⟩ := JobLog.mem_definitions.mp hjob
      rw [Bool.not_eq_true', ← Bool.not_eq_true]
      intro hfile
      apply hn
      have hn' : n ∈ names := hnames n ⟨job, JobLog.mem_inFile.mpr ⟨hmem, hfile⟩, hname⟩
      simpa using hn'

/-- A table that holds the names of each file holds those of the log without a file when that file
has been erased. -/
theorem HoldsNames.erase {t : Table Path (List String)} {log : JobLog} (ht : HoldsNames t log)
    (file : Path) :
  HoldsNames (t.erase file) (log.removeFile file)
  := by
  constructor
  · apply ht.distinct.erase
  · apply ht.filled.erase
  · intro other
    rw [Table.list_erase, JobLog.inFile_removeFile]
    split
    · rfl
    · apply ht.list_eq

/-- A file has no names exactly when no job stands there. -/
theorem Represents.names_eq_nil_iff {r : JobRegistry} {log : JobLog} (hr : r.Represents log)
    (file : Path) :
  r.byFile.list file = [] ↔ log.inFile file = []
  := by
  rw [hr.byFile.list_eq]
  apply namesOf_eq_nil_iff
  intro job hjob
  apply hr.named job (List.mem_of_mem_filter hjob)

/-- A registry stays in step with its log when a file is removed. -/
theorem Represents.removeFile {r : JobRegistry} {log : JobLog} (hr : r.Represents log)
    (file : Path) :
  (r.removeFile file).1.Represents (log.removeFile file)
  := by
  cases hget : r.byFile.get? file with
  | none =>
      have hnil := (hr.names_eq_nil_iff file).mp ((hr.byFile.filled.get?_eq_none_iff file).mp hget)
      rw [JobLog.removeFile_eq_self hnil, JobRegistry.removeFile, hget]
      exact hr
  | some names =>
      have hlist : r.byFile.list file = names := by rw [Table.list, hget, Option.getD_some]
      rw [JobRegistry.removeFile, hget]
      constructor
      · intro job hjob
        apply hr.named job (List.mem_of_mem_filter hjob)
      · apply hr.byName.removeNames
        intro name
        rw [← hlist, hr.byFile.list_eq]
        apply mem_namesOf.mpr
      · apply hr.byFile.erase

/-! ### Answers from the log -/

theorem Represents.get?_eq {r : JobRegistry} {log : JobLog} (hr : r.Represents log)
    (name : String) :
  r.get? name = log.newest? name
  := by
  rw [get?, definitions, hr.byName.list_eq, JobLog.newest?]

/-- The last definition of an entry is the active job of its name. -/
theorem Represents.getLast?_of_mem {r : JobRegistry} {log : JobLog} (hr : r.Represents log)
    {e : String × List Job} (he : e ∈ r.byName) :
  e.2.getLast? = r.get? e.1
  := by
  rw [get?, definitions, Table.list, hr.byName.distinct.get?_of_mem he, Option.getD_some]

/-- The active jobs are the latest ones of their names. -/
theorem Represents.mem_active {r : JobRegistry} {log : JobLog} (hr : r.Represents log) {job : Job} :
  job ∈ r.active ↔ ∃ name, log.newest? name = some job
  := by
  simp only [active, Table.values, List.mem_filterMap, List.mem_map]
  constructor
  · rintro ⟨_, ⟨e, he, rfl⟩, hlast⟩
    use e.1
    rwa [← hr.get?_eq, ← hr.getLast?_of_mem he]
  · rintro ⟨name, hnewest⟩
    rw [← hr.get?_eq, get?, definitions] at hnewest
    have hne : r.byName.list name ≠ [] := by
      intro hnil
      rw [hnil] at hnewest
      cases hnewest
    obtain ⟨key, hkey, hmem⟩ := Table.mem_of_list_ne_nil hne
    exact ⟨r.byName.list name, ⟨_, hmem, rfl⟩, hnewest⟩

/-- The names of the active jobs are the names of the registry, in its order. -/
theorem Represents.map_name_active {r : JobRegistry} {log : JobLog} (hr : r.Represents log) :
  r.active.map Job.name? = r.byName.keys.map some
  := by
  have hlast : ∀ e ∈ r.byName, ∃ job, e.2.getLast? = some job ∧ job.name? = some e.1 := by
    intro e he
    obtain ⟨job, hjob⟩ := Option.isSome_iff_exists.mp
      (List.getLast?_isSome.mpr (hr.byName.filled e he))
    have hnewest : log.newest? e.1 = some job := by
      rw [← hr.get?_eq, ← hr.getLast?_of_mem he, hjob]
    use job, hjob
    apply JobLog.name_of_newest? hnewest
  unfold active Table.values Table.keys
  generalize r.byName = t at hlast
  induction t with
  | nil => rfl
  | cons e t ih =>
      obtain ⟨job, hjob, hname⟩ := hlast e List.mem_cons_self
      rw [List.map_cons, List.filterMap_cons_some hjob, List.map_cons, List.map_cons, List.map_cons,
        hname, ih]
      intro e' he'
      apply hlast e' (List.mem_cons_of_mem e he')

/-- No two active jobs have the same name. -/
theorem Represents.active_pairwise {r : JobRegistry} {log : JobLog} (hr : r.Represents log) :
  r.active.Pairwise fun a b => a.name? ≠ b.name?
  := by
  apply List.pairwise_map.mp
  rw [hr.map_name_active]
  apply List.Nodup.map (Option.some_injective String)
  apply hr.byName.distinct.nodup_keys

/-- There are as many names as different names in the log. -/
theorem Represents.count_eq {r : JobRegistry} {log : JobLog} (hr : r.Represents log) :
  r.count = log.names.dedup.length
  := by
  have hkeys : r.byName.keys.Perm log.names.dedup := by
    apply (List.perm_ext_iff_of_nodup hr.byName.distinct.nodup_keys (List.nodup_dedup _)).mpr
    intro name
    rw [Table.mem_keys_iff_has, hr.byName.filled.has_iff, hr.byName.list_eq,
      ← List.getLast?_isSome, ← JobLog.newest?, JobLog.newest?_isSome, List.mem_dedup,
      JobLog.names, List.mem_filterMap]
  rw [← hkeys.length_eq, Table.keys, List.length_map, count]

/-- The children of a name are the active jobs with that parent, the names in strict order. -/
theorem Represents.children_sorted {r : JobRegistry} {log : JobLog} (hr : r.Represents log)
    (parent : String) :
  (r.children parent).Pairwise fun a b => ∃ m n, a.name? = some m ∧ b.name? = some n ∧ m < n
  := by
  have hperm : (r.children parent).Perm (r.active.filter fun job => job.parent? == some parent) :=
    List.mergeSort_perm _ _
  have hle : (r.children parent).Pairwise fun a b => byNameLe a b = true := by
    apply List.pairwise_mergeSort
    · intro a b c hab hbc
      simp only [byNameLe, decide_eq_true_eq] at hab hbc ⊢
      apply le_trans hab hbc
    · intro a b
      simp only [byNameLe, Bool.or_eq_true, decide_eq_true_eq]
      apply le_total
  have hne : (r.children parent).Pairwise fun a b => a.name? ≠ b.name? := by
    apply (hperm.pairwise_iff (fun h => h.symm)).mpr
    apply hr.active_pairwise.filter
  have hnamed : ∀ job ∈ r.children parent, ∃ name, job.name? = some name := by
    intro job hjob
    obtain ⟨name, hnewest⟩ := hr.mem_active.mp (List.mem_of_mem_filter (hperm.mem_iff.mp hjob))
    use name
    apply JobLog.name_of_newest? hnewest
  apply (hle.and hne).imp_of_mem
  rintro a b ha hb ⟨hab, hne'⟩
  obtain ⟨m, hm⟩ := hnamed a ha
  obtain ⟨n, hn⟩ := hnamed b hb
  simp only [byNameLe, hm, hn, Option.getD_some, decide_eq_true_eq] at hab
  use m, n, hm, hn
  apply lt_of_le_of_ne hab
  rintro rfl
  apply hne'
  rw [hm, hn]

theorem Represents.mem_children {r : JobRegistry} {log : JobLog} (hr : r.Represents log)
    (parent : String) (job : Job) :
  job ∈ r.children parent ↔ (∃ name, log.newest? name = some job) ∧ job.parent? = some parent
  := by
  rw [children, List.mem_mergeSort, List.mem_filter, hr.mem_active, beq_iff_eq]

/-- Jobs taken name by name are all the jobs of a list, if each name comes once and none is left
out. -/
theorem flatMap_definitions_perm {log : JobLog} {names : List String} (hnodup : names.Nodup)
    (hnames : ∀ job ∈ log, ∃ name ∈ names, job.name? = some name) :
  (names.flatMap log.definitions).Perm log
  := by
  induction names generalizing log with
  | nil =>
      have hnil : log = [] := by
        apply List.eq_nil_iff_forall_not_mem.mpr
        intro job hjob
        obtain ⟨name, hname, -⟩ := hnames job hjob
        cases hname
      rw [hnil]
      apply List.Perm.refl
  | cons name names ih =>
      obtain ⟨hfresh, hrest⟩ := List.nodup_cons.mp hnodup
      have hothers : names.flatMap log.definitions = names.flatMap
          (JobLog.definitions (log.filter fun job => !(job.name? == some name))) := by
        apply List.flatMap_congr
        intro n hn
        rw [JobLog.definitions, JobLog.definitions, List.filter_filter]
        apply List.filter_congr
        intro job _
        have hne : n ≠ name := by
          rintro rfl
          apply hfresh hn
        by_cases hjob : job.name? = some n <;> simp [hjob, hne]
      rw [List.flatMap_cons, hothers]
      apply List.Perm.trans _ (List.filter_append_perm (fun job => job.name? == some name) log)
      apply List.Perm.append_left
      apply ih hrest
      intro job hjob
      obtain ⟨hmem, hne⟩ := List.mem_filter.mp hjob
      obtain ⟨n, hn, hname⟩ := hnames job hmem
      rcases List.mem_cons.mp hn with rfl | hn
      · simp [hname] at hne
      · use n, hn

/-- Of the definitions of a name, those in a file are the jobs there that have the name. -/
theorem Represents.definitions_filter {r : JobRegistry} {log : JobLog} (hr : r.Represents log)
    (file : Path) (name : String) :
  (r.definitions name).filter (fun job => job.file == file)
    = JobLog.definitions (log.inFile file) name
  := by
  rw [definitions, hr.byName.list_eq, JobLog.definitions, JobLog.definitions, JobLog.inFile,
    List.filter_filter, List.filter_filter]
  congr 1
  funext job
  apply Bool.and_comm

/-- The definitions that a registry finds in a file are the jobs of the log that stand there. -/
theorem Represents.definedIn_perm {r : JobRegistry} {log : JobLog} (hr : r.Represents log)
    (file : Path) :
  (r.definedIn file (r.byFile.list file)).Perm (log.inFile file)
  := by
  have heq : r.definedIn file (r.byFile.list file)
      = (r.byFile.list file).flatMap (JobLog.definitions (log.inFile file)) := by
    apply List.flatMap_congr
    intro name _
    apply hr.definitions_filter
  rw [heq]
  rw [hr.byFile.list_eq]
  apply flatMap_definitions_perm (nodup_namesOf _)
  intro job hjob
  obtain ⟨name, hname⟩ := Option.isSome_iff_exists.mp (hr.named job (List.mem_of_mem_filter hjob))
  use name
  constructor
  · apply mem_namesOf.mpr ⟨job, hjob, hname⟩
  · exact hname

theorem Represents.inFile_perm {r : JobRegistry} {log : JobLog} (hr : r.Represents log)
    (file : Path) :
  (r.inFile file).Perm (log.inFile file)
  := (List.mergeSort_perm _ _).trans (hr.definedIn_perm file)

theorem Represents.knows_iff {r : JobRegistry} {log : JobLog} (hr : r.Represents log)
    (file : Path) :
  r.knows file = true ↔ ∃ job ∈ log, (job.file == file) = true
  := by
  rw [knows, hr.byFile.filled.has_iff, ne_eq, hr.names_eq_nil_iff, JobLog.inFile,
    List.filter_eq_nil_iff]
  push Not
  rfl

/-- Removing a file says how many jobs of the log stood there. -/
theorem Represents.removed_eq {r : JobRegistry} {log : JobLog} (hr : r.Represents log)
    (file : Path) :
  (r.removeFile file).2 = (log.inFile file).length
  := by
  rw [← (hr.definedIn_perm file).length_eq, JobRegistry.removeFile]
  cases hget : r.byFile.get? file with
  | none => rw [Table.list, hget, Option.getD_none, definedIn, List.flatMap_nil, List.length_nil]
  | some names => rw [Table.list, hget, Option.getD_some]

/-- Storing a job with a name reports the active job of that name, which it hides. -/
theorem reported_add (r : JobRegistry) {job : Job} {name : String} (h : job.name? = some name) :
  (r.add job).2
    = ((r.get? name).map fun previous => .duplicateJob name previous.file job.file).toList
  := by
  rw [JobRegistry.add, h]
  rfl

/-- Every question to `r` is answered from `log`. -/
structure AnswersFrom (r : JobRegistry) (log : JobLog) : Prop where
  /-- The active definition of a name is the latest one. -/
  get : ∀ name, r.get? name = log.newest? name
  /-- Each name counts once. -/
  count : r.count = log.names.dedup.length
  /-- The children are the latest jobs of their names that have the parent. -/
  children : ∀ parent job,
    job ∈ r.children parent ↔ (∃ name, log.newest? name = some job) ∧ job.parent? = some parent
  /-- They stand in the order of their names, of which no two are the same. -/
  children_sorted : ∀ parent, (r.children parent).Pairwise fun a b =>
    ∃ m n, a.name? = some m ∧ b.name? = some n ∧ m < n
  /-- The jobs of a file are those that stand there, hidden or not. -/
  inFile : ∀ file, (r.inFile file).Perm (log.inFile file)
  knows : ∀ file, r.knows file = true ↔ ∃ job ∈ log, (job.file == file) = true
  /-- Removing a file says how many jobs stood there. -/
  removed : ∀ file, (r.removeFile file).2 = (log.inFile file).length
  /-- A job without a name is refused, and nothing happens. -/
  refused : ∀ job, job.name? = none → accepts job = false ∧ r.add job = (r, [])
  /-- Storing a job with a new name reports nothing. -/
  stored_new : ∀ job name, job.name? = some name → (∀ other ∈ log, other.name? ≠ some name) →
    accepts job = true ∧ (r.add job).2 = []
  /-- Storing a job with a known name reports the file of the job that was active until then. -/
  stored_again : ∀ job name, job.name? = some name → (∃ other ∈ log, other.name? = some name) →
    accepts job = true ∧ ∃ previous, r.get? name = some previous ∧
      (r.add job).2 = [.duplicateJob name previous.file job.file]

theorem Represents.answersFrom {r : JobRegistry} {log : JobLog} (hr : r.Represents log) :
  r.AnswersFrom log
  where
  get := hr.get?_eq
  count := hr.count_eq
  children := hr.mem_children
  children_sorted := hr.children_sorted
  inFile := hr.inFile_perm
  knows := hr.knows_iff
  removed := hr.removed_eq
  refused job hname := by
    rw [accepts, JobRegistry.add, hname]
    exact ⟨rfl, rfl⟩
  stored_new job name hname hnew := by
    have hnone : r.get? name = none := by
      rw [hr.get?_eq, ← Option.not_isSome_iff_eq_none, JobLog.newest?_isSome]
      rintro ⟨other, hmem, hother⟩
      apply hnew other hmem hother
    rw [accepts, hname, reported_add r hname, hnone]
    exact ⟨rfl, rfl⟩
  stored_again job name hname hagain := by
    obtain ⟨previous, hprevious⟩ := Option.isSome_iff_exists.mp (JobLog.newest?_isSome.mpr hagain)
    rw [accepts, hname, reported_add r hname, hr.get?_eq, hprevious]
    exact ⟨rfl, previous, rfl, rfl⟩

/-! ### Sequences of operations -/

/-- An operation on the stored jobs. -/
inductive Operation where
  | add (job : Job)
  | removeFile (file : Path)
  | clear

/-- The registry after an operation. -/
def perform (r : JobRegistry) : Operation → JobRegistry
  | .add job => (r.add job).1
  | .removeFile file => (r.removeFile file).1
  | .clear => empty

/-- The registry after operations, from one without jobs. -/
def run (operations : List Operation) : JobRegistry :=
  operations.foldl perform empty

end JobRegistry

/-- The log after an operation. -/
def JobLog.perform (log : JobLog) : JobRegistry.Operation → JobLog
  | .add job => log.add job
  | .removeFile file => log.removeFile file
  | .clear => []

/-- The log after operations, from one without jobs. -/
def JobLog.run (operations : List JobRegistry.Operation) : JobLog :=
  operations.foldl JobLog.perform []

namespace JobRegistry

/-- A registry stays in step with its log under every operation. -/
theorem Represents.perform {r : JobRegistry} {log : JobLog} (hr : r.Represents log)
    (operation : Operation) :
  (r.perform operation).Represents (log.perform operation)
  := by
  cases operation with
  | add job => apply hr.add
  | removeFile file => apply hr.removeFile
  | clear => apply represents_empty

theorem Represents.foldl_perform {r : JobRegistry} {log : JobLog} (hr : r.Represents log)
    (operations : List Operation) :
  (operations.foldl JobRegistry.perform r).Represents (operations.foldl JobLog.perform log)
  := by
  induction operations generalizing r log with
  | nil => exact hr
  | cons operation operations ih => apply ih (hr.perform operation)

/-- A registry is in step with its log after any sequence of operations. -/
theorem run_represents (operations : List Operation) :
  (run operations).Represents (JobLog.run operations)
  := represents_empty.foldl_perform operations

/-- After any sequence of operations, whatever is asked of the registry is answered from the log of
the same operations. -/
theorem run_answersFrom_log (operations : List Operation) :
  (run operations).AnswersFrom (JobLog.run operations)
  := (run_represents operations).answersFrom

end JobRegistry

end JobIndex
