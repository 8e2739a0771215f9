import JobIndex.Proofs.Index.StateLog
import JobIndex.Proofs.Record.Locations
import JobIndex.Proofs.Workspace.FileTree
import JobIndex.Workspace.Indexer

/-!
# Full passes without a cache

A full pass never clears the index: it drops the files that are gone and replaces the records of all
others one by one. Still it leaves nothing of what came before. On the log of an index, putting the
outcomes of reading files

* takes out the records of these files, and
* puts behind what is left what the same outcomes make of the empty log (`IndexLog.putAll_eq`).

When a pass begins to put its outcomes nothing else is left in the index, so its log, and with it
all that the index holds, is that of a pass from an empty index. A file that has been found but
cannot be read (`Discovery.reads` leaves it out) is dropped, reported, and counted as failed.
-/

namespace JobIndex

/-! ### Reading files -/

theorem Document.ofBytes_standsIn (sealedTags : List String) (file : Path) (bytes : List UInt8) :
  (Document.ofBytes sealedTags file bytes).1.StandsIn file
  := by
  unfold Document.ofBytes
  split
  · next text _ =>
    obtain ⟨hjobs, htemplates⟩ := Document.parse_all sealedTags file text
    constructor
    · intro job hjob
      rw [(hjobs job hjob).1]
      apply BEq.rfl
    · intro t ht
      rw [(htemplates t ht).1]
      apply BEq.rfl
  · exact ⟨fun _ h => (nomatch h), fun _ h => (nomatch h)⟩

/-- What is loaded from the bytes of a file. -/
def Load.ofBytes (sealedTags : List String) (file : Path) (bytes : List UInt8) : Load :=
  let (document, reported) := Document.ofBytes sealedTags file bytes
  ⟨document, false, reported⟩

/-- Without a cache a file is loaded if its bytes can be read, and only then. -/
theorem loadFile_none_eq (sealedTags : List String) (t : FileTree) (file : Path) :
  loadFile sealedTags t none file
    = (t.contentOf file).map fun content => (Load.ofBytes sealedTags file content, none)
  := by
  rw [loadFile, FileTree.contentOf]
  cases t.find file with
  | error e => rfl
  | ok entry => cases entry <;> rfl

/-- Without a cache a file is read, or there is none to read. -/
theorem loadFile_none (sealedTags : List String) (t : FileTree) (file : Path) :
  (∃ load, loadFile sealedTags t none file = .ok (load, none) ∧ load.document.StandsIn file) ∨
  ∃ e, loadFile sealedTags t none file = .error e
  := by
  rw [loadFile_none_eq]
  cases t.contentOf file with
  | error e => exact Or.inr ⟨e, rfl⟩
  | ok content =>
      left
      refine ⟨_, rfl, ?_⟩
      apply Document.ofBytes_standsIn

/-- The outcome of reading a file without a cache. -/
def outcomeOf (sealedTags : List String) (t : FileTree) (file : Path) : Outcome :=
  (file, (loadFile sealedTags t none file).map Prod.fst)

theorem outcomeOf_eq (sealedTags : List String) (t : FileTree) (file : Path) :
  outcomeOf sealedTags t file = (file, (t.contentOf file).map (Load.ofBytes sealedTags file))
  := by
  rw [outcomeOf, loadFile_none_eq]
  cases t.contentOf file <;> rfl

@[simp]
theorem isOk_outcomeOf (sealedTags : List String) (t : FileTree) (file : Path) :
  (outcomeOf sealedTags t file).2.isOk = (t.contentOf file).isOk
  := by
  rw [outcomeOf_eq]
  cases t.contentOf file <;> rfl

theorem loadAll_none (sealedTags : List String) (t : FileTree) (files : List Path) :
  loadAll sealedTags t none files = (files.map (outcomeOf sealedTags t), none)
  := by
  induction files with
  | nil => rfl
  | cons file files ih =>
      rw [loadAll, List.map_cons, outcomeOf]
      obtain ⟨load, hload, -⟩ | ⟨e, he⟩ := loadFile_none sealedTags t file
      · simp only [hload, ih]
        rfl
      · simp only [he, ih]
        rfl

namespace Discovery

variable {d : Discovery} {t : FileTree} {p : Path}

theorem mem_search :
  p ∈ d.search t ↔ p ∈ d.walk t ∧ d.accepts p = true ∧ d.isSmall t p = true
  := by
  rw [search, Path.sort, List.mem_mergeSort, List.mem_filter, Bool.and_eq_true]

/-- Files that a search finds can be counted in the order of the walk. -/
theorem length_filter_search (d : Discovery) (t : FileTree) (keep : Path → Bool) :
  ((d.search t).filter keep).length
    = ((d.walk t).filter fun p => d.accepts p && d.isSmall t p && keep p).length
  := by
  rw [search, Path.sort, ((List.mergeSort_perm _ _).filter keep).length_eq, List.filter_filter]
  congr 2
  funext p
  apply Bool.and_comm

theorem search_eq_singleton (h : (((d.walk t).filter fun q => d.accepts q && d.isSmall t q).map
      Path.spelling == [p.spelling]) = true) :
  d.search t = [p]
  := by
  obtain ⟨found, heq, hfound⟩ := List.map_eq_singleton_iff.mp (eq_of_beq h)
  obtain rfl : found = p := by
    cases found
    cases hfound
    rfl
  rw [search, heq, Path.sort, List.mergeSort_singleton]

/-- What a search finds belongs to the index, and leads to a file that is not too large. -/
theorem of_mem_search (h : p ∈ d.search t) :
  d.accepts p = true ∧ ∃ e size, t.find p = .ok e ∧ e.size? = some size ∧ size ≤ d.maxFileSize
  := by
  obtain ⟨-, haccepts, hsmall⟩ := mem_search.mp h
  refine ⟨haccepts, ?_⟩
  rw [isSmall] at hsmall
  split at hsmall
  · next e hfind =>
    obtain ⟨size, hsize, hle⟩ := Option.any_eq_true _ _ |>.mp hsmall
    exact ⟨e, size, hfind, hsize, of_decide_eq_true hle⟩
  · cases hsmall

/-- Two spellings of one path are both read, or neither of them, if a search finds them. -/
theorem contentOf_eq_of_mem_search {q : Path} (hp : p ∈ d.search t) (hq : q ∈ d.search t)
    (hpq : (p == q) = true) :
  t.contentOf p = t.contentOf q
  := by
  obtain ⟨-, e, -, hfind, -⟩ := of_mem_search hp
  obtain ⟨-, e', -, hfind', -⟩ := of_mem_search hq
  have heq := FileTree.find_eq_of_parts (Path.beq_iff_parts.mp hpq) hfind hfind'
  rw [FileTree.contentOf_of_find hfind, FileTree.contentOf_of_find hfind', heq]

/-- What a search finds can be read if it can be read under another spelling. -/
theorem contentOf_of_mem_search {q : Path} {content : List UInt8} (hp : p ∈ d.search t)
    (hpq : (p == q) = true) (hq : t.contentOf q = .ok content) :
  t.contentOf p = .ok content
  := by
  obtain ⟨-, e, -, hfind, -⟩ := of_mem_search hp
  obtain ⟨modified, hfind'⟩ := FileTree.find_of_contentOf hq
  obtain rfl := FileTree.find_eq_of_parts (Path.beq_iff_parts.mp hpq) hfind hfind'
  apply FileTree.contentOf_of_find hfind

/-- The files that a search finds and that can be read. -/
def reads (d : Discovery) (t : FileTree) : List Path :=
  (d.search t).filter fun file => (t.contentOf file).isOk

theorem mem_reads :
  p ∈ d.reads t ↔ p ∈ d.search t ∧ ∃ content, t.contentOf p = .ok content
  := by
  rw [reads, List.mem_filter]
  apply and_congr_right
  intro _
  cases t.contentOf p <;> simp [Except.isOk, Except.toBool]

/-- Where all files can be read, they are all that a search finds. -/
theorem reads_eq_search (h : ∀ file ∈ d.search t, ∃ content, t.contentOf file = .ok content) :
  d.reads t = d.search t
  := by
  rw [reads, List.filter_eq_self]
  intro file hfile
  obtain ⟨content, hcontent⟩ := h file hfile
  rw [hcontent]
  rfl

end Discovery

/-! ### Outcomes on a log -/

namespace IndexLog

/-- The log after the outcomes of reading files have been put into it. -/
def putAll : IndexLog → List Outcome → IndexLog
  | log, [] => log
  | log, (file, .ok load) :: outcomes => (log.replaceFile file load.document).putAll outcomes
  | log, (file, .error _) :: outcomes => (log.removeFile file).putAll outcomes

/-- The log without the records of several files. -/
def removeFiles (log : IndexLog) (files : List Path) : IndexLog where
  jobs := log.jobs.filter fun job => !(files.any (· == job.file))
  templates := log.templates.filter fun t => !(files.any (· == t.file))

theorem append_assoc (log log' log'' : IndexLog) :
  log ++ log' ++ log'' = log ++ (log' ++ log'')
  := IndexLog.ext (List.append_assoc ..) (List.append_assoc ..)

theorem append_empty (log : IndexLog) :
  log ++ empty = log
  := IndexLog.ext (List.append_nil _) (List.append_nil _)

theorem empty_append (log : IndexLog) :
  empty ++ log = log
  := IndexLog.ext (List.nil_append _) (List.nil_append _)

theorem removeFiles_nil (log : IndexLog) :
  log.removeFiles [] = log
  := IndexLog.ext (List.filter_true _) (List.filter_true _)

theorem removeFiles_removeFile (log : IndexLog) (file : Path) (files : List Path) :
  (log.removeFile file).removeFiles files = log.removeFiles (file :: files)
  := by
  have hfilter : ∀ {α : Type} (fileOf : α → Path) (as : List α),
      (as.filter fun a => !(fileOf a == file)).filter (fun a => !(files.any (· == fileOf a)))
        = as.filter fun a => !((file :: files).any (· == fileOf a)) := by
    intro α fileOf as
    rw [List.filter_filter]
    apply List.filter_congr
    intro a _
    rw [List.any_cons, Bool.not_or, Bool.and_comm, BEq.comm]
  apply IndexLog.ext
  · apply hfilter Job.file
  · apply hfilter Template.file

theorem removeFiles_append (log : IndexLog) (d : Document) (files : List Path) :
  (log.append d).removeFiles files = log.removeFiles files ++ (empty.append d).removeFiles files
  := IndexLog.ext (List.filter_append ..) (List.filter_append ..)

/-- Of what was there, outcomes leave the records of other files; behind these stands what the
outcomes make of the empty log. -/
theorem putAll_eq (log : IndexLog) (outcomes : List Outcome) :
  log.putAll outcomes = log.removeFiles (outcomes.map Prod.fst) ++ empty.putAll outcomes
  := by
  induction outcomes generalizing log with
  | nil => rw [putAll, putAll, List.map_nil, removeFiles_nil, append_empty]
  | cons outcome outcomes ih =>
      obtain ⟨file, result⟩ := outcome
      cases result with
      | ok load =>
          -- a later outcome of the same file takes the new records out again, in both logs alike
          rw [putAll, putAll, ih, ih (empty.replaceFile file load.document)]
          rw [replaceFile, replaceFile, removeFiles_append, removeFiles_removeFile]
          rw [append_assoc, List.map_cons]
          rfl
      | error e =>
          rw [putAll, putAll, ih, ih (empty.removeFile file)]
          rw [removeFiles_removeFile, List.map_cons]
          rfl

/-- A log of which all files are read again does not matter. -/
theorem putAll_eq_of_allFiles {log : IndexLog} {outcomes : List Outcome}
    (h : log.AllFiles fun file => (outcomes.map Prod.fst).any (· == file) = true) :
  log.putAll outcomes = empty.putAll outcomes
  := by
  have hnone : log.removeFiles (outcomes.map Prod.fst) = empty := by
    apply IndexLog.ext
    · apply List.filter_eq_nil_iff.mpr
      intro job hjob
      rw [h.jobs job hjob]
      exact Bool.false_ne_true
    · apply List.filter_eq_nil_iff.mpr
      intro t ht
      rw [h.templates t ht]
      exact Bool.false_ne_true
  rw [putAll_eq, hnone, empty_append]

end IndexLog

/-! ### Outcomes in an index -/

namespace Indexer

/-- `x` has no cache and differs from `x₀` at most in its index, which represents a log. -/
structure Follows (x₀ x : Indexer) (log : IndexLog) : Prop where
  eq_with : x = { x₀ with state := x.state }
  cache_eq : x.cache? = none
  represents : x.state.Represents log

variable {x₀ x : Indexer} {log : IndexLog}

theorem Follows.discovery_eq (h : x₀.Follows x log) :
  x.discovery = x₀.discovery
  := by
  rw [h.eq_with]

theorem Follows.withState (h : x₀.Follows x log) {s : IndexState} {log' : IndexLog}
    (hs : s.Represents log') :
  x₀.Follows { x with state := s } log'
  where
  eq_with := by
    rw [h.eq_with]
  cache_eq := h.cache_eq
  represents := hs

theorem with_cache_none (hcache : x.cache? = none) :
  { x with cache? := none } = x
  := by
  rw [← hcache]

/-- Without a cache, dropping a file touches the index only. -/
theorem remove_eq (hcache : x.cache? = none) (file : Path) :
  x.remove file = { x with state := (x.state.clearFile file).1 }
  := by
  rw [remove, hcache]
  rfl

theorem Follows.remove (h : x₀.Follows x log) (file : Path) :
  x₀.Follows (x.remove file) (log.removeFile file)
  := by
  rw [remove_eq h.cache_eq]
  apply h.withState (h.represents.clearFile file)

theorem Follows.replace (h : x₀.Follows x log) {file : Path} {d : Document}
    (hd : d.StandsIn file) :
  x₀.Follows (x.replace file d).1 (log.replaceFile file d)
  := h.withState (h.represents.replaceFile hd)

/-- An index stays in step with its log when the outcomes of reading files are put into it. -/
theorem Follows.putAll (h : x₀.Follows x log) {outcomes : List Outcome}
    (houtcomes : ∀ file load, (file, .ok load) ∈ outcomes → load.document.StandsIn file) :
  x₀.Follows (x.putAll outcomes).1 (log.putAll outcomes)
  := by
  induction outcomes generalizing x log with
  | nil => exact h
  | cons outcome outcomes ih =>
      have hrest : ∀ file load, (file, .ok load) ∈ outcomes → load.document.StandsIn file :=
        fun file load hmem => houtcomes file load (List.mem_cons_of_mem _ hmem)
      obtain ⟨file, result⟩ := outcome
      cases result with
      | ok load => apply ih (h.replace (houtcomes file load List.mem_cons_self)) hrest
      | error e => apply ih (h.remove file) hrest

/-- What an index says of a file after an outcome has been put into it, by what it said before. -/
def statusAfter (file : Path) (before : Option FileStatus) (outcome : Outcome) :
    Option FileStatus :=
  if outcome.1 == file then if outcome.2.isOk then some .indexed else none else before

/-- Files that have been read are in the index, those that have not are dropped, and all others are
as they were. -/
theorem files_putAll (outcomes : List Outcome) (x : Indexer) (file : Path) :
  (x.putAll outcomes).1.state.files.get? file
    = outcomes.foldl (statusAfter file) (x.state.files.get? file)
  := by
  induction outcomes generalizing x with
  | nil => rfl
  | cons outcome outcomes ih =>
      obtain ⟨other, result⟩ := outcome
      rw [List.foldl_cons]
      cases result with
      | ok load =>
          apply (ih (x.replace other load.document).1).trans
          congr 1
          apply Table.get?_put
      | error e =>
          apply (ih (x.remove other)).trans
          congr 1
          apply Table.get?_erase

/-- Where all outcomes of a file are alike, it does not matter which of them is the last. -/
theorem foldl_statusAfter {outcomes : List Outcome} {file : Path} {isRead : Bool}
    (h : ∀ outcome ∈ outcomes, (outcome.1 == file) = true → outcome.2.isOk = isRead)
    (before : Option FileStatus) :
  outcomes.foldl (statusAfter file) before
    = if (outcomes.map Prod.fst).any (· == file) then if isRead then some .indexed else none
      else before
  := by
  induction outcomes generalizing before with
  | nil => rfl
  | cons outcome outcomes ih =>
      obtain ⟨hfirst, hrest⟩ := List.forall_mem_cons.mp h
      rw [List.foldl_cons, ih hrest, List.map_cons, List.any_cons, statusAfter]
      cases hfile : outcome.1 == file with
      | false => rfl
      | true =>
          rw [hfirst hfile]
          simp

/-! ### Dropping what is gone -/

theorem Follows.foldl_remove (h : x₀.Follows x log) (files : List Path) :
  x₀.Follows (files.foldl Indexer.remove x) (files.foldl IndexLog.removeFile log)
  := by
  induction files generalizing x log with
  | nil => exact h
  | cons file files ih => apply ih (h.remove file)

theorem files_foldl_remove (files : List Path) (x : Indexer) (file : Path) :
  (files.foldl remove x).state.files.get? file
    = if files.any (· == file) then none else x.state.files.get? file
  := by
  induction files generalizing x with
  | nil => rfl
  | cons other files ih =>
      apply (ih (x.remove other)).trans
      rw [List.any_cons]
      cases hany : files.any (· == file) with
      | true => rw [if_pos rfl, Bool.or_true, if_pos rfl]
      | false =>
          rw [if_neg Bool.false_ne_true, Bool.or_false]
          apply Table.get?_erase

/-- Files in the index are stale when they have not been found. -/
theorem any_stale (x : Indexer) (found : List Path) (file : Path) :
  (x.stale found).any (· == file) = (x.state.isTracked file && !(found.any (· == file)))
  := by
  have hgone : ∀ other : Path, (!(found.any (· == other)) && other == file)
      = (other == file && !(found.any (· == file))) := by
    intro other
    cases hother : other == file with
    | false => rw [Bool.and_false, Bool.false_and]
    | true =>
        have hfound : found.any (· == other) = found.any (· == file) := by
          congr 1
          funext q
          apply BEq.congr_right hother
        rw [hfound, Bool.and_true, Bool.true_and]
  rw [stale, List.any_filter, ← IndexState.any_tracked]
  simp only [hgone]
  cases found.any (· == file) with
  | false => simp
  | true => simp

/-- Only files that have been found are left in the index. -/
theorem files_prune (x : Indexer) (found : List Path) (file : Path) :
  (x.prune found).state.files.get? file
    = if found.any (· == file) then x.state.files.get? file else none
  := by
  apply (files_foldl_remove (x.stale found) x file).trans
  rw [any_stale]
  cases found.any (· == file) with
  | true => rw [Bool.not_true, Bool.and_false, if_neg Bool.false_ne_true, if_pos rfl]
  | false =>
      rw [Bool.not_false, Bool.and_true, if_neg Bool.false_ne_true, IndexState.isTracked,
        Table.has_eq_isSome]
      cases x.state.files.get? file <;> rfl

/-- After files that are gone have been dropped, all records stand in files that have been found. -/
theorem Follows.prune (h : x₀.Follows x log) (found : List Path) :
  ∃ log', x₀.Follows (x.prune found) log' ∧
    log'.AllFiles fun file => found.any (· == file) = true
  := by
  have hfold := h.foldl_remove (x.stale found)
  have hprune : x₀.Follows (x.prune found) ((x.stale found).foldl IndexLog.removeFile log) := by
    rw [Indexer.prune, hfold.cache_eq, Option.map_none, with_cache_none hfold.cache_eq]
    exact hfold
  refine ⟨_, hprune, ?_⟩
  apply hprune.represents.tracked.imp
  intro file htracked
  rw [IndexState.isTracked, Table.has_eq_isSome, files_prune] at htracked
  split at htracked
  · next hfound => exact hfound
  · cases htracked

/-! ### A full pass -/

/-- The outcomes of reading all files that a search finds. -/
def outcomes (x : Indexer) (t : FileTree) : List Outcome :=
  (x.discovery.search t).map (outcomeOf x.config.sealedTags t)

theorem map_fst_outcomes (x : Indexer) (t : FileTree) :
  (x.outcomes t).map Prod.fst = x.discovery.search t
  := by
  rw [outcomes, List.map_map]
  apply List.map_id

theorem standsIn_of_mem_outcomes {t : FileTree} {file : Path} {load : Load}
    (h : (file, .ok load) ∈ x.outcomes t) :
  load.document.StandsIn file
  := by
  obtain ⟨other, -, heq⟩ := List.mem_map.mp h
  obtain ⟨rfl, hload⟩ := Prod.mk.inj heq
  obtain ⟨load', hload', hstands⟩ | ⟨e, he⟩ := loadFile_none x.config.sealedTags t other
  · rw [hload'] at hload
    obtain rfl := Except.ok.inj hload
    exact hstands
  · rw [he] at hload
    cases hload

/-- Without a cache, a full pass drops what is gone and puts the outcomes of all files found. -/
theorem indexAll_eq (hcache : x.cache? = none) (t : FileTree) :
  x.indexAll t =
    let y := ((x.prune (x.discovery.search t)).putAll (x.outcomes t)).1
    let z := { y with state := y.state.markIndexed }
    (z, (z.saveCache t).1,
      outcomesReported (x.outcomes t) ++ ((x.prune (x.discovery.search t)).putAll (x.outcomes t)).2,
      { totalFiles := (x.discovery.search t).length
        parsedFiles := countLoads false (x.outcomes t)
        cachedFiles := countLoads true (x.outcomes t)
        failedFiles := countFailures (x.outcomes t)
        removedFiles := (x.stale (x.discovery.search t)).length })
  := by
  rw [indexAll, hcache, loadAll_none]
  simp only [with_cache_none hcache]
  rfl

/-- The log of a full pass from an empty index. -/
def passLog (x : Indexer) (t : FileTree) : IndexLog :=
  IndexLog.empty.putAll (x.outcomes t)

/-- Whatever an index held, after a full pass it represents the log of a pass from an empty one. -/
theorem Follows.indexAll (h : x₀.Follows x log) (t : FileTree) :
  x₀.Follows (x.indexAll t).1 (x₀.passLog t)
  := by
  have houtcomes : x.outcomes t = x₀.outcomes t := by
    rw [h.eq_with]
    rfl
  obtain ⟨log', hprune, hfiles⟩ := h.prune (x.discovery.search t)
  rw [← map_fst_outcomes] at hfiles
  have hput : x₀.Follows ((x.prune (x.discovery.search t)).putAll (x.outcomes t)).1
      (log'.putAll (x.outcomes t)) := by
    apply hprune.putAll
    exact fun file load => standsIn_of_mem_outcomes
  rw [IndexLog.putAll_eq_of_allFiles hfiles, houtcomes] at hput
  rw [indexAll_eq h.cache_eq, houtcomes]
  apply hput.withState hput.represents.markIndexed

/-- Equal paths that a search finds have outcomes alike. -/
theorem isOk_of_mem_outcomes {t : FileTree} {file : Path} {outcome : Outcome}
    (houtcome : outcome ∈ x.outcomes t) (hfile : (outcome.1 == file) = true) :
  outcome.2.isOk = (x.discovery.reads t).any (· == file)
  := by
  obtain ⟨p, hp, rfl⟩ := List.mem_map.mp houtcome
  rw [isOk_outcomeOf, Bool.eq_iff_iff]
  constructor
  · intro hread
    apply List.any_eq_true.mpr
    exact ⟨p, List.mem_filter.mpr ⟨hp, hread⟩, hfile⟩
  · intro hany
    obtain ⟨q, hq, hqfile⟩ := List.any_eq_true.mp hany
    obtain ⟨hfound, hread⟩ := List.mem_filter.mp hq
    have hpq : (p == q) = true := BEq.trans hfile (BEq.symm hqfile)
    rwa [Discovery.contentOf_eq_of_mem_search hp hfound hpq]

/-- After a full pass the index has the files that were found and could be read. -/
theorem Follows.files_indexAll (h : x₀.Follows x log) (t : FileTree) (file : Path) :
  (x.indexAll t).1.state.files.get? file
    = if (x₀.discovery.reads t).any (· == file) then some .indexed else none
  := by
  rw [indexAll_eq h.cache_eq, ← h.discovery_eq]
  apply (files_putAll _ _ file).trans
  rw [foldl_statusAfter fun _ => isOk_of_mem_outcomes, map_fst_outcomes, files_prune]
  cases hfound : (x.discovery.search t).any (· == file) with
  | true => rfl
  | false =>
      have hread : (x.discovery.reads t).any (· == file) = false := by
        rw [List.any_eq_false] at hfound ⊢
        exact fun q hq => hfound q (List.mem_of_mem_filter hq)
      rw [hread]
      rfl

/-- Full passes from any two indexes lead to the same contents. -/
theorem Follows.sameContents_indexAll {y : Indexer} {log' : IndexLog} (h : x₀.Follows x log)
    (h' : x₀.Follows y log') (t : FileTree) :
  (x.indexAll t).1.state.SameContents (y.indexAll t).1.state
  := by
  apply (h.indexAll t).represents.sameContents (h'.indexAll t).represents
  intro file
  rw [h.files_indexAll, h'.files_indexAll]

/-- After a full pass the files in the index are those that have been found and read. -/
theorem Follows.isTracked_indexAll (h : x₀.Follows x log) (t : FileTree) (file : Path) :
  (x.indexAll t).1.state.isTracked file = true ↔
    ∃ q ∈ x₀.discovery.search t, (q == file) = true ∧ ∃ content, t.contentOf q = .ok content
  := by
  have hreads : (x₀.discovery.reads t).any (· == file) = true ↔
      ∃ q ∈ x₀.discovery.search t, (q == file) = true ∧ ∃ content, t.contentOf q = .ok content := by
    simp only [List.any_eq_true, Discovery.mem_reads]
    constructor
    · rintro ⟨q, ⟨hq, hread⟩, hfile⟩
      exact ⟨q, hq, hfile, hread⟩
    · rintro ⟨q, hq, hfile, hread⟩
      exact ⟨q, ⟨hq, hread⟩, hfile⟩
  rw [← hreads, IndexState.isTracked, Table.has_eq_isSome, h.files_indexAll]
  cases (x₀.discovery.reads t).any (· == file) <;> simp

/-! ### Runs -/

/-- Something that happens to an index, with the files there are at that time. -/
inductive Event where
  | indexAll (t : FileTree)
  | rebuild (t : FileTree)
  | change (t : FileTree) (file : Path) (kind : ChangeKind)
  | pathChange (t : FileTree) (path : Path)

/-- The indexer after an event. -/
def perform (x : Indexer) : Event → Indexer
  | .indexAll t => (x.indexAll t).1
  | .rebuild t => (x.rebuild t).1
  | .change t file kind => (x.apply t file kind).1
  | .pathChange t path => (x.pathChanged t path).1

/-- The indexer after events. -/
def run (x : Indexer) (events : List Event) : Indexer :=
  events.foldl perform x

theorem Follows.put (h : x₀.Follows x log) {file : Path} {load : Load}
    (hload : load.document.StandsIn file) :
  x₀.Follows (x.put file load none).1 (log.replaceFile file load.document)
  := by
  rw [Indexer.put, with_cache_none h.cache_eq]
  apply h.replace hload

theorem Follows.fileCreated (h : x₀.Follows x log) (t : FileTree) (file : Path) :
  ∃ log', x₀.Follows (x.fileCreated t file).1 log'
  := by
  unfold Indexer.fileCreated
  rw [h.cache_eq]
  obtain ⟨load, hload, hstands⟩ | ⟨e, he⟩ := loadFile_none x.config.sealedTags t file
  · rw [hload]
    exact ⟨_, h.put hstands⟩
  · rw [he]
    use log
    cases e <;> exact h

theorem Follows.fileChanged (h : x₀.Follows x log) (t : FileTree) (file : Path) :
  ∃ log', x₀.Follows (x.fileChanged t file).1 log'
  := by
  have hmarked := h.withState (h.represents.beginReindex file)
  have hload : loadFile x.config.sealedTags t x.cache? file
      = loadFile x.config.sealedTags t none file := by
    rw [h.cache_eq]
  unfold Indexer.fileChanged
  dsimp only
  rw [hload]
  obtain ⟨load, hok, hstands⟩ | ⟨e, he⟩ := loadFile_none x.config.sealedTags t file
  · rw [hok]
    exact ⟨_, hmarked.put hstands⟩
  · rw [he]
    use log.removeFile file
    cases e <;> exact hmarked.remove file

theorem Follows.apply (h : x₀.Follows x log) (t : FileTree) (file : Path) (kind : ChangeKind) :
  ∃ log', x₀.Follows (x.apply t file kind).1 log'
  := by
  cases kind with
  | created => apply h.fileCreated
  | modified => apply h.fileChanged
  | deleted => exact ⟨_, h.remove file⟩

theorem Follows.rebuild (h : x₀.Follows x log) (t : FileTree) :
  x₀.Follows (x.rebuild t).1 (x₀.passLog t)
  := by
  have hempty := h.withState IndexState.represents_empty
  rw [Indexer.rebuild, h.cache_eq, Option.map_none]
  rw [← with_cache_none hempty.cache_eq] at hempty
  apply hempty.indexAll

/-- Every event keeps an index in step with some log. -/
theorem Follows.perform (h : x₀.Follows x log) (event : Event) :
  ∃ log', x₀.Follows (x.perform event) log'
  := by
  cases event with
  | indexAll t => exact ⟨_, h.indexAll t⟩
  | rebuild t => exact ⟨_, h.rebuild t⟩
  | change t file kind => apply h.apply
  | pathChange t path =>
      rw [Indexer.perform, pathChanged]
      cases x.changeKind? t path with
      | none => exact ⟨log, h⟩
      | some kind => apply h.apply

/-- After any events an index is in step with some log. -/
theorem Follows.run (h : x₀.Follows x log) (events : List Event) :
  ∃ log', x₀.Follows (x.run events) log'
  := by
  induction events generalizing x log with
  | nil => exact ⟨log, h⟩
  | cons event events ih =>
      obtain ⟨log', h'⟩ := h.perform event
      apply ih h'

/-! ### What a full pass leaves -/

/-- Each outcome is counted once. -/
theorem countLoads_add (outcomes : List Outcome) :
  countLoads false outcomes + countLoads true outcomes + countFailures outcomes = outcomes.length
  := by
  induction outcomes with
  | nil => rfl
  | cons outcome outcomes ih =>
      obtain ⟨file, result⟩ := outcome
      cases result with
      | error e =>
          have hfailures : countFailures ((file, .error e) :: outcomes)
              = countFailures outcomes + 1 := rfl
          have hloads : ∀ fromCache, countLoads fromCache ((file, .error e) :: outcomes)
              = countLoads fromCache outcomes := fun _ => rfl
          rw [hfailures, hloads, hloads, ← Nat.add_assoc, ih, List.length_cons]
      | ok load =>
          have hfailures : countFailures ((file, .ok load) :: outcomes)
              = countFailures outcomes := rfl
          have hloads : ∀ fromCache, countLoads fromCache ((file, .ok load) :: outcomes)
              = countLoads fromCache outcomes + if load.fromCache == fromCache then 1 else 0 := by
            intro fromCache
            rw [countLoads, List.filter_cons]
            dsimp only
            split <;> rfl
          have hone : (if load.fromCache == false then 1 else 0)
              + (if load.fromCache == true then 1 else 0) = 1 := by
            cases load.fromCache <;> rfl
          rw [hfailures, hloads, hloads, List.length_cons, ← ih]
          omega

/-- Without a cache, files count as read if their bytes can be read, and else as failed. -/
theorem counts_outcomes (x : Indexer) (t : FileTree) :
  countLoads false (x.outcomes t) = (x.discovery.reads t).length ∧
    countLoads true (x.outcomes t) = 0 ∧
    countFailures (x.outcomes t)
      = ((x.discovery.search t).filter fun q => !(t.contentOf q).isOk).length
  := by
  have hloads : ∀ fromCache, countLoads fromCache (x.outcomes t)
      = ((x.discovery.search t).filter fun q => (t.contentOf q).isOk && !fromCache).length := by
    intro fromCache
    rw [countLoads, outcomes, List.filter_map, List.length_map]
    congr 2
    funext q
    rw [Function.comp_apply, outcomeOf_eq]
    cases t.contentOf q <;> cases fromCache <;> rfl
  refine ⟨?_, ?_, ?_⟩
  · simp [hloads, Discovery.reads]
  · simp [hloads]
  · rw [countFailures, outcomes, List.filter_map, List.length_map]
    congr 2
    funext q
    apply congrArg not (isOk_outcomeOf x.config.sealedTags t q)

/-- What could not be read is reported. -/
theorem mem_reported_putAll {outcomes : List Outcome} {file : Path} {e : IoError}
    (h : (file, .error e) ∈ outcomes) (x : Indexer) :
  .unreadableFile file e.message ∈ (x.putAll outcomes).2
  := by
  induction outcomes generalizing x with
  | nil => cases h
  | cons outcome outcomes ih =>
      obtain ⟨other, result⟩ := outcome
      rw [List.mem_cons] at h
      cases result with
      | ok load =>
          obtain h | h := h
          · cases h
          · apply List.mem_append_right _ (ih h _)
      | error e' =>
          obtain h | h := h
          · cases h
            apply List.mem_cons_self
          · apply List.mem_cons_of_mem _ (ih h _)

/-- The files that a pass drops, each once. -/
theorem pairwise_stale {log : IndexLog} (hx : x.state.Represents log) (found : List Path) :
  (x.stale found).Pairwise fun p q => (p == q) = false
  := by
  apply List.Pairwise.filter
  rw [IndexState.tracked, Path.sort, (List.mergeSort_perm _ _).pairwise_iff]
  · exact hx.distinct
  · intro p q h
    rwa [BEq.comm]

/-- A full pass over the files `t` makes of the index of `x` what it makes of the index of `fresh`,
and says what it did. -/
structure PassesAs (x fresh : Indexer) (t : FileTree) : Prop where
  /-- The index then holds the same. -/
  same : (x.indexAll t).1.state.SameContents (fresh.indexAll t).1.state
  /-- The files are left as they are, -/
  files_kept : (x.indexAll t).2.1 = t
  /-- and another pass over them changes nothing. -/
  again : ((x.indexAll t).1.indexAll t).1.state.SameContents (x.indexAll t).1.state
  /-- The files in the index are those that have been found and could be read. -/
  tracked : ∀ file, (x.indexAll t).1.state.isTracked file = true ↔
    ∃ q ∈ fresh.discovery.search t, (q == file) = true ∧ ∃ content, t.contentOf q = .ok content
  /-- Each file that has been found counts once, -/
  total : (x.indexAll t).2.2.2.totalFiles = (fresh.discovery.search t).length
  total_eq : (x.indexAll t).2.2.2.totalFiles = (x.indexAll t).2.2.2.parsedFiles
    + (x.indexAll t).2.2.2.cachedFiles + (x.indexAll t).2.2.2.failedFiles
  /-- as one that has been read -/
  parsed : (x.indexAll t).2.2.2.parsedFiles = (fresh.discovery.reads t).length
  cached : (x.indexAll t).2.2.2.cachedFiles = 0
  /-- or as one that could not be, -/
  failed : (x.indexAll t).2.2.2.failedFiles
    = ((fresh.discovery.search t).filter fun q => !(t.contentOf q).isOk).length
  /-- which is reported. -/
  reported : ∀ q ∈ fresh.discovery.search t, ∀ e, t.contentOf q = .error e →
    .unreadableFile q e.message ∈ (x.indexAll t).2.2.1
  /-- The files that count as removed were in the index and have not been found. -/
  removed : ∃ gone : List Path, gone.Pairwise (fun p q => (p == q) = false) ∧
    (∀ file, gone.any (· == file) = true ↔
      x.state.isTracked file = true ∧ ¬ ∃ q ∈ fresh.discovery.search t, (q == file) = true) ∧
    (x.indexAll t).2.2.2.removedFiles = gone.length

theorem ofConfig_uncached {root : Path} {config : IndexConfig} {discovery : Discovery}
    (hcache : config.useCache = false) (h : Discovery.ofConfig root config = .ok discovery)
    (t : FileTree) :
  ofConfig t root config = .ok (⟨root, config, discovery, none, .empty⟩, [])
  := by
  simp only [ofConfig, h, hcache, Bool.false_eq_true, if_false]

/-- A new indexer without a cache has an empty index, whatever files there are. -/
theorem ofConfig_follows {t : FileTree} {root : Path} {config : IndexConfig}
    {reported : List Diagnostic} (hcache : config.useCache = false)
    (h : ofConfig t root config = .ok (x, reported)) :
  x.Follows x IndexLog.empty ∧ ∀ t', ofConfig t' root config = .ok (x, reported)
  := by
  cases hdiscovery : Discovery.ofConfig root config with
  | error e =>
      rw [ofConfig, hdiscovery] at h
      cases h
  | ok discovery =>
      have hof := ofConfig_uncached hcache hdiscovery
      rw [hof t] at h
      obtain ⟨rfl, rfl⟩ := Prod.mk.inj (Except.ok.inj h)
      exact ⟨⟨rfl, rfl, IndexState.represents_empty⟩, hof⟩

/-- Whatever an index held, a full pass makes of it what it makes of an empty one. -/
theorem Follows.passesAs (h : x₀.Follows x log) (h₀ : x₀.Follows x₀ IndexLog.empty)
    (t : FileTree) :
  x.PassesAs x₀ t
  := by
  have hpass := h.indexAll t
  obtain ⟨hparsed, hcached, hfailed⟩ := x.counts_outcomes t
  rw [h.discovery_eq] at hparsed hfailed
  constructor
  · apply h.sameContents_indexAll h₀
  · show ((x.indexAll t).1.saveCache t).1 = t
    rw [saveCache, hpass.cache_eq]
  · apply hpass.sameContents_indexAll h
  · apply h.isTracked_indexAll
  · rw [indexAll_eq h.cache_eq, h.discovery_eq]
  · rw [indexAll_eq h.cache_eq]
    dsimp only
    rw [countLoads_add, outcomes, List.length_map]
  · rw [indexAll_eq h.cache_eq, ← hparsed]
  · rw [indexAll_eq h.cache_eq, ← hcached]
  · rw [indexAll_eq h.cache_eq, ← hfailed]
  · intro q hq e hcontent
    rw [indexAll_eq h.cache_eq]
    apply List.mem_append_right
    apply mem_reported_putAll
    rw [← h.discovery_eq] at hq
    apply List.mem_map.mpr
    use q, hq
    rw [outcomeOf_eq, hcontent]
    rfl
  · use x.stale (x.discovery.search t)
    refine ⟨pairwise_stale h.represents _, ?_, ?_⟩
    · intro file
      rw [any_stale, h.discovery_eq, Bool.and_eq_true, Bool.not_eq_true', ← Bool.not_eq_true,
        List.any_eq_true]
    · rw [indexAll_eq h.cache_eq]

/-- Without a cache, whatever has happened to an index, a full pass leads to what a new indexer gets
from a full pass over the same files. -/
theorem run_passesAs_fresh {t₀ t : FileTree} {root : Path} {config : IndexConfig}
    {start fresh : Indexer} {reported reported' : List Diagnostic}
    (hcache : config.useCache = false) (hstart : ofConfig t₀ root config = .ok (start, reported))
    (hfresh : ofConfig t root config = .ok (fresh, reported')) (events : List Event) :
  (start.run events).PassesAs fresh t
  := by
  obtain ⟨hfollows, hsame⟩ := ofConfig_follows hcache hstart
  have heq : start = fresh := by
    rw [hsame t] at hfresh
    exact (Prod.mk.inj (Except.ok.inj hfresh)).1
  obtain ⟨log, hrun⟩ := hfollows.run events
  rw [← heq]
  apply hrun.passesAs hfollows

/-- Two files define one job, and reading the first of them again has put its definition last. A third
file cannot be read. -/
theorem run_passesAs_fresh_moved :
  let unit : FileNode := .file "- job:\n    name: unit\n".toUTF8.toList ⟨0⟩
  let locked : FileNode := .unreadable 22 ⟨0⟩ .permissionDenied
  let ws : FileNode := .directory
    [(".zuul.yaml", unit), ("zuul.d", .directory [("a.yaml", locked)]), ("zuul.yaml", unit)]
  let t : FileTree := ⟨.directory [("ws", ws)], [], ⟨0⟩, none⟩
  let config : IndexConfig := { IndexConfig.default with useCache := false }
  let events : List Event := [.indexAll t, .change t ⟨"/ws/.zuul.yaml"⟩ .modified]
  ∃ x reported, ofConfig t ⟨"/ws"⟩ config = .ok (x, reported) ∧ (x.run events).PassesAs x t ∧
    ((x.run events).indexAll t).2.2.2.totalFiles = 3 ∧
    ((x.run events).indexAll t).2.2.2.parsedFiles = 2 ∧
    ((x.run events).indexAll t).2.2.2.failedFiles = 1
  := by
  intro unit locked ws t config events
  have hchecked : ((Discovery.ofConfig ⟨"/ws"⟩ config).toOption.any fun d =>
      ((d.walk t).filter fun p => d.accepts p && d.isSmall t p && true).length == 3
        && ((d.walk t).filter fun p => d.accepts p && d.isSmall t p && (t.contentOf p).isOk).length
          == 2) = true := by
    decide +kernel
  obtain ⟨d, hdiscovery, hchecked⟩ := exists_ok_of_any hchecked
  simp only [← Discovery.length_filter_search,
    List.filter_true, Bool.and_eq_true, beq_iff_eq] at hchecked
  obtain ⟨htotal, hparsed⟩ := hchecked
  have hstart := ofConfig_uncached rfl hdiscovery t
  have hpasses := run_passesAs_fresh rfl hstart hstart events
  have hread := hpasses.parsed.trans hparsed
  have hfound := hpasses.total.trans htotal
  have hsum := hpasses.total_eq
  rw [hfound, hread, hpasses.cached] at hsum
  refine ⟨_, _, hstart, hpasses, hfound, hread, ?_⟩
  omega

end Indexer

end JobIndex
