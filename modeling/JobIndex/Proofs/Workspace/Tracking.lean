import JobIndex.Proofs.Cache.Recall
import JobIndex.Proofs.Index.References
import JobIndex.Proofs.Workspace.FullPass

/-!
# Records and files stay in step

Whatever happens to a workspace, the index holds records of the files it has and of no others, and
for each of them those of the last time that the file could be read.

* What is read from a file stands in that file, also if it comes from a cache, as long as nobody
  else has filled the cache (`ParseCache.Sound`).
* Replacing and removing the records of a file keep an index that holds for each file what was read
  from it last (`IndexState.HoldsLast`); a file that could not be read, be it gone or there, is
  removed, or nothing happens.
* So every event keeps an indexer in this state (`Indexer.Keeps.perform`), and with it every indexer
  that can be reached from new ones (`Indexer.Reached`).
-/

namespace JobIndex

/-! ### Caches that nobody else has filled -/

theorem Document.StandsIn.congr {d : Document} {file other : Path} (h : d.StandsIn file)
    (hother : (file == other) = true) :
  d.StandsIn other
  where
  jobs job hjob := BEq.trans (h.jobs job hjob) hother
  templates t ht := BEq.trans (h.templates t ht) hother

namespace ParseCache

/-- Each path has at most one entry, with records that stand in its file. -/
structure Sound (c : ParseCache) : Prop where
  distinct : c.entries.Distinct
  standsIn : ∀ path e, c.entries.get? path = some e → e.document.StandsIn path

theorem sound_empty :
  empty.Sound
  := ⟨Table.distinct_nil, fun _ _ h => (nomatch h)⟩

variable {c d : ParseCache}

theorem Sound.store (hc : c.Sound) {file : Path} {document : Document}
    (hstands : document.StandsIn file) (modified : Int64) :
  (c.store file modified document).Sound
  := by
  refine ⟨hc.distinct.put _ _, ?_⟩
  intro path e he
  rw [ParseCache.store, Table.get?_put] at he
  split at he
  · next hpath =>
    obtain rfl := Option.some.inj he
    apply hstands.congr hpath
  · apply hc.standsIn path e he

/-- Of what a lookup gives, all stands in the file. -/
theorem Sound.standsIn_of_lookup (hc : c.Sound) {file : Path} {modified : Int64} {d : Document}
    (h : c.lookup file modified = some d) :
  d.StandsIn file
  := by
  rw [lookup] at h
  split at h
  · cases h
  · next e hget =>
    split at h
    · cases h
    · cases h
      apply hc.standsIn file e hget

theorem Sound.of_mem (hc : c.Sound) (hd : d.entries.Distinct) (h : ∀ e ∈ d.entries, e ∈ c.entries) :
  d.Sound
  where
  distinct := hd
  standsIn path e he := hc.standsIn path e (hc.distinct.get?_of_subset hd h he)

theorem Sound.invalidate (hc : c.Sound) (file : Path) :
  (c.invalidate file).Sound
  := hc.of_mem (hc.distinct.erase file) fun _ => List.mem_of_mem_filter

theorem Sound.retain (hc : c.Sound) (keep : Path → Bool) :
  (c.retain keep).Sound
  := by
  apply hc.of_mem
  · apply List.Pairwise.sublist _ hc.distinct
    apply List.filter_sublist.map
  · exact fun e => List.mem_of_mem_filter

/-- What is loaded after a sound cache has been stored is sound. -/
theorem Sound.load (hc : c.Sound) (hfits : ∀ e ∈ c.entries, e.2.document.Fits)
    (hsize : c.toBytes.length < 2 ^ 64) {t : FileTree} {dir : Path}
    (hstored : t.contentOf (filePath dir) = .ok c.toBytes) :
  (ParseCache.load t dir).1.Sound
  := by
  rw [ParseCache.load, hstored]
  dsimp only
  rw [ofBytes_toBytes hc.distinct hfits hsize]
  apply hc.of_mem (distinct_sorted hc.distinct)
  exact fun e => c.sorted_perm.mem_iff.mp

/-- Where nothing of use is stored, an empty cache is loaded. -/
theorem load_eq_empty {t : FileTree} {dir : Path}
    (h : ∀ bytes c, t.contentOf (filePath dir) = .ok bytes → ofBytes bytes ≠ .ok c) :
  (load t dir).1 = empty
  := by
  unfold load
  dsimp only
  split
  · rfl
  · rfl
  · next bytes hbytes =>
    split
    · next c hc => exact absurd hc (h bytes c hbytes)
    · rfl

end ParseCache

/-! ### Reading with such a cache -/

section

variable {sealedTags : List String} {t : FileTree} {cache? : Option ParseCache}

/-- What is read from a file stands there, and the cache stays sound. -/
theorem loadFile_sound (hcache : ∀ c ∈ cache?, c.Sound) {file : Path} {load : Load}
    {cache'? : Option ParseCache} (h : loadFile sealedTags t cache? file = .ok (load, cache'?)) :
  load.document.StandsIn file ∧ ∀ c ∈ cache'?, c.Sound
  := by
  unfold loadFile at h
  split at h
  · cases h
  · split at h
    · next document hcached =>
      cases h
      obtain ⟨c, hc, hlookup⟩ := Option.bind_eq_some_iff.mp hcached
      exact ⟨(hcache c hc).standsIn_of_lookup hlookup, hcache⟩
    · split at h
      · cases h
      · next content _ =>
        cases h
        have hstands := Document.ofBytes_standsIn sealedTags file content
        refine ⟨hstands, ?_⟩
        intro c' hc'
        obtain ⟨c, hc, rfl⟩ := Option.map_eq_some_iff.mp hc'
        apply (hcache c hc).store hstands

theorem loadAll_sound (sealedTags : List String) (t : FileTree) (hcache : ∀ c ∈ cache?, c.Sound)
    (files : List Path) :
  (∀ file load, (file, .ok load) ∈ (loadAll sealedTags t cache? files).1 →
    load.document.StandsIn file) ∧
  ∀ c ∈ (loadAll sealedTags t cache? files).2, c.Sound
  := by
  induction files generalizing cache? with
  | nil => exact ⟨fun _ _ h => (nomatch h), hcache⟩
  | cons first files ih =>
      rw [loadAll]
      cases hload : loadFile sealedTags t cache? first with
      | error e =>
          obtain ⟨hstands, hsound⟩ := ih hcache
          refine ⟨?_, hsound⟩
          intro file load hmem
          obtain heq | hmem := List.mem_cons.mp hmem
          · cases heq
          · apply hstands file load hmem
      | ok loaded =>
          obtain ⟨hfirst, hnext⟩ := loadFile_sound hcache hload
          obtain ⟨hstands, hsound⟩ := ih hnext
          refine ⟨?_, hsound⟩
          intro file load hmem
          obtain heq | hmem := List.mem_cons.mp hmem
          · cases heq
            exact hfirst
          · apply hstands file load hmem

end

/-! ### What was read last -/

/-- What was read the last time that a file could be read. -/
def lastLoad? (loads : List Outcome) (file : Path) : Option Load :=
  (loads.filterMap fun outcome =>
    if outcome.1 == file then outcome.2.toOption else none).getLast?

theorem lastLoad?_append (loads loads' : List Outcome) (file : Path) :
  lastLoad? (loads ++ loads') file = (lastLoad? loads' file).or (lastLoad? loads file)
  := by
  rw [lastLoad?, List.filterMap_append, List.getLast?_append]
  rfl

theorem lastLoad?_append_ok (loads : List Outcome) (other : Path) (load : Load) (file : Path) :
  lastLoad? (loads ++ [(other, .ok load)]) file
    = if other == file then some load else lastLoad? loads file
  := by
  rw [lastLoad?_append, lastLoad?]
  cases hother : other == file <;> simp [hother, Except.toOption]

theorem lastLoad?_append_error (loads : List Outcome) (other : Path) (e : IoError) (file : Path) :
  lastLoad? (loads ++ [(other, .error e)]) file = lastLoad? loads file
  := by
  rw [lastLoad?_append, lastLoad?]
  simp [Except.toOption]

theorem lastLoad?_congr (loads : List Outcome) {file other : Path} (h : (file == other) = true) :
  lastLoad? loads file = lastLoad? loads other
  := by
  rw [lastLoad?, lastLoad?]
  congr 2
  funext outcome
  rw [BEq.congr_right h]

theorem mem_of_lastLoad? {loads : List Outcome} {file : Path} {load : Load}
    (h : lastLoad? loads file = some load) :
  ∃ q, (q == file) = true ∧ (q, .ok load) ∈ loads
  := by
  obtain ⟨⟨q, result⟩, hmem, heq⟩ := List.mem_filterMap.mp (List.mem_of_getLast? h)
  split at heq
  · next hq =>
    cases result with
    | error e => cases heq
    | ok load' =>
        cases heq
        exact ⟨q, hq, hmem⟩
  · cases heq

theorem lastLoad?_isSome {loads : List Outcome} {file q : Path} {load : Load}
    (hq : (q == file) = true) (hmem : (q, .ok load) ∈ loads) :
  (lastLoad? loads file).isSome = true
  := by
  rw [lastLoad?, List.getLast?_isSome]
  apply List.ne_nil_of_mem (a := load)
  apply List.mem_filterMap.mpr
  use (q, .ok load), hmem
  rw [if_pos hq]
  rfl

/-- The jobs of a name have names. -/
theorem JobLog.definitions_filter_accepts (jobs : List Job) (name : String) :
  JobLog.definitions (jobs.filter JobRegistry.accepts) name
    = jobs.filter fun job => job.name? == some name
  := by
  rw [JobLog.definitions, List.filter_filter]
  apply List.filter_congr
  intro job _
  rw [JobRegistry.accepts]
  cases job.name? with
  | none => rfl
  | some n => rw [Option.isSome_some, Bool.and_true]

namespace IndexState

/-- No file is about to be read again. -/
def AllIndexed (s : IndexState) : Prop :=
  ∀ file status, s.files.get? file = some status → status = .indexed

theorem AllIndexed.clearFile {s : IndexState} (h : s.AllIndexed) (file : Path) :
  (s.clearFile file).1.AllIndexed
  := by
  intro other status hget
  have hbefore := (Table.get?_erase s.files file other).symm.trans hget
  split at hbefore
  · cases hbefore
  · apply h other status hbefore

theorem AllIndexed.replaceFile {s : IndexState} (h : s.AllIndexed) (file : Path) (d : Document) :
  (s.replaceFile file d).1.AllIndexed
  := by
  intro other status hget
  have hbefore := (Table.get?_put s.files file .indexed other).symm.trans hget
  split at hbefore
  · exact (Option.some.inj hbefore).symm
  · apply h other status hbefore

theorem AllIndexed.get?_eq {s : IndexState} (h : s.AllIndexed) (file : Path) :
  s.files.get? file = if s.isTracked file then some .indexed else none
  := by
  rw [isTracked, Table.has_eq_isSome]
  cases hget : s.files.get? file with
  | none => rfl
  | some status =>
      rw [h file status hget]
      rfl

theorem AllIndexed.status_eq {s : IndexState} (h : s.AllIndexed) (file : Path) :
  s.status file = if s.isTracked file then .indexed else .unknown
  := by
  rw [status, h.get?_eq]
  split <;> rfl

/-- Whether a file is in the index can be told from its status. -/
theorem AllIndexed.status_bne {s : IndexState} (h : s.AllIndexed) (file : Path) :
  (s.status file != .unknown) = s.isTracked file
  := by
  rw [h.status_eq]
  cases s.isTracked file <;> rfl

/-- A state that represents a log is not about to read a file again, and it holds for each of its
files what was read from it last. -/
structure HoldsLast (s : IndexState) (log : IndexLog) (loads : List Outcome) : Prop where
  represents : s.Represents log
  indexed : ∀ file status, s.files.get? file = some status → status = .indexed
  latest : ∀ file, s.isTracked file = true →
    ∃ load, lastLoad? loads file = some load ∧
      log.inFile file = IndexLog.empty.append load.document

variable {s : IndexState} {log : IndexLog} {loads : List Outcome}

theorem holdsLast_empty (loads : List Outcome) :
  empty.HoldsLast IndexLog.empty loads
  := ⟨represents_empty, fun _ _ h => (nomatch h), fun _ h => (nomatch h)⟩

theorem HoldsLast.clearFile (h : s.HoldsLast log loads) (file : Path) :
  (s.clearFile file).1.HoldsLast (log.removeFile file) loads
  := by
  refine ⟨h.represents.clearFile file, AllIndexed.clearFile h.indexed file, ?_⟩
  intro other htracked
  have hkept := (Table.has_erase s.files file other).symm.trans htracked
  rw [Bool.and_eq_true, Bool.not_eq_true'] at hkept
  obtain ⟨hother, hbefore⟩ := hkept
  rw [IndexLog.inFile_removeFile, hother]
  apply h.latest other hbefore

theorem HoldsLast.replaceFile (h : s.HoldsLast log loads) {file : Path} {load : Load}
    (hload : load.document.StandsIn file) :
  (s.replaceFile file load.document).1.HoldsLast (log.replaceFile file load.document)
    (loads ++ [(file, .ok load)])
  := by
  refine ⟨h.represents.replaceFile hload, AllIndexed.replaceFile h.indexed file _, ?_⟩
  intro other htracked
  have hkept := (Table.has_put s.files file .indexed other).symm.trans htracked
  rw [lastLoad?_append_ok, IndexLog.inFile_replaceFile log hload]
  cases hother : file == other with
  | true => exact ⟨load, rfl, rfl⟩
  | false =>
      rw [hother, Bool.false_or] at hkept
      apply h.latest other hkept

/-- A file that could not be read leaves all that was read before. -/
theorem HoldsLast.failed (h : s.HoldsLast log loads) (file : Path) (e : IoError) :
  s.HoldsLast log (loads ++ [(file, .error e)])
  := by
  refine ⟨h.represents, h.indexed, ?_⟩
  intro other htracked
  rw [lastLoad?_append_error]
  apply h.latest other htracked

theorem HoldsLast.markIndexed (h : s.HoldsLast log loads) :
  s.markIndexed.HoldsLast log loads
  := ⟨h.represents.markIndexed, h.indexed, h.latest⟩

theorem HoldsLast.get?_eq (h : s.HoldsLast log loads) (file : Path) :
  s.files.get? file = if s.isTracked file then some .indexed else none
  := AllIndexed.get?_eq h.indexed file

theorem HoldsLast.status_eq (h : s.HoldsLast log loads) (file : Path) :
  s.status file = if s.isTracked file then .indexed else .unknown
  := AllIndexed.status_eq h.indexed file

end IndexState

/-! ### Events -/

namespace Indexer

/-- A file that has changed is read and gets its new records, or is removed. -/
theorem fileChanged_eq (x : Indexer) (t : FileTree) (file : Path) :
  (x.fileChanged t file).1 =
    match loadFile x.config.sealedTags t x.cache? file with
    | .ok (load, cache?) => ({ x with cache? }.replace file load.document).1
    | .error _ => x.remove file
  := by
  unfold fileChanged
  dsimp only
  split
  · next load cache? hload =>
    simp only [put, replace, IndexState.replaceFile_beginReindex, hload]
  · next hload => simp only [remove, IndexState.clearFile_beginReindex, hload]
  · next e _ hload => simp only [remove, IndexState.clearFile_beginReindex, hload]

/-- A new file is read and gets its records, or nothing happens. -/
theorem fileCreated_eq (x : Indexer) (t : FileTree) (file : Path) :
  (x.fileCreated t file).1 =
    match loadFile x.config.sealedTags t x.cache? file with
    | .ok (load, cache?) => ({ x with cache? }.replace file load.document).1
    | .error _ => x
  := by
  unfold fileCreated
  split
  · next load cache? hload => simp only [put, hload]
  · next hload => simp only [hload]
  · next e _ hload => simp only [hload]

/-- What is read when a file has changed. -/
def loadsFor (x : Indexer) (t : FileTree) (file : Path) : ChangeKind → List Outcome
  | .created | .modified => [(file, (loadFile x.config.sealedTags t x.cache? file).map Prod.fst)]
  | .deleted => []

/-- What is read in an event. -/
def loads (x : Indexer) : Event → List Outcome
  | .indexAll t => (loadAll x.config.sealedTags t x.cache? (x.discovery.search t)).1
  | .rebuild t =>
    (loadAll x.config.sealedTags t (x.cache?.map fun _ => .empty) (x.discovery.search t)).1
  | .change t file kind => x.loadsFor t file kind
  | .pathChange t path =>
    match x.changeKind? t path with
    | none => []
    | some kind => x.loadsFor t path kind

/-- Nobody else has filled the cache, and the index holds for each of its files what was read from
it last. -/
structure Keeps (x : Indexer) (loads : List Outcome) : Prop where
  cache : ∀ c ∈ x.cache?, c.Sound
  state : ∃ log, x.state.HoldsLast log loads

variable {x : Indexer} {loads : List Outcome}

theorem Keeps.withCache (h : x.Keeps loads) {cache? : Option ParseCache}
    (hcache : ∀ c ∈ cache?, c.Sound) :
  { x with cache? }.Keeps loads
  := ⟨hcache, h.state⟩

theorem Keeps.remove (h : x.Keeps loads) (file : Path) :
  (x.remove file).Keeps loads
  := by
  obtain ⟨log, hlog⟩ := h.state
  refine ⟨?_, _, hlog.clearFile file⟩
  intro c' hc'
  obtain ⟨c, hc, rfl⟩ := Option.map_eq_some_iff.mp hc'
  apply (h.cache c hc).invalidate

theorem Keeps.replace (h : x.Keeps loads) {file : Path} {load : Load}
    (hload : load.document.StandsIn file) :
  (x.replace file load.document).1.Keeps (loads ++ [(file, .ok load)])
  := by
  obtain ⟨log, hlog⟩ := h.state
  exact ⟨h.cache, _, hlog.replaceFile hload⟩

theorem Keeps.failed (h : x.Keeps loads) (file : Path) (e : IoError) :
  x.Keeps (loads ++ [(file, .error e)])
  := by
  obtain ⟨log, hlog⟩ := h.state
  exact ⟨h.cache, log, hlog.failed file e⟩

/-! ### Changes of single files -/

theorem Keeps.fileChanged (h : x.Keeps loads) (t : FileTree) (file : Path) :
  (x.fileChanged t file).1.Keeps (loads ++ x.loadsFor t file .modified)
  := by
  rw [fileChanged_eq, loadsFor]
  cases hload : loadFile x.config.sealedTags t x.cache? file with
  | error e => apply (h.remove file).failed
  | ok loaded =>
      obtain ⟨hstands, hsound⟩ := loadFile_sound h.cache hload
      apply (h.withCache hsound).replace hstands

theorem Keeps.fileCreated (h : x.Keeps loads) (t : FileTree) (file : Path) :
  (x.fileCreated t file).1.Keeps (loads ++ x.loadsFor t file .created)
  := by
  rw [fileCreated_eq, loadsFor]
  cases hload : loadFile x.config.sealedTags t x.cache? file with
  | error e => apply h.failed
  | ok loaded =>
      obtain ⟨hstands, hsound⟩ := loadFile_sound h.cache hload
      apply (h.withCache hsound).replace hstands

theorem Keeps.apply (h : x.Keeps loads) (t : FileTree) (file : Path) (kind : ChangeKind) :
  (x.apply t file kind).1.Keeps (loads ++ x.loadsFor t file kind)
  := by
  cases kind with
  | created => apply h.fileCreated
  | modified => apply h.fileChanged
  | deleted =>
      rw [loadsFor, List.append_nil]
      apply h.remove

/-! ### Full passes -/

theorem Keeps.putAll (h : x.Keeps loads) {outcomes : List Outcome}
    (houtcomes : ∀ file load, (file, .ok load) ∈ outcomes → load.document.StandsIn file) :
  (x.putAll outcomes).1.Keeps (loads ++ outcomes)
  := by
  induction outcomes generalizing x loads with
  | nil =>
      rw [List.append_nil]
      exact h
  | cons outcome outcomes ih =>
      have hrest : ∀ file load, (file, .ok load) ∈ outcomes → load.document.StandsIn file :=
        fun file load hmem => houtcomes file load (List.mem_cons_of_mem _ hmem)
      rw [List.append_cons]
      obtain ⟨file, result⟩ := outcome
      cases result with
      | ok load => apply ih (h.replace (houtcomes file load List.mem_cons_self)) hrest
      | error e => apply ih ((h.remove file).failed file e) hrest

theorem Keeps.foldl_remove (h : x.Keeps loads) (files : List Path) :
  (files.foldl Indexer.remove x).Keeps loads
  := by
  induction files generalizing x with
  | nil => exact h
  | cons file files ih => apply ih (h.remove file)

theorem Keeps.prune (h : x.Keeps loads) (found : List Path) :
  (x.prune found).Keeps loads
  := by
  have hfold := h.foldl_remove (x.stale found)
  apply hfold.withCache
  intro c' hc'
  obtain ⟨c, hc, rfl⟩ := Option.map_eq_some_iff.mp hc'
  apply (hfold.cache c hc).retain

theorem Keeps.indexAll (h : x.Keeps loads) (t : FileTree) :
  (x.indexAll t).1.Keeps (loads ++ x.loads (.indexAll t))
  := by
  obtain ⟨hstands, hsound⟩ :=
    loadAll_sound x.config.sealedTags t h.cache (x.discovery.search t)
  obtain ⟨hcache, log, hlog⟩ :=
    ((h.withCache hsound).prune (x.discovery.search t)).putAll hstands
  exact ⟨hcache, log, hlog.markIndexed⟩

theorem keeps_rebuild (x : Indexer) (t : FileTree) (loads : List Outcome) :
  (x.rebuild t).1.Keeps (loads ++ x.loads (.rebuild t))
  := by
  have hempty : { x with
      state := IndexState.empty, cache? := x.cache?.map fun _ => ParseCache.empty }.Keeps loads := by
    refine ⟨?_, _, IndexState.holdsLast_empty loads⟩
    intro c' hc'
    obtain ⟨c, -, rfl⟩ := Option.map_eq_some_iff.mp hc'
    apply ParseCache.sound_empty
  apply hempty.indexAll

/-- Every event keeps an index that holds what was read last. -/
theorem Keeps.perform (h : x.Keeps loads) (event : Event) :
  (x.perform event).Keeps (loads ++ x.loads event)
  := by
  cases event with
  | indexAll t => apply h.indexAll
  | rebuild t => apply keeps_rebuild
  | change t file kind => apply h.apply
  | pathChange t path =>
      rw [Indexer.perform, pathChanged, Indexer.loads]
      cases x.changeKind? t path with
      | none =>
          rw [List.append_nil]
          exact h
      | some kind => apply h.apply

/-! ### Runs -/

/-- An indexer that has come about by events, from a new one, and what it has read since then. A new
indexer uses no cache, or finds none of use, or finds the stored cache of one that has come about in
the same way. -/
inductive Reached : Indexer → List Outcome → Prop
  | opened {t : FileTree} {root : Path} {config : IndexConfig} {x : Indexer}
    {reported : List Diagnostic}
    (hnone : config.useCache = true → ∀ bytes c,
      t.contentOf (ParseCache.filePath (config.cacheDirIn root)) = .ok bytes →
      ParseCache.ofBytes bytes ≠ .ok c)
    (hopened : ofConfig t root config = .ok (x, reported)) :
    Reached x []
  | reopened {t : FileTree} {root : Path} {config : IndexConfig} {x y : Indexer}
    {reported : List Diagnostic} {loads : List Outcome} {c : ParseCache} (hy : Reached y loads)
    (hc : y.cache? = some c) (hfits : ∀ e ∈ c.entries, e.2.document.Fits)
    (hsize : c.toBytes.length < 2 ^ 64)
    (hstored : t.contentOf (ParseCache.filePath (config.cacheDirIn root)) = .ok c.toBytes)
    (hopened : ofConfig t root config = .ok (x, reported)) :
    Reached x []
  | performed {x : Indexer} {loads : List Outcome} (hx : Reached x loads) (event : Event) :
    Reached (x.perform event) (loads ++ x.loads event)

/-- A new indexer has an empty index, and the stored cache if it has one at all. -/
theorem keeps_of_ofConfig {t : FileTree} {root : Path} {config : IndexConfig}
    {reported : List Diagnostic} (h : ofConfig t root config = .ok (x, reported))
    (hcache : config.useCache = true → (ParseCache.load t (config.cacheDirIn root)).1.Sound) :
  x.Keeps []
  := by
  unfold ofConfig at h
  split at h
  · cases h
  · split at h
    · next huse =>
      cases h
      refine ⟨?_, _, IndexState.holdsLast_empty []⟩
      intro c hc
      rw [← Option.some.inj hc]
      apply hcache huse
    · cases h
      refine ⟨?_, _, IndexState.holdsLast_empty []⟩
      intro c hc
      cases hc

theorem Reached.keeps (h : Reached x loads) :
  x.Keeps loads
  := by
  induction h with
  | opened hnone hopened =>
      apply keeps_of_ofConfig hopened
      intro huse
      rw [ParseCache.load_eq_empty (hnone huse)]
      apply ParseCache.sound_empty
  | reopened hy hc hfits hsize hstored hopened ih =>
      apply keeps_of_ofConfig hopened
      intro _
      apply (ih.cache _ hc).load hfits hsize hstored
  | performed hx event ih => apply ih.perform

/-- The records of an index and the files it has are in step with what has been read. -/
structure InStep (x : Indexer) (loads : List Outcome) : Prop where
  /-- No file is about to be read again. -/
  settled : ∀ file, x.state.status file ≠ .reindexing
  /-- The files of all records are in the index, -/
  jobs_tracked : ∀ name, ∀ job ∈ x.state.jobs.definitions name, x.state.isTracked job.file = true
  templates_tracked : ∀ t ∈ x.state.templates.all, x.state.isTracked t.file = true
  /-- so no others have records. -/
  untracked : ∀ file, x.state.isTracked file = false →
    x.state.jobs.inFile file = [] ∧ x.state.templates.inFile file = []
  /-- A file in the index has been read, and has the jobs with a name and the templates of the last
  time. -/
  tracked : ∀ file, x.state.isTracked file = true → ∃ load, lastLoad? loads file = some load ∧
    (x.state.jobs.inFile file).Perm (load.document.jobs.filter JobRegistry.accepts) ∧
    (∀ name, (x.state.jobs.definitions name).filter (·.file == file)
      = load.document.jobs.filter (·.name? == some name)) ∧
    x.state.templates.inFile file = load.document.templates

theorem Keeps.inStep (h : x.Keeps loads) :
  x.InStep loads
  := by
  obtain ⟨log, hlog⟩ := h.state
  have hrepresents := hlog.represents
  constructor
  · intro file
    rw [hlog.status_eq]
    split <;> exact fun heq => (nomatch heq)
  · intro name job hjob
    rw [JobRegistry.definitions, hrepresents.jobs.byName.list_eq] at hjob
    apply hrepresents.tracked.jobs job (JobLog.mem_definitions.mp hjob).1
  · intro t ht
    apply hrepresents.tracked.templates t (hrepresents.templates.all_perm.mem_iff.mp ht)
  · intro file huntracked
    obtain ⟨hjobs, htemplates⟩ := IndexLog.mk.inj (hrepresents.inFile_of_untracked huntracked)
    constructor
    · apply List.Perm.eq_nil
      rw [← hjobs]
      apply hrepresents.jobs.inFile_perm
    · rw [hrepresents.templates.inFile_eq, htemplates]
  · intro file htracked
    obtain ⟨load, hload, hfile⟩ := hlog.latest file htracked
    obtain ⟨hjobs, htemplates⟩ := IndexLog.mk.inj hfile
    refine ⟨load, hload, ?_, ?_, ?_⟩
    · apply (hrepresents.jobs.inFile_perm file).trans
      rw [hjobs]
      apply List.Perm.refl
    · intro name
      rw [hrepresents.jobs.definitions_filter, hjobs]
      apply JobLog.definitions_filter_accepts
    · rw [hrepresents.templates.inFile_eq, htemplates]
      apply List.nil_append

/-- Whatever happens, the records of an index and the files it has stay in step with what has been
read. -/
theorem reached_inStep (h : Reached x loads) :
  x.InStep loads
  := h.keeps.inStep

/-- A file is read and the cache stored. A new indexer finds the records there under another
spelling; then a pass finds the file but cannot read it, and then it is no text any more. -/
theorem reached_inStep_reopened :
  let file : Path := ⟨"/ws/zuul.yaml"⟩
  let respelled : Path := ⟨"/ws//zuul.yaml"⟩
  let root : Path := ⟨"/ws"⟩
  let config : IndexConfig := IndexConfig.default
  let tree : FileNode → FileTree := fun n =>
    ⟨.directory [("ws", .directory [("zuul.yaml", n)])], [], ⟨0⟩, none⟩
  let t : FileTree := tree (.file "- job:\n    name: unit\n".toUTF8.toList ⟨0⟩)
  let u : FileTree := tree (.unreadable 22 ⟨5000000⟩ .permissionDenied)
  let v : FileTree := tree (.file [0xff] ⟨9000000⟩)
  ∃ (x y : Indexer) (saved : FileTree) (reported reported' : List Diagnostic)
    (loads : List Outcome),
    ofConfig t root config = .ok (x, reported) ∧
    (x.perform (.change t file .created)).saveCache t = (saved, none) ∧
    ofConfig saved root config = .ok (y, reported') ∧
    (y.perform (.change saved respelled .created)).loads (.indexAll u)
      = [(file, .error .permissionDenied)] ∧
    Reached (y.run [.change saved respelled .created, .indexAll u, .change v file .modified])
      loads ∧
    (y.run [.change saved respelled .created, .indexAll u, .change v file .modified]).InStep loads
  := by
  intro file respelled root config tree t u v
  let content : List UInt8 := "- job:\n    name: unit\n".toUTF8.toList
  let document : Document := (Document.ofBytes config.sealedTags file content).1
  let cache : ParseCache := ParseCache.empty.store file (FileTime.millis ⟨0⟩) document
  let dir : Path := config.cacheDirIn root
  let saved : FileTree := (cache.save t dir).1
  have hchecked : ((Discovery.ofConfig root config).toOption.any fun d =>
      ((d.walk u).filter fun q => d.accepts q && d.isSmall u q).map Path.spelling
        == [file.spelling]) = true := by
    decide +kernel
  obtain ⟨discovery, hdiscovery, hchecked⟩ := exists_ok_of_any hchecked
  have hopen : ∀ v : FileTree, ofConfig v root config
      = .ok (⟨root, config, discovery, some (ParseCache.load v dir).1, .empty⟩,
          (ParseCache.load v dir).2) := by
    intro v
    simp only [ofConfig, hdiscovery]
    rfl
  have hnone : t.has (ParseCache.filePath dir) = false := by decide +kernel
  have hopened := hopen t
  rw [ParseCache.load_of_has_eq_false hnone] at hopened
  generalize hx : Indexer.mk root config discovery (some .empty) .empty = x at hopened
  -- what the first indexer has read is in its cache
  have hread : x.perform (.change t file .created)
      = ({ x with cache? := some cache }.replace file document).1 := by
    have hfind : t.find file = .ok (.file content ⟨0⟩) := by decide +kernel
    have hload : loadFile config.sealedTags t (some .empty) file = .ok
        (⟨document, false, (Document.ofBytes config.sealedTags file content).2⟩,
          some cache) := by
      rw [loadFile, hfind]
      rfl
    rw [← hx, perform, Indexer.apply, fileCreated_eq, hload]
  have hcache : (x.perform (.change t file .created)).cache? = some cache := by
    rw [hread]
    rfl
  have hfits : ∀ e ∈ cache.entries, e.2.document.Fits := by
    intro e he
    rw [List.mem_singleton.mp he]
    apply Document.ofBytes_fits
    decide +kernel
  have hsize : cache.toBytes.length < 2 ^ 64 := by decide +kernel
  have hnothing : (cache.save t dir).2.isNone = true := by decide +kernel
  have hsave : cache.save t dir = (saved, none) := by
    rw [← Option.isNone_iff_eq_none.mp hnothing]
  have hsaved : (x.perform (.change t file .created)).saveCache t = (saved, none) := by
    rw [saveCache, hcache, ← hsave, hread, ← hx]
    rfl
  let stored : ParseCache := (ParseCache.load saved dir).1
  have hreopened := hopen saved
  generalize hy : Indexer.mk root config discovery (some stored) .empty = y at hreopened
  obtain ⟨d, hrecalled⟩ : ∃ d, y.perform (.change saved respelled .created)
      = ({ y with cache? := some stored }.replace respelled d).1 := by
    have hfind : saved.find respelled = .ok (.file content ⟨0⟩) := by decide +kernel
    have hlookup : (stored.lookup respelled (FileTime.millis ⟨0⟩)).isSome = true := by
      decide +kernel
    obtain ⟨d, hd⟩ := Option.isSome_iff_exists.mp hlookup
    have hload : loadFile config.sealedTags saved (some stored) respelled
        = .ok (⟨d, true, []⟩, some stored) := by
      rw [loadFile, hfind]
      simp only [cached?, Option.bind_some, FileTree.modified, hd]
    use d
    rw [← hy, perform, Indexer.apply, fileCreated_eq, hload]
  -- the stored records are older than the file that cannot be read
  have hfailed : (y.perform (.change saved respelled .created)).loads (.indexAll u)
      = [(file, .error .permissionDenied)] := by
    have hfind : u.find file = .ok (.unreadable 22 ⟨5000000⟩ .permissionDenied) := by
      decide +kernel
    have hlookup : (stored.lookup file (FileTime.millis ⟨5000000⟩)).isNone = true := by
      decide +kernel
    have hload : loadFile config.sealedTags u (some stored) file
        = .error .permissionDenied := by
      rw [loadFile, hfind]
      simp only [cached?, Option.bind_some, FileTree.modified,
        Option.isNone_iff_eq_none.mp hlookup, FileEntry.bytes]
    rw [hrecalled, ← hy]
    show (loadAll config.sealedTags u (some stored) (discovery.search u)).1 = _
    rw [Discovery.search_eq_singleton hchecked, loadAll, hload]
    rfl
  have hreached := Reached.opened (fun _ bytes c hbytes =>
    absurd hbytes (FileTree.contentOf_ne_ok hnone bytes)) hopened
  have hagain := (((hreached.performed (.change t file .created)).reopened hcache hfits hsize
    (ParseCache.contentOf_of_save_eq hsave) hreopened).performed
      (.change saved respelled .created)).performed (.indexAll u) |>.performed
        (.change v file .modified)
  exact ⟨x, y, saved, _, _, _, hopened, hsaved, hreopened, hfailed, hagain,
    reached_inStep hagain⟩

end Indexer

end JobIndex
