import JobIndex.Proofs.Cache.Store
import JobIndex.Proofs.Workspace.FullPass
import JobIndex.Proofs.Workspace.Search

/-!
# A rebuild recovers from any cache

A rebuild forgets the index and the cache and then makes a full pass. As no file is found twice, no
file is in the cache when it is read, so

* all files are read as without a cache (`loadAll_of_empty`), and nothing comes from the cache;
* the cache then holds what the files hold now, each of them once (`ParseCache.HoldsCurrent`), apart
  from those that cannot be read.

What the index and the cache held before, right or wrong, makes no difference.
-/

namespace JobIndex

/-! ### Caches that are up to date -/

/-- An entry holds the records of what a path leads to, and the time of its last change. -/
def Cache.Entry.IsCurrent (e : Cache.Entry) (sealedTags : List String) (t : FileTree)
    (file : Path) : Prop :=
  ∃ content modified, t.find file = .ok (.file content modified) ∧
    e = ⟨modified.millis, (Document.ofBytes sealedTags file content).1⟩

namespace ParseCache

/-- A cache has one entry for each of some files and no others, and all of them are up to date. -/
structure HoldsCurrent (c : ParseCache) (sealedTags : List String) (t : FileTree)
    (files : List Path) : Prop where
  keys_eq : c.entries.keys = files
  distinct : c.entries.Distinct
  current : ∀ e ∈ c.entries, e.2.IsCurrent sealedTags t e.1

variable {c : ParseCache} {sealedTags : List String} {t : FileTree} {files : List Path}
  {file : Path}

theorem holdsCurrent_empty (sealedTags : List String) (t : FileTree) :
  empty.HoldsCurrent sealedTags t []
  where
  keys_eq := rfl
  distinct := Table.distinct_nil
  current _ he := nomatch he

/-- A further file gets an entry of its own. -/
theorem HoldsCurrent.store (h : c.HoldsCurrent sealedTags t files)
    (hnew : ∀ other ∈ files, (other == file) = false) {content : List UInt8} {modified : FileTime}
    (hfind : t.find file = .ok (.file content modified)) :
  (c.store file modified.millis (Document.ofBytes sealedTags file content).1).HoldsCurrent
    sealedTags t (files ++ [file])
  := by
  have hentries : ∀ e, c.entries.put file e = c.entries ++ [(file, e)] := by
    intro e
    apply put_eq_append
    intro a ha
    apply hnew
    rw [← h.keys_eq]
    apply List.mem_map_of_mem ha
  constructor
  · rw [ParseCache.store, hentries, Table.keys, List.map_append, ← Table.keys, h.keys_eq]
    rfl
  · apply h.distinct.put
  · intro e he
    rw [ParseCache.store, hentries] at he
    obtain he | he := List.mem_append.mp he
    · apply h.current e he
    · rw [List.mem_singleton.mp he]
      use content, modified, hfind

/-- A cache says nothing of other files. -/
theorem HoldsCurrent.lookup_eq_none (h : c.HoldsCurrent sealedTags t files)
    (hnew : ∀ other ∈ files, (other == file) = false) (modified : Int64) :
  c.lookup file modified = none
  := by
  have hget : c.entries.get? file = none := by
    rw [← Option.not_isSome_iff_eq_none, ← Table.has_eq_isSome, Table.has, List.any_eq_true]
    rintro ⟨e, he, heq⟩
    rw [hnew e.1 (h.keys_eq ▸ List.mem_map_of_mem he)] at heq
    cases heq
  rw [lookup, hget]

/-- A cache that holds some of what is found loses nothing. -/
theorem HoldsCurrent.retain_eq (h : c.HoldsCurrent sealedTags t files) {found : List Path}
    (hfound : files ⊆ found) :
  (c.retain fun file => found.any (· == file)) = c
  := by
  rw [ParseCache.retain, List.filter_eq_self.mpr]
  intro e he
  rw [List.any_eq_true]
  use e.1
  constructor
  · apply hfound
    rw [← h.keys_eq]
    apply List.mem_map_of_mem he
  · apply BEq.rfl

/-- Other files are dropped in vain. -/
theorem HoldsCurrent.invalidate_eq (h : c.HoldsCurrent sealedTags t files)
    (hnew : ∀ other ∈ files, (other == file) = false) :
  c.invalidate file = c
  := by
  rw [ParseCache.invalidate, Table.erase, List.filter_eq_self.mpr]
  intro e he
  rw [hnew e.1 (h.keys_eq ▸ List.mem_map_of_mem he)]
  rfl

theorem HoldsCurrent.foldl_invalidate_eq (h : c.HoldsCurrent sealedTags t files)
    {others : List Path} (hnew : ∀ file ∈ others, ∀ other ∈ files, (other == file) = false) :
  others.foldl ParseCache.invalidate c = c
  := by
  induction others with
  | nil => rfl
  | cons file others ih =>
      obtain ⟨hfirst, hrest⟩ := List.forall_mem_cons.mp hnew
      rw [List.foldl_cons, h.invalidate_eq hfirst, ih hrest]

end ParseCache

/-! ### Reading files that are not in the cache -/

section

variable {c : ParseCache} {sealedTags : List String} {t : FileTree} {done files : List Path}

/-- A file that is not in the cache is read as without a cache, and gets an entry if it can be
read. -/
theorem loadFile_of_new (h : c.HoldsCurrent sealedTags t done) {file : Path}
    (hnew : ∀ other ∈ done, (other == file) = false) :
  (∃ load c', loadFile sealedTags t (some c) file = .ok (load, some c') ∧
    outcomeOf sealedTags t file = (file, .ok load) ∧ (t.contentOf file).isOk = true ∧
    c'.HoldsCurrent sealedTags t (done ++ [file])) ∨
  ∃ e, loadFile sealedTags t (some c) file = .error e ∧
    outcomeOf sealedTags t file = (file, .error e) ∧ (t.contentOf file).isOk = false
  := by
  rw [outcomeOf_eq]
  cases hcontent : t.contentOf file with
  | ok content =>
      left
      obtain ⟨modified, hfind⟩ := FileTree.find_of_contentOf hcontent
      have hmiss := h.lookup_eq_none hnew modified.millis
      have hstored := h.store hnew hfind
      rw [loadFile, hfind]
      simp only [cached?, Option.bind_some, FileTree.modified, hmiss, Option.map_some]
      exact ⟨_, _, rfl, rfl, rfl, hstored⟩
  | error e =>
      right
      use e
      refine ⟨?_, rfl, rfl⟩
      rw [loadFile]
      cases hfind : t.find file with
      | error e' =>
          rw [FileTree.contentOf, hfind] at hcontent
          exact congrArg _ (Except.error.inj hcontent)
      | ok entry =>
          rw [FileTree.contentOf_of_find hfind] at hcontent
          simp only [cached?, Option.bind_some, h.lookup_eq_none hnew, hcontent]

/-- Files of which none is in the cache, and no two are equal, are read as without a cache, and each
that can be read gets an entry. -/
theorem loadAll_of_new (h : c.HoldsCurrent sealedTags t done)
    (hdistinct : (done ++ files).Pairwise fun p q => (p == q) = false) :
  ∃ c', loadAll sealedTags t (some c) files = (files.map (outcomeOf sealedTags t), some c') ∧
    c'.HoldsCurrent sealedTags t (done ++ files.filter fun file => (t.contentOf file).isOk)
  := by
  induction files generalizing c done with
  | nil =>
      use c
      rw [List.filter_nil, List.append_nil]
      exact ⟨rfl, h⟩
  | cons file files ih =>
      have hnew : ∀ other ∈ done, (other == file) = false := by
        intro other hother
        apply (List.pairwise_append.mp hdistinct).2.2 other hother file List.mem_cons_self
      rw [List.filter_cons]
      obtain ⟨load, c', hload, houtcome, hread, hc'⟩ | ⟨e, hload, houtcome, hread⟩ :=
        loadFile_of_new h hnew
      · rw [List.append_cons] at hdistinct
        obtain ⟨d, hall, hd⟩ := ih hc' hdistinct
        use d
        rw [if_pos hread, List.append_cons]
        refine ⟨?_, hd⟩
        simp only [loadAll, hload, hall, List.map_cons, houtcome]
      · have hrest := hdistinct.sublist ((List.sublist_cons_self file files).append_left done)
        obtain ⟨d, hall, hd⟩ := ih h hrest
        use d
        rw [if_neg (by simp [hread])]
        refine ⟨?_, hd⟩
        simp only [loadAll, hload, hall, List.map_cons, houtcome]

end

namespace Indexer

variable {x y : Indexer} {t : FileTree}

/-- From an empty cache all files that are found are read, and the cache then holds each of them
once that can be read. -/
theorem loadAll_of_empty (x : Indexer) (ht : t.root.WellFormed) :
  ∃ c, loadAll x.config.sealedTags t (some .empty) (x.discovery.search t)
      = (x.outcomes t, some c) ∧
    c.HoldsCurrent x.config.sealedTags t (x.discovery.reads t)
  := by
  apply loadAll_of_new (ParseCache.holdsCurrent_empty _ t)
  apply x.discovery.distinct_search ht

/-! ### Putting files into the index -/

/-- What becomes of an index depends on the records that are put into it, not on where they come
from. -/
theorem state_putAll (hstate : x.state = y.state) {outcomes outcomes' : List Outcome}
    (h : outcomes.map (Prod.map id (Except.map Load.document))
      = outcomes'.map (Prod.map id (Except.map Load.document))) :
  (x.putAll outcomes).1.state = (y.putAll outcomes').1.state
  := by
  induction outcomes generalizing x y outcomes' with
  | nil =>
      obtain rfl := List.map_eq_nil_iff.mp h.symm
      exact hstate
  | cons outcome outcomes ih =>
      obtain ⟨outcome', outcomes', rfl, hfirst, hrest⟩ := List.map_eq_cons_iff.mp h.symm
      obtain ⟨file, result⟩ := outcome
      obtain ⟨file', result'⟩ := outcome'
      obtain ⟨rfl, hresult⟩ := Prod.mk.inj hfirst
      cases result with
      | error e =>
          cases result' with
          | error e' =>
              apply ih _ hrest.symm
              rw [remove, remove, hstate]
              rfl
          | ok load' => cases hresult
      | ok load =>
          cases result' with
          | error e' => cases hresult
          | ok load' =>
              have hdocument : load'.document = load.document := Except.ok.inj hresult
              apply ih _ hrest.symm
              show (x.state.replaceFile file' load.document).1
                = (y.state.replaceFile file' load'.document).1
              rw [hstate, hdocument]

/-- The files of some outcomes that could not be read. -/
def failures (outcomes : List Outcome) : List Path :=
  (outcomes.filter fun outcome => !outcome.2.isOk).map Prod.fst

/-- Outcomes touch the index, and of the cache the files that could not be read. -/
theorem putAll_eq_with (outcomes : List Outcome) (x : Indexer) :
  (x.putAll outcomes).1 =
    { x with
      cache? := x.cache?.map fun c => (failures outcomes).foldl ParseCache.invalidate c
      state := (x.putAll outcomes).1.state }
  := by
  induction outcomes generalizing x with
  | nil =>
      cases hcache : x.cache? <;> simp [putAll, failures, ← hcache]
  | cons outcome outcomes ih =>
      obtain ⟨file, result⟩ := outcome
      cases result with
      | ok load => apply ih
      | error e =>
          apply (ih (x.remove file)).trans
          rw [remove, Option.map_map]
          rfl

/-- An index without files loses none. -/
theorem prune_of_empty (hempty : x.state = .empty) (found : List Path) :
  x.prune found = { x with cache? := x.cache?.map (·.retain fun file => found.any (· == file)) }
  := by
  have hstale : x.stale found = [] := by
    rw [stale, hempty, IndexState.tracked, IndexState.empty, Table.keys, List.map_nil, Path.sort,
      List.mergeSort_nil, List.filter_nil]
  rw [prune, hstale]
  rfl

/-! ### Passes from an empty index -/

section

variable {outcomes : List Outcome} {cache? : Option ParseCache}
  (hall : loadAll x.config.sealedTags t x.cache? (x.discovery.search t) = (outcomes, cache?))
include hall

/-- A pass from an empty index puts there what has been read. -/
theorem state_indexAll (hempty : x.state = .empty) :
  (x.indexAll t).1.state = (x.putAll outcomes).1.state.markIndexed
  := by
  have hprune := prune_of_empty (x := { x with cache? }) hempty (x.discovery.search t)
  rw [indexAll, hall]
  dsimp only
  rw [hprune]
  congr 1
  apply state_putAll <;> rfl

/-- Passes from empty indexes that read the same records lead to the same index. -/
theorem state_indexAll_eq {u : FileTree} {outcomes' : List Outcome} {cache'? : Option ParseCache}
    (hall' : loadAll y.config.sealedTags u y.cache? (y.discovery.search u) = (outcomes', cache'?))
    (hempty : x.state = .empty) (hempty' : y.state = .empty)
    (h : outcomes.map (Prod.map id (Except.map Load.document))
      = outcomes'.map (Prod.map id (Except.map Load.document))) :
  (x.indexAll t).1.state = (y.indexAll u).1.state
  := by
  rw [state_indexAll hall hempty, state_indexAll hall' hempty',
    state_putAll (hempty.trans hempty'.symm) h]

/-- A pass from an empty index touches the index and the cache only, where what has been found
stays, unless it could not be read. -/
theorem indexAll_eq_with (hempty : x.state = .empty) :
  (x.indexAll t).1 =
    { x with
      cache? := cache?.map fun c => (failures outcomes).foldl ParseCache.invalidate
        (c.retain fun file => (x.discovery.search t).any (· == file))
      state := (x.indexAll t).1.state }
  := by
  have hprune := prune_of_empty (x := { x with cache? }) hempty (x.discovery.search t)
  rw [indexAll, hall]
  dsimp only
  rw [hprune, putAll_eq_with, Option.map_map]
  rfl

theorem counts_indexAll :
  (x.indexAll t).2.2.2.cachedFiles = countLoads true outcomes ∧
    (x.indexAll t).2.2.2.parsedFiles = countLoads false outcomes
  := by
  rw [indexAll, hall]
  exact ⟨rfl, rfl⟩

end

/-- A pass from nothing leaves a cache that holds what the files hold now, each once that can be
read. -/
theorem indexAll_of_empty (ht : t.root.WellFormed) (hcache : x.cache? = some .empty)
    (hempty : x.state = .empty) :
  ∃ c, loadAll x.config.sealedTags t x.cache? (x.discovery.search t) = (x.outcomes t, some c) ∧
    c.HoldsCurrent x.config.sealedTags t (x.discovery.reads t) ∧
    (x.indexAll t).1 = { x with cache? := some c, state := (x.indexAll t).1.state }
  := by
  obtain ⟨c, hall, hc⟩ := x.loadAll_of_empty ht
  rw [← hcache] at hall
  use c, hall, hc
  have hfailures : ∀ file ∈ failures (x.outcomes t), ∀ other ∈ x.discovery.reads t,
      (other == file) = false := by
    intro file hfile other hother
    obtain ⟨outcome, houtcome, rfl⟩ := List.mem_map.mp hfile
    obtain ⟨houtcome, hfailed⟩ := List.mem_filter.mp houtcome
    rw [← Bool.not_eq_true, BEq.comm]
    intro heq
    rw [isOk_of_mem_outcomes houtcome heq, Bool.not_eq_true', List.any_eq_false] at hfailed
    exact hfailed other hother BEq.rfl
  rw [indexAll_eq_with hall hempty, Option.map_some,
    hc.retain_eq fun _ => List.mem_of_mem_filter, hc.foldl_invalidate_eq hfailures]

/-- A pass from nothing that finds one file stores what the file holds. -/
theorem saveCache_indexAll_of_singleton (ht : t.root.WellFormed) (hcache : x.cache? = some .empty)
    (hempty : x.state = .empty) {file : Path} (hsearch : x.discovery.search t = [file])
    {content : List UInt8} {modified : FileTime}
    (hfind : t.find file = .ok (.file content modified)) :
  (x.indexAll t).1.saveCache t
    = (ParseCache.empty.store file modified.millis
        (Document.ofBytes x.config.sealedTags file content).1).save t (x.config.cacheDirIn x.root)
  := by
  obtain ⟨c, hall, -, hpass⟩ := indexAll_of_empty ht hcache hempty
  have hload : ∃ load, loadFile x.config.sealedTags t (some .empty) file
      = .ok (load, some (ParseCache.empty.store file modified.millis
          (Document.ofBytes x.config.sealedTags file content).1)) := by
    rw [loadFile, hfind]
    exact ⟨_, rfl⟩
  obtain ⟨load, hload⟩ := hload
  rw [hcache, hsearch] at hall
  simp only [loadAll, hload] at hall
  obtain rfl := Option.some.inj (Prod.mk.inj hall).2
  rw [hpass, saveCache]

/-! ### Rebuilding -/

/-- A rebuild of `x` makes of its index what a full pass of `fresh` makes. Nothing comes from the
cache, which then holds what the files hold now, each of them once that can be read. -/
structure RebuildsAs (x fresh : Indexer) (t : FileTree) : Prop where
  state_eq : (x.rebuild t).1.state = (fresh.indexAll t).1.state
  cachedFiles_eq : (x.rebuild t).2.2.2.cachedFiles = 0
  parsedFiles_eq : (x.rebuild t).2.2.2.parsedFiles = (fresh.discovery.reads t).length
  cache : ∃ c, (x.rebuild t).1.cache? = some c ∧
    c.HoldsCurrent x.config.sealedTags t (fresh.discovery.reads t)
  /-- Where all files can be read, these are all that are found. -/
  reads_eq : (∀ file ∈ fresh.discovery.search t, ∃ content, t.contentOf file = .ok content) →
    fresh.discovery.reads t = fresh.discovery.search t

/-- A new indexer has nothing in its index, and the stored cache unless it is turned off. -/
theorem ofConfig_of_discovery {root : Path} {config : IndexConfig} {discovery : Discovery}
    (h : Discovery.ofConfig root config = .ok discovery) (t : FileTree) :
  ∃ reported, ofConfig t root config = .ok (⟨root, config, discovery,
    if config.useCache then some (ParseCache.load t (config.cacheDirIn root)).1 else none, .empty⟩,
    reported)
  := by
  rw [ofConfig, h]
  dsimp only
  split <;> exact ⟨_, rfl⟩

/-- Whatever index and cache there were, a rebuild leads to what a new indexer without a cache gets
from a full pass, and to a cache that is up to date. -/
theorem rebuild_recovers {root : Path} {config : IndexConfig} {discovery : Discovery}
    {fresh : Indexer} {reported : List Diagnostic} (ht : t.root.WellFormed)
    (hdiscovery : Discovery.ofConfig root config = .ok discovery)
    (hfresh : ofConfig t root { config with useCache := false } = .ok (fresh, reported))
    (c : ParseCache) (s : IndexState) :
  RebuildsAs ⟨root, config, discovery, some c, s⟩ fresh t
  := by
  have hdiscovery' : Discovery.ofConfig root { config with useCache := false } = .ok discovery :=
    hdiscovery
  obtain ⟨_, hfresh'⟩ := ofConfig_of_discovery hdiscovery' t
  obtain ⟨rfl, -⟩ := Prod.mk.inj (Except.ok.inj (hfresh.symm.trans hfresh'))
  -- both passes start from an empty index, one of them from an empty cache
  generalize hforgotten :
    (⟨root, config, discovery, some .empty, .empty⟩ : Indexer) = forgotten
  have hrebuild : (⟨root, config, discovery, some c, s⟩ : Indexer).rebuild t
      = forgotten.indexAll t := by
    rw [← hforgotten]
    rfl
  have hcache : forgotten.cache? = some .empty := by rw [← hforgotten]
  have hempty : forgotten.state = .empty := by rw [← hforgotten]
  obtain ⟨c', hall, hc', hindexed⟩ := indexAll_of_empty ht hcache hempty
  obtain ⟨hcached, hparsed⟩ := counts_indexAll hall
  obtain ⟨hread, hnone, -⟩ := forgotten.counts_outcomes t
  constructor
  · rw [hrebuild]
    apply state_indexAll_eq hall (loadAll_none ..) hempty rfl
    rw [← hforgotten]
    rfl
  · rw [hrebuild, hcached, hnone]
  · rw [hrebuild, hparsed, hread, ← hforgotten]
  · use c'
    rw [hrebuild, hindexed]
    rw [← hforgotten] at hc'
    exact ⟨rfl, hc'⟩
  · exact Discovery.reads_eq_search

/-- The cache claims a job for a file that has another one, and records for a file that is gone,
both from a time to come; the index holds what the cache claims. -/
theorem rebuild_recovers_tampered :
  let file : Path := ⟨"/ws/zuul.yaml"⟩
  let gone : Path := ⟨"/ws/.zuul.yaml"⟩
  let unit : List UInt8 := "- job:\n    name: unit\n".toUTF8.toList
  let t : FileTree := ⟨.directory [("ws", .directory [("zuul.yaml", .file unit ⟨0⟩)])], [], ⟨0⟩, none⟩
  let forged : Document := ⟨gone, [⟨gone, [("name", .scalar "lint")], []⟩], []⟩
  let c : ParseCache := ⟨[(file, ⟨5, forged⟩), (gone, ⟨5, forged⟩)]⟩
  let s : IndexState := (IndexState.empty.replaceFile file forged).1
  let config : IndexConfig := IndexConfig.default
  t.root.WellFormed ∧ ∃ discovery fresh reported,
    Discovery.ofConfig ⟨"/ws"⟩ config = .ok discovery ∧
    ofConfig t ⟨"/ws"⟩ { config with useCache := false } = .ok (fresh, reported) ∧
    RebuildsAs ⟨⟨"/ws"⟩, config, discovery, some c, s⟩ fresh t
  := by
  intro file gone unit t forged c s config
  have ht : t.root.WellFormed := by decide
  have hchecked : ((Discovery.ofConfig ⟨"/ws"⟩ config).toOption.any fun _ => true) = true := by
    decide +kernel
  obtain ⟨discovery, hdiscovery, -⟩ := exists_ok_of_any hchecked
  have hdiscovery' : Discovery.ofConfig ⟨"/ws"⟩ { config with useCache := false }
      = .ok discovery := hdiscovery
  obtain ⟨reported, hfresh⟩ := ofConfig_of_discovery hdiscovery' t
  exact ⟨ht, discovery, _, reported, hdiscovery, hfresh,
    rebuild_recovers ht hdiscovery hfresh c s⟩

end Indexer

end JobIndex
