import JobIndex.Proofs.Workspace.Rebuild
import JobIndex.Proofs.Workspace.Transparency

/-!
# Other tags with the same cache

The records of a file depend on the tags that seal, but an entry of the cache is found by the path
of the file and its time alone. So when an indexer with other tags takes over the cache that an
earlier one has left, and no file has changed,

* all files are found in the cache, with the records of the earlier tags (`loadAll_of_current`);
* the index becomes the one that the earlier tags give, and no file is read (`indexAll_retagged`).

The new tags have no effect before a file changes. One sealed value is enough to tell
(`indexAll_sealed_too_late`).
-/

namespace JobIndex

/-! ### Files that are in the cache -/

namespace ParseCache

variable {c : ParseCache} {sealedTags : List String} {t u : FileTree} {files : List Path}

/-- A cache that is up to date answers for its files. -/
theorem HoldsCurrent.lookup_eq (h : c.HoldsCurrent sealedTags t files) {file : Path}
    (hfile : file ∈ files) {content : List UInt8} {modified : FileTime}
    (hfind : t.find file = .ok (.file content modified)) :
  c.lookup file modified.millis = some (Document.ofBytes sealedTags file content).1
  := by
  rw [← h.keys_eq] at hfile
  obtain ⟨e, he, rfl⟩ := List.mem_map.mp hfile
  obtain ⟨content', modified', hfind', heq⟩ := h.current e he
  obtain ⟨rfl, rfl⟩ : content' = content ∧ modified' = modified := by
    rw [hfind] at hfind'
    cases hfind'
    exact ⟨rfl, rfl⟩
  rw [lookup, h.distinct.get?_of_mem he, heq]
  dsimp only
  rw [if_neg Int64.lt_irrefl]

/-- A cache that is up to date with small files is loaded with the answers that it had when it was
saved. -/
theorem HoldsCurrent.lookup_load (h : c.HoldsCurrent sealedTags t files)
    (hregular : t.Regular (· ∈ files)) {dir : Path} (hsave : c.save t dir = (u, none))
    (hsize : ∀ bytes, u.contentOf (filePath dir) = .ok bytes → bytes.length < 2 ^ 64) :
  (load u dir).1.lookup = c.lookup
  := by
  have hcontent := contentOf_of_save_eq hsave
  have hfits : ∀ e ∈ c.entries, e.2.document.Fits := by
    intro e he
    obtain ⟨content, modified, hfind, heq⟩ := h.current e he
    obtain ⟨content', modified', hentry, hsmall⟩ :=
      hregular e.1 _ (h.keys_eq ▸ List.mem_map_of_mem he) hfind
    cases hentry
    rw [heq]
    apply Document.ofBytes_fits sealedTags e.1 hsmall
  have hload : (load u dir).1 = ⟨c.sorted⟩ := by
    rw [load, hcontent]
    dsimp only
    rw [ofBytes_toBytes h.distinct hfits (hsize _ hcontent)]
  funext file modified
  rw [hload, lookup, lookup, get?_sorted h.distinct]

end ParseCache

/-- The outcome for a file whose records are in the cache, made with some tags. -/
def recalledOf (sealedTags : List String) (t : FileTree) (file : Path) : Outcome :=
  (outcomeOf sealedTags t file).map id (Except.map fun load => ⟨load.document, true, []⟩)

/-- Files whose records are in the cache are not read, and the tags that hold now do not matter. -/
theorem loadAll_of_current {c : ParseCache} {sealedTags : List String} {t : FileTree}
    {files : List Path} (tags : List String)
    (h : ∀ file ∈ files, ∃ content modified, t.find file = .ok (.file content modified) ∧
      c.lookup file modified.millis = some (Document.ofBytes sealedTags file content).1) :
  loadAll tags t (some c) files = (files.map (recalledOf sealedTags t), some c)
  := by
  induction files with
  | nil => rfl
  | cons file files ih =>
      obtain ⟨⟨content, modified, hfind, hlookup⟩, hrest⟩ := List.forall_mem_cons.mp h
      have hload : loadFile tags t (some c) file
          = .ok (⟨(Document.ofBytes sealedTags file content).1, true, []⟩, some c) := by
        rw [loadFile, hfind]
        simp only [cached?, Option.bind_some, FileTree.modified, hlookup]
      have hrecalled : recalledOf sealedTags t file
          = (file, .ok ⟨(Document.ofBytes sealedTags file content).1, true, []⟩) := by
        rw [recalledOf, outcomeOf, loadFile, hfind]
        rfl
      rw [loadAll, hload, List.map_cons, hrecalled]
      dsimp only
      rw [ih hrest]

namespace Indexer

variable {x y : Indexer} {t u : FileTree}

/-! ### Taking over a cache -/

theorem map_recalledOf (sealedTags : List String) (t : FileTree) (files : List Path) :
  (files.map (recalledOf sealedTags t)).map (Prod.map id (Except.map Load.document))
    = (files.map (outcomeOf sealedTags t)).map (Prod.map id (Except.map Load.document))
  := by
  rw [List.map_map, List.map_map]
  apply List.map_congr_left
  intro file _
  simp only [Function.comp_apply, recalledOf, outcomeOf]
  cases loadFile sealedTags t none file <;> rfl

/-- Files that are recalled all count as found in the cache. -/
theorem countLoads_recalledOf (sealedTags : List String) {t : FileTree} {files : List Path}
    (h : ∀ file ∈ files, ∃ content modified, t.find file = .ok (.file content modified)) :
  countLoads true (files.map (recalledOf sealedTags t)) = files.length ∧
    countLoads false (files.map (recalledOf sealedTags t)) = 0
  := by
  have hrecalled : ∀ file ∈ files,
      ∃ d, recalledOf sealedTags t file = (file, .ok ⟨d, true, []⟩) := by
    intro file hfile
    obtain ⟨content, modified, hfind⟩ := h file hfile
    rw [recalledOf, outcomeOf, loadFile, hfind]
    exact ⟨_, rfl⟩
  constructor
  · rw [countLoads, List.filter_eq_self.mpr, List.length_map]
    intro outcome houtcome
    obtain ⟨file, hfile, rfl⟩ := List.mem_map.mp houtcome
    obtain ⟨d, heq⟩ := hrecalled file hfile
    rw [heq]
    rfl
  · rw [countLoads, List.length_eq_zero_iff, List.filter_eq_nil_iff]
    intro outcome houtcome
    obtain ⟨file, hfile, rfl⟩ := List.mem_map.mp houtcome
    obtain ⟨d, heq⟩ := hrecalled file hfile
    rw [heq]
    exact Bool.false_ne_true

/-- An indexer that starts with nothing makes a pass and stores its cache, which leads to `u`. All
files that it finds have fewer than `2 ^ 64` bytes, and none of them is touched by the cache. -/
structure HandsOver (x : Indexer) (t u : FileTree) : Prop where
  wellFormed : t.root.WellFormed
  state_eq : x.state = .empty
  cache_eq : x.cache? = some .empty
  saved : (x.indexAll t).1.saveCache t = (u, none)
  alike : t.Alike x.discovery (· ∈ x.discovery.search t) u
  regular : t.Regular (· ∈ x.discovery.search t)
  cache_small : ∀ bytes,
    u.contentOf (ParseCache.filePath (x.config.cacheDirIn x.root)) = .ok bytes →
    bytes.length < 2 ^ 64

/-- All files that are found can be read. -/
theorem HandsOver.exists_file (h : x.HandsOver t u) {file : Path}
    (hfile : file ∈ x.discovery.search t) :
  ∃ content modified, t.find file = .ok (.file content modified)
  := by
  obtain ⟨-, e, -, hfind, -⟩ := Discovery.of_mem_search hfile
  obtain ⟨content, modified, rfl, -⟩ := h.regular file e hfile hfind
  use content, modified

/-- The stored cache answers for all files that are found. -/
theorem HandsOver.lookup_load (h : x.HandsOver t u) :
  ∀ file ∈ x.discovery.search u, ∃ content modified, u.find file = .ok (.file content modified) ∧
    (ParseCache.load u (x.config.cacheDirIn x.root)).1.lookup file modified.millis
      = some (Document.ofBytes x.config.sealedTags file content).1
  := by
  obtain ⟨c, -, hc, hpass⟩ := indexAll_of_empty h.wellFormed h.cache_eq h.state_eq
  have hreads : x.discovery.reads t = x.discovery.search t := by
    apply Discovery.reads_eq_search
    intro file hfile
    obtain ⟨content, modified, hfind⟩ := h.exists_file hfile
    use content
    apply FileTree.contentOf_of_find hfind
  rw [hreads] at hc
  have hsaved := h.saved
  rw [hpass, saveCache] at hsaved
  intro file hfile
  rw [h.alike.search_eq] at hfile
  obtain ⟨content, modified, hfind⟩ := h.exists_file hfile
  use content, modified, (h.alike.find_eq file hfile).trans hfind
  rw [hc.lookup_load h.regular hsaved h.cache_small, hc.lookup_eq hfile hfind]

/-- An indexer that takes over the cache finds all files there, whatever its tags are. -/
theorem HandsOver.loadAll_eq (h : x.HandsOver t u) (hdiscovery : y.discovery = x.discovery)
    (hcache : y.cache? = some (ParseCache.load u (x.config.cacheDirIn x.root)).1) :
  loadAll y.config.sealedTags u y.cache? (y.discovery.search u)
    = ((y.discovery.search u).map (recalledOf x.config.sealedTags u), y.cache?)
  := by
  rw [hcache, hdiscovery]
  apply loadAll_of_current _ h.lookup_load

/-- So its index becomes that of an indexer without a cache that has the earlier tags. -/
theorem HandsOver.state_indexAll_eq {z : Indexer} (h : x.HandsOver t u)
    (hdiscovery : y.discovery = x.discovery)
    (hcache : y.cache? = some (ParseCache.load u (x.config.cacheDirIn x.root)).1)
    (hempty : y.state = .empty) (hdiscovery' : z.discovery = x.discovery)
    (hcache' : z.cache? = none) (hempty' : z.state = .empty)
    (htags : z.config.sealedTags = x.config.sealedTags) :
  (y.indexAll u).1.state = (z.indexAll u).1.state
  := by
  have hall : loadAll z.config.sealedTags u z.cache? (z.discovery.search u)
      = ((y.discovery.search u).map (outcomeOf x.config.sealedTags u), none) := by
    rw [hcache', loadAll_none, htags, hdiscovery', hdiscovery]
  apply Indexer.state_indexAll_eq (h.loadAll_eq hdiscovery hcache) hall hempty hempty'
  apply map_recalledOf

/-! ### Other tags -/

/-- A file with a tagged value is read without regard to the tag, and the cache is stored. -/
theorem handsOver_tagged :
  let root : Path := ⟨"/ws"⟩
  let file : Path := ⟨"/ws/zuul.yaml"⟩
  let text : List UInt8 := "- job:\n    name: unit\n    secret: !vault plain\n".toUTF8.toList
  let t : FileTree := ⟨.directory [("ws", .directory [("zuul.yaml", .file text ⟨0⟩)])], [], ⟨0⟩, none⟩
  let config : IndexConfig := { IndexConfig.default with sealedTags := [] }
  ∃ discovery u, Discovery.ofConfig root config = .ok discovery ∧
    t.has (ParseCache.filePath (config.cacheDirIn root)) = false ∧
    HandsOver ⟨root, config, discovery, some .empty, .empty⟩ t u ∧
    discovery.search u = [file] ∧ u.find file = .ok (.file text ⟨0⟩)
  := by
  intro root file text t config
  let document : Document := (Document.ofBytes [] file text).1
  let c : ParseCache := ParseCache.empty.store file (⟨0⟩ : FileTime).millis document
  let u : FileTree := (c.save t (config.cacheDirIn root)).1
  let finds (d : Discovery) (v : FileTree) : Bool :=
    ((d.walk v).filter fun p => d.accepts p && d.isSmall v p).map Path.spelling == [file.spelling]
  obtain ⟨hfinds, hfind, hfind', hnone, hstored, hsmall, hsmall'⟩ :
      ((Discovery.ofConfig root config).toOption.any fun d => finds d t && finds d u) = true ∧
      t.find file = .ok (.file text ⟨0⟩) ∧ u.find file = .ok (.file text ⟨0⟩) ∧
      t.has (ParseCache.filePath (config.cacheDirIn root)) = false ∧
      (c.save t (config.cacheDirIn root)).2.isNone = true ∧
      text.length < 2 ^ 64 ∧ c.toBytes.length < 2 ^ 64 := by
    decide +kernel
  obtain ⟨discovery, hdiscovery, hfinds⟩ := exists_ok_of_any hfinds
  rw [Bool.and_eq_true] at hfinds
  have ht := Discovery.search_eq_singleton hfinds.1
  have hu := Discovery.search_eq_singleton hfinds.2
  have honly : ∀ p ∈ discovery.search t, p = file := by
    intro p hp
    rw [ht] at hp
    exact List.mem_singleton.mp hp
  have hwell : t.root.WellFormed := by decide
  let x : Indexer := ⟨root, config, discovery, some .empty, .empty⟩
  have hsaved : (x.indexAll t).1.saveCache t = (u, none) := by
    rw [saveCache_indexAll_of_singleton hwell rfl rfl ht hfind]
    exact Prod.ext rfl (Option.isNone_iff_eq_none.mp hstored)
  refine ⟨discovery, u, hdiscovery, hnone, ⟨hwell, rfl, rfl, hsaved, ?_, ?_, ?_⟩, hu, hfind'⟩
  · refine ⟨hu.trans ht.symm, ?_⟩
    intro p hp
    rw [honly p hp, hfind, hfind']
  · have honly' : t.LeadsOnlyTo text ⟨0⟩ (· = file) := by
      rintro p e rfl hp
      exact Except.ok.inj (hp.symm.trans hfind)
    exact fun p e hp => honly'.regular hsmall p e (honly p hp)
  · intro bytes hbytes
    rw [ParseCache.contentOf_save c t _ hbytes]
    exact hsmall'

/-- An indexer that takes over a cache gets from a pass what the tags of the earlier indexer give,
whatever its own tags are, and reads no file. -/
theorem indexAll_retagged {root : Path} {config : IndexConfig} {plain : Indexer}
    {reported reported' reported'' : List Diagnostic} (huse : config.useCache = true)
    (hx : ofConfig t root config = .ok (x, reported)) (h : x.HandsOver t u) (tags : List String)
    (hy : ofConfig u root { config with sealedTags := tags } = .ok (y, reported'))
    (hplain : ofConfig u root { config with useCache := false } = .ok (plain, reported'')) :
  (y.indexAll u).1.state = (plain.indexAll u).1.state ∧
    (y.indexAll u).2.2.2.cachedFiles = (y.discovery.search u).length ∧
    (y.indexAll u).2.2.2.parsedFiles = 0
  := by
  obtain ⟨discovery, hdiscovery⟩ : ∃ discovery, Discovery.ofConfig root config = .ok discovery := by
    cases hdiscovery : Discovery.ofConfig root config with
    | error e =>
        rw [ofConfig, hdiscovery] at hx
        cases hx
    | ok discovery => use discovery
  -- what is searched for depends neither on the tags nor on the cache
  have hdiscovery' : Discovery.ofConfig root { config with sealedTags := tags } = .ok discovery :=
    hdiscovery
  have hdiscovery'' : Discovery.ofConfig root { config with useCache := false } = .ok discovery :=
    hdiscovery
  obtain ⟨_, hx'⟩ := ofConfig_of_discovery hdiscovery t
  obtain ⟨_, hy'⟩ := ofConfig_of_discovery hdiscovery' u
  obtain ⟨_, hplain'⟩ := ofConfig_of_discovery hdiscovery'' u
  obtain ⟨rfl, -⟩ := Prod.mk.inj (Except.ok.inj (hx.symm.trans hx'))
  obtain ⟨hy, -⟩ := Prod.mk.inj (Except.ok.inj (hy.symm.trans hy'))
  obtain ⟨rfl, -⟩ := Prod.mk.inj (Except.ok.inj (hplain.symm.trans hplain'))
  have hsearch : y.discovery = discovery := by rw [hy]
  have hempty : y.state = .empty := by rw [hy]
  have hcache : y.cache? = some (ParseCache.load u (config.cacheDirIn root)).1 := by
    rw [hy]
    exact if_pos huse
  obtain ⟨hcached, hparsed⟩ := counts_indexAll (h.loadAll_eq hsearch hcache)
  have hfiles : ∀ file ∈ y.discovery.search u, ∃ content modified,
      u.find file = .ok (.file content modified) := by
    intro file hfile
    rw [hsearch] at hfile
    obtain ⟨content, modified, hfind, -⟩ := h.lookup_load file hfile
    use content, modified
  obtain ⟨hrecalled, hread⟩ := countLoads_recalledOf config.sealedTags hfiles
  refine ⟨?_, hcached.trans hrecalled, hparsed.trans hread⟩
  apply h.state_indexAll_eq hsearch hcache hempty <;> rfl

/-- The later indexer is told that the tag seals. -/
theorem indexAll_retagged_vault :
  let root : Path := ⟨"/ws"⟩
  let text : List UInt8 := "- job:\n    name: unit\n    secret: !vault plain\n".toUTF8.toList
  let t : FileTree := ⟨.directory [("ws", .directory [("zuul.yaml", .file text ⟨0⟩)])], [], ⟨0⟩, none⟩
  let config : IndexConfig := { IndexConfig.default with sealedTags := [] }
  ∃ u x y plain reported reported' reported'',
    config.useCache = true ∧ ofConfig t root config = .ok (x, reported) ∧ x.HandsOver t u ∧
    ofConfig u root { config with sealedTags := ["!vault"] } = .ok (y, reported') ∧
    ofConfig u root { config with useCache := false } = .ok (plain, reported'') ∧
    (y.indexAll u).1.state = (plain.indexAll u).1.state ∧
    (y.indexAll u).2.2.2.cachedFiles = (y.discovery.search u).length ∧
    (y.indexAll u).2.2.2.parsedFiles = 0
  := by
  intro root text t config
  obtain ⟨discovery, u, hdiscovery, hnone, h, -⟩ := handsOver_tagged
  obtain ⟨reported, hx⟩ := ofConfig_of_discovery hdiscovery t
  have hdiscovery' : Discovery.ofConfig root { config with sealedTags := ["!vault"] }
      = .ok discovery := hdiscovery
  have hdiscovery'' : Discovery.ofConfig root { config with useCache := false } = .ok discovery :=
    hdiscovery
  obtain ⟨reported', hy⟩ := ofConfig_of_discovery hdiscovery' u
  obtain ⟨reported'', hplain⟩ := ofConfig_of_discovery hdiscovery'' u
  rw [ParseCache.load_of_has_eq_false hnone] at hx
  exact ⟨u, _, _, _, reported, reported', reported'', rfl, hx, h, hy, hplain,
    indexAll_retagged rfl hx h ["!vault"] hy hplain⟩

/-! ### A tag that does not take effect -/

/-- A pass without a cache that finds one file puts its records into the index. -/
theorem state_indexAll_of_search (hempty : x.state = .empty) (hcache : x.cache? = none)
    {sealedTags : List String} (htags : x.config.sealedTags = sealedTags) {file : Path}
    (hsearch : x.discovery.search t = [file]) {content : List UInt8} {modified : FileTime}
    (hfind : t.find file = .ok (.file content modified)) :
  (x.indexAll t).1.state
    = (IndexState.empty.replaceFile file (Document.ofBytes sealedTags file content).1).1.markIndexed
  := by
  obtain ⟨load, hload, hdocument⟩ : ∃ load, outcomeOf sealedTags t file = (file, .ok load) ∧
      load.document = (Document.ofBytes sealedTags file content).1 := by
    rw [outcomeOf, loadFile, hfind]
    exact ⟨_, rfl, rfl⟩
  have hall : loadAll x.config.sealedTags t x.cache? (x.discovery.search t)
      = ([(file, .ok load)], none) := by
    rw [hcache, hsearch, htags, loadAll_none, List.map_singleton, hload]
  rw [state_indexAll hall hempty, ← hempty, ← hdocument]
  rfl

/-- The earlier indexer reads a value whose tag does not seal, and the later one, for which it does,
keeps the value. Without a cache it would be a group. -/
theorem indexAll_sealed_too_late :
  let root : Path := ⟨"/ws"⟩
  let text : List UInt8 := "- job:\n    name: unit\n    secret: !vault plain\n".toUTF8.toList
  let t : FileTree := ⟨.directory [("ws", .directory [("zuul.yaml", .file text ⟨0⟩)])], [], ⟨0⟩, none⟩
  let config : IndexConfig := { IndexConfig.default with sealedTags := [] }
  let config' : IndexConfig := { IndexConfig.default with sealedTags := ["!vault"] }
  let leaves (z : Indexer) : Option (List (String × String)) :=
    (z.state.jobs.get? "unit").map Job.leaves
  ∃ u x y plain reported reported' reported'',
    ofConfig t root config = .ok (x, reported) ∧ x.HandsOver t u ∧
    ofConfig u root config' = .ok (y, reported') ∧
    ofConfig u root { config' with useCache := false } = .ok (plain, reported'') ∧
    leaves (y.indexAll u).1 = some [("name", "unit"), ("secret", "plain")] ∧
    leaves (plain.indexAll u).1 = some [("name", "unit"), ("secret.0", "plain")]
  := by
  intro root text t config config' leaves
  obtain ⟨discovery, u, hdiscovery, hnone, h, hsearch, hfind⟩ := handsOver_tagged
  have hdiscovery' : Discovery.ofConfig root config' = .ok discovery := hdiscovery
  have hdiscovery'' : Discovery.ofConfig root { config' with useCache := false } = .ok discovery :=
    hdiscovery
  obtain ⟨reported, hx⟩ := ofConfig_of_discovery hdiscovery t
  obtain ⟨reported', hy⟩ := ofConfig_of_discovery hdiscovery' u
  obtain ⟨reported'', hplain⟩ := ofConfig_of_discovery hdiscovery'' u
  rw [ParseCache.load_of_has_eq_false hnone] at hx
  generalize hcached : Indexer.mk root config' discovery _ _ = y at hy
  generalize hlater : Indexer.mk root { config' with useCache := false } discovery _ _ = later
    at hplain
  refine ⟨u, _, y, later, reported, reported', reported'', hx, h, hy, hplain, ?_, ?_⟩
  · let earlier : Indexer := ⟨root, { config with useCache := false }, discovery, none, .empty⟩
    have hstate : (y.indexAll u).1.state = (earlier.indexAll u).1.state := by
      rw [← hcached]
      apply h.state_indexAll_eq <;> rfl
    have htags : earlier.config.sealedTags = [] := rfl
    dsimp only [leaves]
    rw [hstate, state_indexAll_of_search rfl rfl htags hsearch hfind]
    decide +kernel
  · have hempty : later.state = .empty := by rw [← hlater]
    have hcache : later.cache? = none := by
      rw [← hlater]
      rfl
    have htags : later.config.sealedTags = ["!vault"] := by rw [← hlater]
    have hfound : later.discovery = discovery := by rw [← hlater]
    rw [← hfound] at hsearch
    dsimp only [leaves]
    rw [state_indexAll_of_search hempty hcache htags hsearch hfind]
    decide +kernel

end Indexer

end JobIndex
