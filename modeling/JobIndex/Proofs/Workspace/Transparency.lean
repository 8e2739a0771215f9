import JobIndex.Proofs.Cache.Recall
import JobIndex.Proofs.Index.Spelling
import JobIndex.Proofs.Workspace.Rebuild
import JobIndex.Proofs.Workspace.Seclusion

/-!
# A cache makes no difference

Two indexers of a workspace do the same, one with a cache, which is stored and loaded again, and one
without; in between files are changed.

* The cache recalls the past at all times, in memory and in its file, so both read a file alike
  (`loadFile_alike`).
* Whatever both do keeps them in step (`Indexer.Mirrors.act`), and so do changes of files that leave
  the cache alone or spoil it (`Twins.InStep.perform`).
* So they hold the same after each step of any run (`Twins.run_sameView`).

The two need not see all the same files: the directory of the cache, which one of them makes, is of
no concern to the other as long as the way of no path concerned enters it
(`FileTree.SameOutside.alike`).
-/

namespace JobIndex

/-! ### Reading with and without a cache -/

/-- Two trees are the same for a search and for the paths concerned. -/
structure FileTree.Alike (d : Discovery) (watched : Path → Prop) (t u : FileTree) : Prop where
  search_eq : d.search u = d.search t
  find_eq : ∀ p, watched p → u.find p = t.find p

theorem FileTree.Alike.refl (d : Discovery) (watched : Path → Prop) (t : FileTree) :
  t.Alike d watched t
  := ⟨rfl, fun _ _ => rfl⟩

/-- A tree is like one that is the same outside of a directory, if the way of no path that the
patterns accept and of no other path concerned enters the directory. -/
theorem FileTree.SameOutside.alike {dir : Place} {t u : FileTree} {d : Discovery}
    {watched : Path → Prop} (h : SameOutside dir u t) (ht : t.root.WellFormed)
    (hu : u.root.WellFormed) (hlists : Ignore.LieOutside u dir)
    (haccepts : ∀ p, d.accepts p = true → watched p)
    (hwatched : ∀ p, watched p → ¬ u.Enters dir p) :
  t.Alike d watched u
  := by
  constructor
  · symm
    apply h.search_eq hu ht hlists
    exact fun p hp => hwatched p (haccepts p hp)
  · exact fun p hp => (h.find_eq (hwatched p hp)).symm

/-- Reading a file failed twice for the same reason, or gave records with one view. -/
inductive Outcome.Alike : Outcome → Outcome → Prop
  | error (file : Path) (e : IoError) : Alike (file, .error e) (file, .error e)
  | ok (file : Path) {load load' : Load} (h : load.document.SameView load'.document) :
    Alike (file, .ok load) (file, .ok load')

section

variable {watched : Path → Prop} {t u : FileTree} {past : List FileTree} {sealedTags : List String}
  {c : ParseCache}

/-- A file is read alike with a cache that recalls the past and without a cache. -/
theorem loadFile_alike (hc : c.Recalls sealedTags watched past) (ht : t ∈ past)
    (hpast : ∀ old ∈ past, old.Dates watched t) (hregular : t.Regular watched) {file : Path}
    (hfile : watched file) (hfind : u.find file = t.find file) :
  (∃ e, loadFile sealedTags t (some c) file = .error e ∧
    loadFile sealedTags u none file = .error e) ∨
  ∃ load load' c', loadFile sealedTags t (some c) file = .ok (load, some c') ∧
    loadFile sealedTags u none file = .ok (load', none) ∧
    load.document.SameView load'.document ∧ c'.Recalls sealedTags watched past
  := by
  unfold loadFile
  rw [hfind]
  cases hentry : t.find file with
  | error e => exact Or.inl ⟨e, rfl, rfl⟩
  | ok entry =>
      obtain ⟨content, modified, rfl, -⟩ := hregular file entry hfile hentry
      right
      dsimp only [FileTree.modified, cached?, Option.bind_some, Option.bind_none]
      cases hlookup : c.lookup file modified.millis with
      | some d =>
          refine ⟨_, _, c, rfl, rfl, ?_, hc⟩
          apply hc.sameView_of_lookup hpast hfile hentry hlookup
      | none =>
          refine ⟨_, _, _, rfl, rfl, ?_, hc.store ht hfile hentry⟩
          exact ⟨rfl, rfl⟩

/-- Files are read alike with a cache that recalls the past and without a cache. -/
theorem loadAll_alike (hc : c.Recalls sealedTags watched past) (ht : t ∈ past)
    (hpast : ∀ old ∈ past, old.Dates watched t) (hregular : t.Regular watched) {files : List Path}
    (hfiles : ∀ file ∈ files, watched file ∧ u.find file = t.find file) :
  ∃ outcomes outcomes' c', loadAll sealedTags t (some c) files = (outcomes, some c') ∧
    loadAll sealedTags u none files = (outcomes', none) ∧
    List.Forall₂ Outcome.Alike outcomes outcomes' ∧ c'.Recalls sealedTags watched past
  := by
  induction files generalizing c with
  | nil => exact ⟨[], [], c, rfl, rfl, .nil, hc⟩
  | cons file files ih =>
      obtain ⟨⟨hfile, hfind⟩, hrest⟩ := List.forall_mem_cons.mp hfiles
      rw [loadAll, loadAll]
      obtain ⟨e, he, he'⟩ | ⟨load, load', c', hload, hload', hview, hc'⟩ :=
        loadFile_alike hc ht hpast hregular hfile hfind
      · obtain ⟨outcomes, outcomes', d, hall, hall', halike, hd⟩ := ih hc hrest
        simp only [he, he', hall, hall']
        exact ⟨_, _, d, rfl, rfl, .cons (.error file e) halike, hd⟩
      · obtain ⟨outcomes, outcomes', d, hall, hall', halike, hd⟩ := ih hc' hrest
        simp only [hload, hload', hall, hall']
        exact ⟨_, _, d, rfl, rfl, .cons (.ok file hview) halike, hd⟩

end

/-! ### Actions -/

namespace Indexer

/-- What an indexer is told to do. -/
inductive Action where
  | indexAll
  | rebuild
  | change (file : Path) (kind : ChangeKind)
  | pathChange (path : Path)
  | saveCache
  /-- The indexer is dropped, and one with the same configuration takes its place. -/
  | reopen

/-- The paths that an action names. -/
def Action.paths : Action → List Path
  | .change file _ => [file]
  | .pathChange path => [path]
  | _ => []

/-- A new indexer with the same configuration. -/
def reopened (x : Indexer) (t : FileTree) : Indexer :=
  match ofConfig t x.root x.config with
  | .ok (y, _) => y
  | .error _ => x

/-- The indexer after an action, and the files, among which the cache may have been stored. -/
def act (x : Indexer) (t : FileTree) : Action → Indexer × FileTree
  | .indexAll => ((x.indexAll t).1, (x.indexAll t).2.1)
  | .rebuild => ((x.rebuild t).1, (x.rebuild t).2.1)
  | .change file kind => ((x.apply t file kind).1, t)
  | .pathChange path => ((x.pathChanged t path).1, t)
  | .saveCache => (x, (x.saveCache t).1)
  | .reopen => (x.reopened t, t)

/-- What stays the same: a workspace with a configuration that turns the cache on, the files that
belong to the index, and the paths concerned, among which these files are. -/
structure Setting where
  root : Path
  config : IndexConfig
  discovery : Discovery
  watched : Path → Prop
  useCache_eq : config.useCache = true
  discovery_eq : Discovery.ofConfig root config = .ok discovery
  watched_of_accepts : ∀ p, discovery.accepts p = true → watched p

/-- The directory of the cache. -/
def Setting.cacheDir (g : Setting) : Path :=
  g.config.cacheDirIn g.root

/-- The file of the cache. -/
def Setting.cacheFile (g : Setting) : Path :=
  ParseCache.filePath g.cacheDir

/-- The second indexer has no cache, and the first one has one that recalls the past; their indexes
have the same view. -/
inductive Mirrors (g : Setting) (past : List FileTree) : Indexer → Indexer → Prop
  | intro {c : ParseCache} {s s' : IndexState} (hc : c.Recalls g.config.sealedTags g.watched past)
    (hs : s.SameView s') :
    Mirrors g past ⟨g.root, g.config, g.discovery, some c, s⟩
      ⟨g.root, { g.config with useCache := false }, g.discovery, none, s'⟩

variable {g : Setting} {past : List FileTree} {x y : Indexer} {t u : FileTree}

theorem Mirrors.sameView (h : Mirrors g past x y) :
  x.state.SameView y.state
  := by
  obtain ⟨-, hs⟩ := h
  exact hs

theorem Mirrors.mono (h : Mirrors g past x y) {past' : List FileTree} (hpast : past ⊆ past') :
  Mirrors g past' x y
  := by
  obtain ⟨hc, hs⟩ := h
  exact ⟨hc.mono hpast, hs⟩

theorem Mirrors.remove (h : Mirrors g past x y) (file : Path) :
  Mirrors g past (x.remove file) (y.remove file)
  := by
  obtain ⟨hc, hs⟩ := h
  exact ⟨hc.invalidate file, hs.clearFile file⟩

theorem Mirrors.replace (h : Mirrors g past x y) (file : Path) {d d' : Document}
    (hd : d.SameView d') :
  Mirrors g past (x.replace file d).1 (y.replace file d').1
  := by
  obtain ⟨hc, hs⟩ := h
  exact ⟨hc, hs.replaceFile file hd⟩

/-! ### Changes of single files -/

/-- What has to be known of the files for an action: the past includes them, no path got other
content without a later time, and those that the second indexer sees are the same for both. -/
structure Present (g : Setting) (past : List FileTree) (t u : FileTree) : Prop where
  mem : t ∈ past
  dates : ∀ old ∈ past, old.Dates g.watched t
  regular : t.Regular g.watched
  alike : t.Alike g.discovery g.watched u

theorem Mirrors.fileCreated (h : Mirrors g past x y) (hnow : Present g past t u) {file : Path}
    (hfile : g.watched file) :
  Mirrors g past (x.fileCreated t file).1 (y.fileCreated u file).1
  := by
  obtain ⟨hc, hs⟩ := h
  unfold Indexer.fileCreated
  dsimp only
  obtain ⟨e, he, he'⟩ | ⟨load, load', c', hload, hload', hview, hc'⟩ :=
    loadFile_alike hc hnow.mem hnow.dates hnow.regular hfile (hnow.alike.find_eq file hfile)
  · rw [he, he']
    cases e <;> exact ⟨hc, hs⟩
  · rw [hload, hload']
    exact ⟨hc', hs.replaceFile file hview⟩

theorem Mirrors.fileChanged (h : Mirrors g past x y) (hnow : Present g past t u) {file : Path}
    (hfile : g.watched file) :
  Mirrors g past (x.fileChanged t file).1 (y.fileChanged u file).1
  := by
  obtain ⟨hc, hs⟩ := h
  have hmarked := hs.beginReindex file
  unfold Indexer.fileChanged
  dsimp only
  obtain ⟨e, he, he'⟩ | ⟨load, load', c', hload, hload', hview, hc'⟩ :=
    loadFile_alike hc hnow.mem hnow.dates hnow.regular hfile (hnow.alike.find_eq file hfile)
  · rw [he, he']
    cases e <;> exact ⟨hc.invalidate file, hmarked.clearFile file⟩
  · rw [hload, hload']
    exact ⟨hc', hmarked.replaceFile file hview⟩

theorem Mirrors.apply (h : Mirrors g past x y) (hnow : Present g past t u) {file : Path}
    (hfile : g.watched file) (kind : ChangeKind) :
  Mirrors g past (x.apply t file kind).1 (y.apply u file kind).1
  := by
  cases kind with
  | created => apply h.fileCreated hnow hfile
  | modified => apply h.fileChanged hnow hfile
  | deleted => apply h.remove

/-- Both indexers find the same kind of change. -/
theorem Mirrors.changeKind?_eq (h : Mirrors g past x y) (hnow : Present g past t u) {path : Path}
    (hpath : g.watched path) :
  y.changeKind? u path = x.changeKind? t path
  := by
  obtain ⟨hc, hs⟩ := h
  simp only [changeKind?, IndexState.status, hs.files, FileTree.has, hnow.alike.find_eq path hpath]

theorem Mirrors.pathChanged (h : Mirrors g past x y) (hnow : Present g past t u) {path : Path}
    (hpath : g.watched path) :
  Mirrors g past (x.pathChanged t path).1 (y.pathChanged u path).1
  := by
  rw [Indexer.pathChanged, Indexer.pathChanged, h.changeKind?_eq hnow hpath]
  cases x.changeKind? t path with
  | none => exact h
  | some kind => apply h.apply hnow hpath

/-! ### Full passes -/

theorem Mirrors.stale_eq (h : Mirrors g past x y) (found : List Path) :
  y.stale found = x.stale found
  := by
  rw [stale, stale, IndexState.tracked, IndexState.tracked, h.sameView.files]

theorem Mirrors.foldl_remove (h : Mirrors g past x y) (files : List Path) :
  Mirrors g past (files.foldl Indexer.remove x) (files.foldl Indexer.remove y)
  := by
  induction files generalizing x y with
  | nil => exact h
  | cons file files ih => apply ih (h.remove file)

theorem Mirrors.prune (h : Mirrors g past x y) (found : List Path) :
  Mirrors g past (x.prune found) (y.prune found)
  := by
  have hfold := h.foldl_remove (x.stale found)
  rw [Indexer.prune, Indexer.prune, h.stale_eq]
  generalize (x.stale found).foldl Indexer.remove x = x' at hfold
  generalize (x.stale found).foldl Indexer.remove y = y' at hfold
  obtain ⟨hc, hs⟩ := hfold
  exact ⟨hc.retain _, hs⟩

theorem Mirrors.putAll (h : Mirrors g past x y) {outcomes outcomes' : List Outcome}
    (houtcomes : List.Forall₂ Outcome.Alike outcomes outcomes') :
  Mirrors g past (x.putAll outcomes).1 (y.putAll outcomes').1
  := by
  induction houtcomes generalizing x y with
  | nil => exact h
  | cons houtcome _ ih =>
      cases houtcome with
      | error file e => apply ih (h.remove file)
      | ok file hview => apply ih (h.replace file hview)

theorem Mirrors.markIndexed (h : Mirrors g past x y) :
  Mirrors g past { x with state := x.state.markIndexed } { y with state := y.state.markIndexed }
  := by
  obtain ⟨hc, hs⟩ := h
  exact ⟨hc, hs.markIndexed⟩

theorem Mirrors.indexAll (h : Mirrors g past x y) (hnow : Present g past t u) :
  Mirrors g past (x.indexAll t).1 (y.indexAll u).1
  := by
  obtain ⟨hc, hs⟩ := h
  have hfound : ∀ file ∈ g.discovery.search t, g.watched file ∧ u.find file = t.find file := by
    intro file hfile
    rw [Discovery.search, Path.sort, List.mem_mergeSort, List.mem_filter, Bool.and_eq_true] at hfile
    have hwatched := g.watched_of_accepts file hfile.2.1
    exact ⟨hwatched, hnow.alike.find_eq file hwatched⟩
  obtain ⟨outcomes, outcomes', c', hall, hall', halike, hc'⟩ :=
    loadAll_alike hc hnow.mem hnow.dates hnow.regular hfound
  unfold Indexer.indexAll
  dsimp only
  rw [hnow.alike.search_eq, hall, hall']
  have hread : Mirrors g past _ _ := .intro hc' hs
  apply ((hread.prune _).putAll halike).markIndexed

theorem Mirrors.rebuild (h : Mirrors g past x y) (hnow : Present g past t u) :
  Mirrors g past (x.rebuild t).1 (y.rebuild u).1
  := by
  obtain ⟨hc, hs⟩ := h
  have hempty : Mirrors g past _ _ :=
    .intro (ParseCache.recalls_empty _ _ past) (IndexState.sameView_refl .empty)
  apply hempty.indexAll hnow

/-! ### Storing and loading the cache -/

/-- What is stored of the cache recalls the past, if it is stored at all. -/
theorem Mirrors.saveCache (h : Mirrors g past x y) (hpast : ∀ old ∈ past, old.Regular g.watched)
    (hsize : ∀ bytes, (x.saveCache t).1.contentOf g.cacheFile = .ok bytes → bytes.length < 2 ^ 64) :
  ParseCache.StoredRecalls (x.saveCache t).1 g.cacheDir g.config.sealedTags g.watched past
  := by
  obtain ⟨hc, -⟩ := h
  apply hc.save hpast hsize

/-- A new indexer with a cache has the stored one. -/
theorem Setting.ofConfig_eq (g : Setting) (t : FileTree) :
  ofConfig t g.root g.config
    = .ok (⟨g.root, g.config, g.discovery, some (ParseCache.load t g.cacheDir).1, .empty⟩,
        (ParseCache.load t g.cacheDir).2)
  := by
  simp only [ofConfig, g.discovery_eq, g.useCache_eq, if_true]
  rfl

theorem Setting.ofConfig_plain_eq (g : Setting) (u : FileTree) :
  ofConfig u g.root { g.config with useCache := false }
    = .ok (⟨g.root, { g.config with useCache := false }, g.discovery, none, .empty⟩, [])
  := by
  have hdiscovery : Discovery.ofConfig g.root { g.config with useCache := false }
      = .ok g.discovery := g.discovery_eq
  simp only [ofConfig, hdiscovery, Bool.false_eq_true, if_false]

/-- New indexers are in step, if the stored cache recalls the past. -/
theorem mirrors_of_ofConfig {reported reported' : List Diagnostic}
    (hx : ofConfig t g.root g.config = .ok (x, reported))
    (hy : ofConfig u g.root { g.config with useCache := false } = .ok (y, reported'))
    (hstored : ParseCache.StoredRecalls t g.cacheDir g.config.sealedTags g.watched past) :
  Mirrors g past x y
  := by
  rw [g.ofConfig_eq] at hx
  rw [g.ofConfig_plain_eq] at hy
  obtain ⟨rfl, -⟩ := Prod.mk.inj (Except.ok.inj hx)
  obtain ⟨rfl, -⟩ := Prod.mk.inj (Except.ok.inj hy)
  exact ⟨hstored.load, IndexState.sameView_refl _⟩

theorem Mirrors.reopened (h : Mirrors g past x y)
    (hstored : ParseCache.StoredRecalls t g.cacheDir g.config.sealedTags g.watched past) :
  Mirrors g past (x.reopened t) (y.reopened u)
  := by
  obtain ⟨hc, hs⟩ := h
  rw [Indexer.reopened, Indexer.reopened, g.ofConfig_eq, g.ofConfig_plain_eq]
  exact ⟨hstored.load, IndexState.sameView_refl _⟩

/-- An action keeps both indexers in step, and the stored cache in step with the past. -/
theorem Mirrors.act (h : Mirrors g past x y) (hnow : Present g past t u)
    (hpast : ∀ old ∈ past, old.Regular g.watched)
    (hstored : ParseCache.StoredRecalls t g.cacheDir g.config.sealedTags g.watched past)
    {a : Action} (hpaths : ∀ path ∈ a.paths, g.watched path)
    (hsize : ∀ bytes, (x.act t a).2.contentOf g.cacheFile = .ok bytes → bytes.length < 2 ^ 64) :
  Mirrors g past (x.act t a).1 (y.act u a).1 ∧
    ParseCache.StoredRecalls (x.act t a).2 g.cacheDir g.config.sealedTags g.watched past
  := by
  cases a with
  | indexAll =>
      have hpass := h.indexAll hnow
      exact ⟨hpass, hpass.saveCache hpast hsize⟩
  | rebuild =>
      have hpass := h.rebuild hnow
      exact ⟨hpass, hpass.saveCache hpast hsize⟩
  | change file kind =>
      exact ⟨h.apply hnow (hpaths file List.mem_cons_self) kind, hstored⟩
  | pathChange path =>
      exact ⟨h.pathChanged hnow (hpaths path List.mem_cons_self), hstored⟩
  | saveCache => exact ⟨h, h.saveCache hpast hsize⟩
  | reopen => exact ⟨h.reopened hstored, hstored⟩

end Indexer

/-! ### Runs -/

/-- An indexer with a cache and one without, and the files that each of them sees. -/
structure Twins where
  cached : Indexer
  plain : Indexer
  files : FileTree
  others : FileTree

namespace Twins

/-- A step: the files are changed, or both indexers do the same. In a workspace that they share, a
change shows the second one what the first one has stored. -/
inductive Step where
  | edit (files others : FileTree)
  | act (a : Indexer.Action)

/-- The twins after a step. -/
def perform (w : Twins) : Step → Twins
  | .edit files others => { w with files, others }
  | .act a =>
    { cached := (w.cached.act w.files a).1
      plain := (w.plain.act w.others a).1
      files := (w.cached.act w.files a).2
      others := (w.plain.act w.others a).2 }

/-- The twins after steps. -/
def run (w : Twins) (steps : List Step) : Twins :=
  steps.foldl perform w

/-- The files at all moments of a run, as the indexer with the cache sees them. -/
def moments (w : Twins) : List Step → List FileTree
  | [] => [w.files]
  | step :: steps => w.files :: (w.perform step).moments steps

/-- What a step must not do, after a past that ends with the present. Nobody but the indexer makes
its cache: the file may be removed, spoiled or put back, but it never holds anything of use that it
has not held before. And when the indexers do something, both see the same: the search and the paths
concerned lead to the same files, and all paths that are named are among these. -/
def Allows (g : Indexer.Setting) (past : List FileTree) (w : Twins) : Step → Prop
  | .edit files _ => ∀ bytes, files.contentOf g.cacheFile = .ok bytes →
      (∃ old ∈ past, old.contentOf g.cacheFile = .ok bytes) ∨
      ∃ d, ParseCache.ofBytes bytes = .error d
  | .act a => w.files.Alike g.discovery g.watched w.others ∧ ∀ path ∈ a.paths, g.watched path

/-- All steps of a run are allowed, after what happened before. -/
def AllowsAll (g : Indexer.Setting) (past : List FileTree) (w : Twins) : List Step → Prop
  | [] => True
  | step :: steps =>
    w.Allows g (past ++ [w.files]) step ∧
      (w.perform step).AllowsAll g (past ++ [w.files]) steps

/-- Whenever the content of a path differs between two moments its time is later at the second one,
paths that lead anywhere lead to files, and all steps are allowed. -/
structure Orderly (g : Indexer.Setting) (w : Twins) (steps : List Step) : Prop where
  dates : (w.moments steps).Pairwise (FileTree.Dates g.watched)
  regular : ∀ t ∈ w.moments steps, t.Regular g.watched
  cache_small : ∀ t ∈ w.moments steps, ∀ bytes, t.contentOf g.cacheFile = .ok bytes →
    bytes.length < 2 ^ 64
  allowed : w.AllowsAll g [] steps

/-- The twins are in step, and whatever cache has been stored so far recalls the past. -/
structure InStep (g : Indexer.Setting) (past : List FileTree) (w : Twins) : Prop where
  mirrors : Indexer.Mirrors g past w.cached w.plain
  stored : ∀ t ∈ past ++ [w.files],
    ParseCache.StoredRecalls t g.cacheDir g.config.sealedTags g.watched past

variable {g : Indexer.Setting} {past : List FileTree} {w : Twins}

/-- A step that is allowed keeps the twins in step; the files before it then belong to the past. -/
theorem InStep.perform (h : w.InStep g past) {step : Step}
    (hallows : w.Allows g (past ++ [w.files]) step)
    (hdates : ∀ old ∈ past, old.Dates g.watched w.files)
    (hregular : ∀ old ∈ past ++ [w.files], old.Regular g.watched)
    (hsmall : ∀ bytes, (w.perform step).files.contentOf g.cacheFile = .ok bytes →
      bytes.length < 2 ^ 64) :
  (w.perform step).InStep g (past ++ [w.files])
  := by
  have hlast : w.files ∈ past ++ [w.files] := List.mem_append_right past List.mem_cons_self
  have hpast : past ⊆ past ++ [w.files] := List.subset_append_left past [w.files]
  have hmirrors := h.mirrors.mono hpast
  have hstored : ∀ t ∈ past ++ [w.files], ParseCache.StoredRecalls t g.cacheDir
      g.config.sealedTags g.watched (past ++ [w.files]) := by
    intro t ht bytes d hbytes hd
    apply (h.stored t ht bytes d hbytes hd).mono hpast
  obtain ⟨hnext, hnew⟩ : Indexer.Mirrors g (past ++ [w.files]) (w.perform step).cached
        (w.perform step).plain ∧
      ParseCache.StoredRecalls (w.perform step).files g.cacheDir g.config.sealedTags g.watched
        (past ++ [w.files]) := by
    cases step with
    | edit files others =>
        refine ⟨hmirrors, ?_⟩
        intro bytes d hbytes hd
        obtain ⟨old, hold, hkept⟩ | ⟨discard, hspoiled⟩ := hallows bytes hbytes
        · apply hstored old hold bytes d hkept hd
        · rw [hspoiled] at hd
          cases hd
    | act a =>
        obtain ⟨halike, hpaths⟩ := hallows
        have hnow : Indexer.Present g (past ++ [w.files]) w.files w.others := by
          refine ⟨hlast, ?_, hregular _ hlast, halike⟩
          intro old hold
          obtain hold | hold := List.mem_append.mp hold
          · apply hdates old hold
          · rw [List.mem_singleton.mp hold]
            apply FileTree.dates_refl
        apply hmirrors.act hnow hregular (hstored _ hlast) hpaths hsmall
  refine ⟨hnext, ?_⟩
  intro t ht
  obtain ht | ht := List.mem_append.mp ht
  · apply hstored t ht
  · rw [List.mem_singleton.mp ht]
    exact hnew

/-- Twins that are in step have the same view after each step of a run. -/
theorem InStep.sameView_run (h : w.InStep g past) {steps : List Step}
    (hdates : (past ++ w.moments steps).Pairwise (FileTree.Dates g.watched))
    (hregular : ∀ t ∈ past ++ w.moments steps, t.Regular g.watched)
    (hsmall : ∀ t ∈ w.moments steps, ∀ bytes,
      t.contentOf g.cacheFile = .ok bytes → bytes.length < 2 ^ 64)
    (hallowed : w.AllowsAll g past steps) :
  ∀ done, done <+: steps → (w.run done).cached.state.SameView (w.run done).plain.state
  := by
  induction steps generalizing past w with
  | nil =>
      intro done hdone
      rw [List.prefix_nil.mp hdone]
      apply h.mirrors.sameView
  | cons step steps ih =>
      intro done hdone
      cases done with
      | nil => apply h.mirrors.sameView
      | cons first done =>
          obtain ⟨rfl, hrest⟩ := List.cons_prefix_cons.mp hdone
          have hnext : (w.perform first).files ∈ (w.perform first).moments steps := by
            cases steps <;> exact List.mem_cons_self
          rw [moments] at hdates hregular hsmall
          rw [List.append_cons] at hdates hregular
          have hbefore : ∀ old ∈ past, old.Dates g.watched w.files := by
            intro old hold
            obtain ⟨hpast, -, -⟩ := List.pairwise_append.mp hdates
            apply (List.pairwise_append.mp hpast).2.2 old hold w.files List.mem_cons_self
          have hstep : (w.perform first).InStep g (past ++ [w.files]) := by
            apply h.perform hallowed.1 hbefore
            · intro old hold
              apply hregular old (List.mem_append_left _ hold)
            · apply hsmall _ (List.mem_cons_of_mem _ hnext)
          apply ih hstep hdates hregular
          · intro t ht
            apply hsmall t (List.mem_cons_of_mem _ ht)
          · exact hallowed.2
          · exact hrest

/-- Whatever happens in between, an indexer with a cache and one without a cache that do the same
hold the same after each step. -/
theorem run_sameView (g : Indexer.Setting) {t u : FileTree} {x y : Indexer}
    {reported reported' : List Diagnostic} {steps : List Step}
    (hcached : Indexer.ofConfig t g.root g.config = .ok (x, reported))
    (hplain : Indexer.ofConfig u g.root { g.config with useCache := false } = .ok (y, reported'))
    (hnone : t.has g.cacheFile = false) (horderly : Orderly g ⟨x, y, t, u⟩ steps) :
  ∀ done, done <+: steps →
    (run ⟨x, y, t, u⟩ done).cached.state.SameView (run ⟨x, y, t, u⟩ done).plain.state
  := by
  have hstored : ParseCache.StoredRecalls t g.cacheDir g.config.sealedTags g.watched [] := by
    intro bytes d hbytes
    exact absurd hbytes (FileTree.contentOf_ne_ok hnone bytes)
  have hstart : InStep g [] ⟨x, y, t, u⟩ := by
    refine ⟨Indexer.mirrors_of_ofConfig hcached hplain hstored, ?_⟩
    intro v hv
    rw [List.mem_singleton.mp hv]
    exact hstored
  apply hstart.sameView_run horderly.dates horderly.regular horderly.cache_small horderly.allowed

/-- A full pass finds a file and stores the cache, a new indexer finds the records there under
another spelling, and then the file is changed and the cache is lost; the other indexer sees no
cache. -/
theorem run_sameView_restored :
  let file : Path := ⟨"/ws/zuul.yaml"⟩
  let respelled : Path := ⟨"/ws/./zuul.yaml"⟩
  let unit : List UInt8 := "- job:\n    name: unit\n".toUTF8.toList
  let lint : List UInt8 := "- job:\n    name: lint\n".toUTF8.toList
  let tree : List UInt8 → FileTime → FileTree := fun content modified =>
    ⟨.directory [("ws", .directory [("zuul.yaml", .file content modified)])], ["ws"], .ofMillis 9,
      none⟩
  let t : FileTree := tree unit (.ofMillis 5)
  let u : FileTree := tree lint (.ofMillis 7)
  let steps : List Step := [.act .indexAll, .act .reopen, .act (.change respelled .created),
    .edit u u, .act (.change file .modified)]
  ∃ (g : Indexer.Setting) (x y : Indexer) (reported reported' : List Diagnostic),
    g.root = ⟨"/ws"⟩ ∧ g.config = { IndexConfig.default with filePatterns := ["zuul.yaml"] } ∧
    Indexer.ofConfig t g.root g.config = .ok (x, reported) ∧
    Indexer.ofConfig t g.root { g.config with useCache := false } = .ok (y, reported') ∧
    t.has g.cacheFile = false ∧ g.discovery.search t = [file] ∧
    (x.act t .indexAll).2.has g.cacheFile = true ∧ Orderly g ⟨x, y, t, t⟩ steps ∧
    ∀ done, done <+: steps →
      (run ⟨x, y, t, t⟩ done).cached.state.SameView (run ⟨x, y, t, t⟩ done).plain.state
  := by
  intro file respelled unit lint tree t u steps
  let root : Path := ⟨"/ws"⟩
  let config : IndexConfig := { IndexConfig.default with filePatterns := ["zuul.yaml"] }
  let dir : Place := ["ws", ".zuul-index"]
  let cache : ParseCache := ParseCache.empty.store file (FileTime.ofMillis 5).millis
    (Document.ofBytes config.sealedTags file unit).1
  let saved : FileTree := (cache.save t (config.cacheDirIn root)).1
  obtain ⟨hchecked, hfind, hnone, hgone, hstored, hsize⟩ :
      ((Discovery.ofConfig root config).toOption.any fun d =>
        d.accepts file && d.accepts respelled && (((d.walk t).filter fun q =>
          d.accepts q && d.isSmall t q).map Path.spelling == [file.spelling])) = true ∧
      t.find file = .ok (.file unit (.ofMillis 5)) ∧
      t.has (ParseCache.filePath (config.cacheDirIn root)) = false ∧
      u.has (ParseCache.filePath (config.cacheDirIn root)) = false ∧
      saved.has (ParseCache.filePath (config.cacheDirIn root)) = true ∧
      cache.toBytes.length < 2 ^ 64 := by
    decide +kernel
  have hwell : saved.root.WellFormed := by decide +kernel
  -- the cache is stored in its directory only
  have hsaved : FileTree.SameOutside dir t saved := by
    apply cache.sameOutside_save <;> decide +kernel
  obtain ⟨discovery, hdiscovery, hchecked⟩ := exists_ok_of_any hchecked
  rw [Bool.and_eq_true, Bool.and_eq_true] at hchecked
  obtain ⟨⟨hfile, hrespelled⟩, hsearch⟩ := hchecked
  have hsearch := Discovery.search_eq_singleton hsearch
  -- the ways of all paths that are accepted
  let ways : List (List Path.Part) := [root.parts ++ [.name "zuul.yaml"], [.name "zuul.yaml"]]
  have hways : ∀ p, discovery.accepts p = true → p.parts ∈ ways := by
    intro p hp
    rw [List.mem_cons, List.mem_singleton]
    apply Discovery.parts_of_accepts hdiscovery rfl _ _ _ hp <;> decide
  have hout : ∀ p, discovery.accepts p = true → ¬ t.Enters dir p := by
    intro p hp hin
    have hpassed : ∀ way ∈ ways, ∀ parts ∈ way.inits, ∀ start ∈ [[], t.here],
        ¬ dir <+: parts.foldl FileTree.follow start := by
      decide
    have hway := hways p hp
    have hspelling : p.spelling ≠ "" := by
      intro hempty
      rw [Path.parts_of_spelling_eq hempty] at hway
      exact absurd hway (by decide)
    obtain ⟨parts, hprefix, hin⟩ := hin.exists_parts hspelling
    apply hpassed _ hway parts ((List.mem_inits _ _).mpr hprefix) (t.start p) _ hin
    rw [FileTree.start]
    split <;> simp
  let watched : Path → Prop := fun p => discovery.accepts p = true
  have hfound : ∀ content modified, (tree content modified).LeadsOnlyTo content modified
      watched := by
    intro content modified p e hp hfind
    obtain ⟨target, htarget, hget⟩ := FileTree.get?_of_find hfind
    have hleads : ∀ way ∈ ways, way.foldl FileTree.follow t.here = ["ws", "zuul.yaml"] := by
      decide
    rw [← FileTree.foldl_follow_of_place htarget,
      show (tree content modified).here = t.here from rfl, hleads _ (hways p hp)] at hget
    exact (Option.some.inj hget).symm
  let g : Indexer.Setting := ⟨root, config, discovery, watched, rfl, hdiscovery, fun _ => id⟩
  replace hnone : t.has g.cacheFile = false := hnone
  replace hgone : u.has g.cacheFile = false := hgone
  have hx := g.ofConfig_eq t
  have hy := g.ofConfig_plain_eq t
  rw [ParseCache.load_of_has_eq_false hnone] at hx
  generalize hcached : Indexer.mk g.root g.config g.discovery (some .empty) .empty = x at hx
  generalize hplain : Indexer.mk g.root _ g.discovery none .empty = y at hy
  have hstores : (x.act t .indexAll).2 = saved := by
    show ((x.indexAll t).1.saveCache t).1 = saved
    rw [← hcached, Indexer.saveCache_indexAll_of_singleton (by decide) rfl rfl hsearch hfind]
  have hspares : (y.act t .indexAll).2 = t := by
    obtain ⟨outcomes, hall⟩ : ∃ outcomes, loadAll y.config.sealedTags t y.cache?
        (y.discovery.search t) = (outcomes, none) := by
      rw [← hplain]
      exact ⟨_, loadAll_none ..⟩
    show ((y.indexAll t).1.saveCache t).1 = t
    rw [Indexer.indexAll_eq_with hall (by rw [← hplain])]
    rfl
  -- what the paths concerned lead to at all moments
  have hmoments : moments ⟨x, y, t, t⟩ steps = [t, saved, saved, saved] ++ [u, u] := by
    rw [← hstores]
    rfl
  have hbefore : ∀ v ∈ [t, saved, saved, saved], v.LeadsOnlyTo unit (.ofMillis 5) watched := by
    have ht := hfound unit (.ofMillis 5)
    have hsaved : saved.LeadsOnlyTo unit (.ofMillis 5) watched := by
      intro p e hp he
      rw [hsaved.find_eq (hout p hp)] at he
      exact ht p e hp he
    simp only [List.forall_mem_cons]
    exact ⟨ht, hsaved, hsaved, hsaved, List.forall_mem_nil _⟩
  have hafter : ∀ v ∈ [u, u], v.LeadsOnlyTo lint (.ofMillis 7) watched := by
    have hu := hfound lint (.ofMillis 7)
    simp only [List.forall_mem_cons]
    exact ⟨hu, hu, List.forall_mem_nil _⟩
  have horderly : Orderly g ⟨x, y, t, t⟩ steps := by
    constructor
    · rw [hmoments]
      apply FileTree.pairwise_dates_append hbefore hafter (by decide)
    · rw [hmoments]
      intro v hv
      obtain hv | hv := List.mem_append.mp hv
      · apply (hbefore v hv).regular
        decide +kernel
      · apply (hafter v hv).regular
        decide +kernel
    · rw [hmoments]
      simp only [List.cons_append, List.nil_append, List.forall_mem_cons]
      have hbytes : ∀ bytes, saved.contentOf g.cacheFile = .ok bytes → bytes.length < 2 ^ 64 := by
        intro bytes hbytes
        rw [ParseCache.contentOf_save cache t _ hbytes]
        exact hsize
      refine ⟨?_, hbytes, hbytes, hbytes, ?_, ?_, List.forall_mem_nil _⟩
      · exact fun _ h => absurd h (FileTree.contentOf_ne_ok hnone _)
      · exact fun _ h => absurd h (FileTree.contentOf_ne_ok hgone _)
      · exact fun _ h => absurd h (FileTree.contentOf_ne_ok hgone _)
    · have hlists : Ignore.LieOutside t dir := by
        refine ⟨by decide, ?_⟩
        intro place hplace
        cases hplace
      have hfiles : (x.act t .indexAll).2.Alike discovery watched (y.act t .indexAll).2 := by
        rw [hstores, hspares]
        apply hsaved.alike hwell (by decide) hlists (fun _ => id) hout
      refine ⟨⟨.refl _ _ t, ?_⟩, ⟨hfiles, ?_⟩, ⟨hfiles, ?_⟩, ?_, ⟨.refl _ _ u, ?_⟩, trivial⟩
      · apply List.forall_mem_nil
      · apply List.forall_mem_nil
      · intro path h
        rw [List.mem_singleton.mp h]
        exact hrespelled
      · exact fun bytes h => absurd h (FileTree.contentOf_ne_ok hgone _)
      · intro path h
        rw [List.mem_singleton.mp h]
        exact hfile
  refine ⟨g, x, y, _, _, rfl, rfl, hx, hy, hnone, hsearch, ?_, horderly,
    run_sameView g hx hy hnone horderly⟩
  rw [hstores]
  exact hstored

end Twins

end JobIndex
