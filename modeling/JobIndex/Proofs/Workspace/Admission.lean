import JobIndex.Proofs.Index.History
import JobIndex.Proofs.Workspace.Convergence
import JobIndex.Proofs.Workspace.Search

/-!
# Which files changes let into the index

Full passes and changes choose files in different ways. A change of a path lets it in by the
patterns alone, and keeps what the index has; a full pass also looks at what is ignored and at the
sizes of files.

* A path spelled as a search spells it leads to a file below the root, and a search walks to that
  file unless it is ignored (`Discovery.mem_walk_of_find`).
* The files in an index are those that a search has found or a change has let in
  (`Indexer.Has.run`).
* So after a change of a path the index has it if it leads to something and the patterns accept it,
  and a search leaves out of this what is ignored or too large (`Indexer.pathChanged_admits`).
-/

namespace JobIndex

/-! ### Paths as a search spells them -/

namespace Discovery

variable {d : Discovery} {t : FileTree} {p q : Path}

/-- A path is spelled as the root followed by names. -/
def Spells (d : Discovery) (p : Path) : Prop :=
  d.root.spelling ≠ "" ∧
    ∃ names : Place, (∀ name ∈ names, FileNode.IsName name) ∧ p = pathOf d.root names

/-- A path below the root is ignored, or something on the way to it. -/
def Ignores (d : Discovery) (t : FileTree) (p : Path) : Prop :=
  ∃ place names, t.place d.root = .ok place ∧ (∀ name ∈ names, FileNode.IsName name) ∧
    p = pathOf d.root names ∧ Ignore.isReached t place names = false

/-- A path is spelled in one such way only. -/
theorem Spells.eq_of_beq (hp : d.Spells p) (hq : d.Spells q) (h : (p == q) = true) :
  p = q
  := by
  obtain ⟨-, names, hnames, rfl⟩ := hp
  obtain ⟨-, names', hnames', rfl⟩ := hq
  rw [names_eq_of_beq hnames hnames' h]

/-- In a well-formed tree all paths of a walk are spelled in this way, and none is ignored. -/
theorem of_mem_walk (ht : t.root.WellFormed) (h : p ∈ d.walk t) :
  d.Spells p ∧ ¬ d.Ignores t p
  := by
  unfold walk at h
  split at h
  · cases h
  · next place hplace =>
    have hroot : d.root.spelling ≠ "" :=
      (FileTree.check_eq_ok_iff.mp (FileTree.place_eq_ok_iff.mp hplace).1).2
    -- there is one way only to spell the path, and its names are reached
    have hreached : ∀ {names : Place}, (∀ name ∈ names, FileNode.IsName name) →
        Ignore.isReached t place names = true →
        d.Spells (pathOf d.root names) ∧ ¬ d.Ignores t (pathOf d.root names) := by
      intro names hnames hreached
      refine ⟨⟨hroot, names, hnames, rfl⟩, ?_⟩
      rintro ⟨place', names', hplace', hnames', heq, hignored⟩
      have hsame := names_eq_of_beq hnames hnames' (Path.beq_iff_parts.mpr (congrArg _ heq))
      rw [hplace] at hplace'
      cases hplace'
      rw [← hsame, hreached] at hignored
      cases hignored
    split at h
    · cases h
    · obtain ⟨names, hmem, rfl⟩ := List.mem_map.mp h
      obtain ⟨hbelow, hnames⟩ := List.mem_filter.mp hmem
      exact hreached (FileTree.isName_of_mem_filesBelow ht hbelow) hnames
    · rw [List.mem_singleton.mp h]
      exact @hreached [] (fun _ hname => (nomatch hname)) rfl

/-- A walk leads to every file below the root that is not ignored, whether or not it can be read. -/
theorem mem_walk_of_find {e : FileEntry} (hp : d.Spells p) (hfind : t.find p = .ok e)
    (he : e ≠ .directory) (hkept : ¬ d.Ignores t p) :
  p ∈ d.walk t
  := by
  obtain ⟨hroot, names, hnames, rfl⟩ := hp
  obtain ⟨target, htarget, hget⟩ := FileTree.get?_of_find hfind
  obtain ⟨place, hplace, rfl⟩ := FileTree.place_of_place_pathOf hroot hnames htarget
  have hreached : Ignore.isReached t place names = true := by
    rw [← Bool.not_eq_false]
    intro hignored
    exact hkept ⟨place, names, hplace, hnames, rfl, hignored⟩
  rw [walk, hplace]
  dsimp only
  by_cases hnil : names = []
  · subst hnil
    rw [List.append_nil] at hget
    rw [hget]
    cases e with
    | directory => exact absurd rfl he
    | file content modified => apply List.mem_singleton_self
    | unreadable size modified reason => apply List.mem_singleton_self
  · have hbelow := FileTree.mem_filesBelow hnil he hget
    rw [FileTree.directory_of_mem_filesBelow hbelow]
    exact List.mem_map_of_mem (List.mem_filter.mpr ⟨hbelow, hreached⟩)

/-- A search finds such a path under no other spelling. -/
theorem finds_iff_mem_search (ht : t.root.WellFormed) (hp : d.Spells p) :
  d.finds t p = true ↔ p ∈ d.search t
  := by
  constructor
  · intro hfound
    obtain ⟨q, hq, hqp⟩ := List.any_eq_true.mp hfound
    rwa [← (of_mem_walk ht (mem_search.mp hq).1).1.eq_of_beq hp hqp]
  · intro hmem
    exact List.any_eq_true.mpr ⟨p, hmem, BEq.rfl⟩

theorem finds_eq_any_walk (d : Discovery) (t : FileTree) (p : Path) :
  d.finds t p = (d.walk t).any fun q => d.accepts q && d.isSmall t q && q == p
  := by
  rw [finds, search, Path.sort, (List.mergeSort_perm _ _).any_eq, List.any_filter]

end Discovery

/-! ### The files in an index -/

namespace IndexState

variable {P : Path → Prop} {s : IndexState} {file : Path}

/-- All files of an index are of one sort, in the spelling by which they came in, and none is about
to be read again. -/
structure HasOnly (P : Path → Prop) (s : IndexState) : Prop where
  indexed : s.AllIndexed
  keys : ∀ file ∈ s.files.keys, P file

theorem hasOnly_empty (P : Path → Prop) :
  empty.HasOnly P
  := ⟨fun _ _ h => (nomatch h), fun _ h => (nomatch h)⟩

theorem HasOnly.clearFile (h : s.HasOnly P) (file : Path) :
  (s.clearFile file).1.HasOnly P
  := by
  refine ⟨h.indexed.clearFile file, ?_⟩
  intro other hother
  apply h.keys
  exact (List.filter_sublist.map Prod.fst).subset hother

/-- A file that is already in the index keeps its spelling. -/
theorem HasOnly.replaceFile (h : s.HasOnly P) (hfile : s.isTracked file = true ∨ P file)
    (d : Document) :
  (s.replaceFile file d).1.HasOnly P
  := by
  refine ⟨h.indexed.replaceFile file d, ?_⟩
  intro other hother
  have hkeys : other ∈ if s.isTracked file then s.files.keys else s.files.keys ++ [file] :=
    Table.keys_put s.files file FileStatus.indexed ▸ hother
  split at hkeys
  · apply h.keys other hkeys
  · next huntracked =>
    obtain hkey | hkey := List.mem_append.mp hkeys
    · apply h.keys other hkey
    · rw [List.mem_singleton.mp hkey]
      apply hfile.resolve_left huntracked

theorem HasOnly.exists_of_isTracked (h : s.HasOnly P) (hfile : s.isTracked file = true) :
  ∃ q, (q == file) = true ∧ P q
  := by
  obtain ⟨e, he, heq⟩ := List.any_eq_true.mp hfile
  exact ⟨e.1, heq, h.keys e.1 (List.mem_map_of_mem he)⟩

end IndexState

/-! ### Runs -/

theorem map_fst_loadAll (sealedTags : List String) (t : FileTree) (cache? : Option ParseCache)
    (files : List Path) :
  (loadAll sealedTags t cache? files).1.map Prod.fst = files
  := by
  induction files generalizing cache? with
  | nil => rfl
  | cons file files ih =>
      rw [loadAll]
      split
      · exact congrArg _ (ih _)
      · exact congrArg _ (ih _)

/-- A file that can be read is loaded, whatever cache there is. -/
theorem exists_loadFile_eq_ok {t : FileTree} {file : Path} {content : List UInt8}
    (h : t.contentOf file = .ok content) (sealedTags : List String) (cache? : Option ParseCache) :
  ∃ loaded, loadFile sealedTags t cache? file = .ok loaded
  := by
  obtain ⟨modified, hfind⟩ := FileTree.find_of_contentOf h
  rw [loadFile, hfind]
  dsimp only
  split
  · exact ⟨_, rfl⟩
  · exact ⟨_, rfl⟩

namespace Indexer

variable {d : Discovery} {P : Path → Prop} {x : Indexer} {t : FileTree} {file : Path}

/-- An indexer chooses files by `d`, and all files in its index are of one sort. -/
structure Has (d : Discovery) (P : Path → Prop) (x : Indexer) : Prop where
  discovery_eq : x.discovery = d
  state : x.state.HasOnly P

theorem Has.withCache (h : x.Has d P) (cache? : Option ParseCache) :
  { x with cache? }.Has d P
  := ⟨h.discovery_eq, h.state⟩

theorem Has.remove (h : x.Has d P) (file : Path) :
  (x.remove file).Has d P
  := ⟨h.discovery_eq, h.state.clearFile file⟩

theorem Has.replace (h : x.Has d P) (hfile : x.state.isTracked file = true ∨ P file)
    (document : Document) :
  (x.replace file document).1.Has d P
  := ⟨h.discovery_eq, h.state.replaceFile hfile document⟩

theorem Has.apply (h : x.Has d P) (hfile : x.state.isTracked file = true ∨ P file) (t : FileTree)
    (kind : ChangeKind) :
  (x.apply t file kind).1.Has d P
  := by
  cases kind with
  | created =>
      rw [Indexer.apply, fileCreated_eq]
      split
      · next load cache? _ => exact (h.withCache cache?).replace hfile load.document
      · exact h
  | modified =>
      rw [Indexer.apply, fileChanged_eq]
      split
      · next load cache? _ => exact (h.withCache cache?).replace hfile load.document
      · apply h.remove
  | deleted => apply h.remove

/-- A change of a path lets in what the patterns accept, and nothing else. -/
theorem Has.pathChanged (h : x.Has d P) (hfile : d.accepts file = true → P file) (t : FileTree) :
  (x.pathChanged t file).1.Has d P
  := by
  rw [Indexer.pathChanged]
  cases hkind : x.changeKind? t file with
  | none => exact h
  | some kind =>
      apply h.apply
      rw [changeKind?, h.state.indexed.status_bne, h.discovery_eq] at hkind
      cases htracked : x.state.isTracked file with
      | true => exact Or.inl rfl
      | false =>
          right
          apply hfile
          by_contra hrejected
          simp [htracked, hrejected] at hkind

theorem Has.putAll (h : x.Has d P) {outcomes : List Outcome}
    (houtcomes : ∀ outcome ∈ outcomes, P outcome.1) :
  (x.putAll outcomes).1.Has d P
  := by
  induction outcomes generalizing x with
  | nil => exact h
  | cons outcome outcomes ih =>
      obtain ⟨hfirst, hrest⟩ := List.forall_mem_cons.mp houtcomes
      obtain ⟨file, result⟩ := outcome
      cases result with
      | ok load => apply ih (h.replace (Or.inr hfirst) load.document) hrest
      | error e => apply ih (h.remove file) hrest

theorem Has.foldl_remove (h : x.Has d P) (files : List Path) :
  (files.foldl Indexer.remove x).Has d P
  := by
  induction files generalizing x with
  | nil => exact h
  | cons file files ih => apply ih (h.remove file)

theorem Has.prune (h : x.Has d P) (found : List Path) :
  (x.prune found).Has d P
  := (h.foldl_remove (x.stale found)).withCache _

/-- A full pass lets in what a search finds, and nothing else. -/
theorem Has.indexAll (h : x.Has d P) (hfound : ∀ p ∈ d.search t, P p) :
  (x.indexAll t).1.Has d P
  := by
  have houtcomes : ∀ outcome ∈
      (loadAll x.config.sealedTags t x.cache? (x.discovery.search t)).1, P outcome.1 := by
    intro outcome houtcome
    apply hfound
    have hmem := List.mem_map_of_mem (f := Prod.fst) houtcome
    rwa [map_fst_loadAll, h.discovery_eq] at hmem
  have hloaded := h.withCache (loadAll x.config.sealedTags t x.cache? (x.discovery.search t)).2
  obtain ⟨hdiscovery, hstate⟩ := (hloaded.prune (x.discovery.search t)).putAll houtcomes
  exact ⟨hdiscovery, hstate.indexed, hstate.keys⟩

theorem Has.rebuild (h : x.Has d P) (hfound : ∀ p ∈ d.search t, P p) :
  (x.rebuild t).1.Has d P
  := by
  have hempty : { x with
      state := IndexState.empty, cache? := x.cache?.map fun _ => ParseCache.empty }.Has d P :=
    ⟨h.discovery_eq, IndexState.hasOnly_empty P⟩
  apply hempty.indexAll hfound

/-- The files that an event can let in are of one sort. Changes of files, of which also the kind is
told, let in any file. -/
def Event.Admits (d : Discovery) (P : Path → Prop) : Event → Prop
  | .indexAll t => ∀ p ∈ d.search t, P p
  | .rebuild t => ∀ p ∈ d.search t, P p
  | .change .. => False
  | .pathChange _ path => d.accepts path = true → P path

theorem Has.perform (h : x.Has d P) {event : Event} (hevent : event.Admits d P) :
  (x.perform event).Has d P
  := by
  cases event with
  | indexAll t => apply h.indexAll hevent
  | rebuild t => apply h.rebuild hevent
  | change t file kind => cases hevent
  | pathChange t path => apply h.pathChanged hevent

theorem Has.run (h : x.Has d P) {events : List Event} (hevents : ∀ e ∈ events, e.Admits d P) :
  (x.run events).Has d P
  := by
  induction events generalizing x with
  | nil => exact h
  | cons event events ih =>
      obtain ⟨hfirst, hrest⟩ := List.forall_mem_cons.mp hevents
      apply ih (h.perform hfirst) hrest

/-! ### Changes of single paths -/

theorem isTracked_apply {p : Path} {content : List UInt8} (hcontent : t.contentOf p = .ok content)
    (x : Indexer) {kind : ChangeKind} (hkind : kind = .created ∨ kind = .modified) :
  (x.apply t p kind).1.state.isTracked p = true
  := by
  obtain ⟨⟨load, cache?⟩, hload⟩ := exists_loadFile_eq_ok hcontent x.config.sealedTags x.cache?
  have hstate : (x.apply t p kind).1.state = (x.state.replaceFile p load.document).1 := by
    obtain rfl | rfl := hkind
    · rw [Indexer.apply, fileCreated_eq, hload]
      rfl
    · rw [Indexer.apply, fileChanged_eq, hload]
      rfl
  rw [hstate, IndexState.isTracked_replaceFile, BEq.rfl, Bool.true_or]

/-- After a change of a path the index has it if it leads to something, and the index has had it or
the patterns accept it. -/
theorem Has.isTracked_pathChanged (h : x.Has d P) {p : Path}
    (hreadable : t.has p = true → ∃ content, t.contentOf p = .ok content) :
  (x.pathChanged t p).1.state.isTracked p = true ↔
    t.has p = true ∧ (x.state.isTracked p = true ∨ d.accepts p = true)
  := by
  rw [Indexer.pathChanged, changeKind?, h.state.indexed.status_bne, h.discovery_eq]
  cases hhas : t.has p with
  | true =>
      obtain ⟨content, hcontent⟩ := hreadable hhas
      have hmodified := isTracked_apply hcontent x (Or.inr rfl)
      have hcreated := isTracked_apply hcontent x (Or.inl rfl)
      cases htracked : x.state.isTracked p <;> cases d.accepts p <;> simp [*]
  | false =>
      have hgone : (x.remove p).state.isTracked p = false := by
        rw [Indexer.remove, IndexState.isTracked_clearFile, BEq.rfl, Bool.not_true, Bool.false_and]
      cases htracked : x.state.isTracked p <;> cases d.accepts p <;> simp [*, Indexer.apply]

theorem has_of_ofConfig {root : Path} {config : IndexConfig} {reported : List Diagnostic}
    (h : ofConfig t root config = .ok (x, reported)) (P : Path → Prop) :
  x.Has x.discovery P
  := by
  unfold ofConfig at h
  split at h
  · cases h
  · split at h
    · cases h
      exact ⟨rfl, IndexState.hasOnly_empty P⟩
    · cases h
      exact ⟨rfl, IndexState.hasOnly_empty P⟩

/-- A full pass, or a change of which only the path is told. -/
def Event.IsChosen : Event → Prop
  | .change .. => False
  | _ => True

/-- A full pass over a well-formed tree, or a change of a path that is spelled as a search spells
it. -/
def Event.IsPlain (d : Discovery) : Event → Prop
  | .indexAll t => t.root.WellFormed
  | .rebuild t => t.root.WellFormed
  | .change .. => False
  | .pathChange _ path => d.Spells path

theorem Event.IsChosen.admits {event : Event} (h : event.IsChosen) (d : Discovery) :
  event.Admits d fun p => d.accepts p = true
  := by
  cases event with
  | indexAll t => exact fun _ hp => (Discovery.of_mem_search hp).1
  | rebuild t => exact fun _ hp => (Discovery.of_mem_search hp).1
  | change t file kind => cases h
  | pathChange t path => exact id

theorem Event.IsPlain.admits {event : Event} (h : event.IsPlain d) :
  event.Admits d fun p => d.accepts p = true ∧ d.Spells p
  := by
  have hfound : ∀ {t : FileTree}, t.root.WellFormed → ∀ p ∈ d.search t,
      d.accepts p = true ∧ d.Spells p := by
    intro t ht p hp
    obtain ⟨hwalk, haccepts, -⟩ := Discovery.mem_search.mp hp
    exact ⟨haccepts, (Discovery.of_mem_walk ht hwalk).1⟩
  cases event with
  | indexAll t => exact hfound h
  | rebuild t => exact hfound h
  | change t file kind => cases h
  | pathChange t path => exact fun haccepts => ⟨haccepts, h⟩

/-- What decides whether the index of `x` has a path after a change of it, where the files are then
`t`. It is `plain` that all paths before have been spelled as a search spells them. -/
structure Admission (x : Indexer) (t : FileTree) (p : Path) (plain : Prop) : Prop where
  /-- The path leads to something, and the index has had it or the patterns accept it. -/
  tracked_iff : (x.pathChanged t p).1.state.isTracked p = true ↔
    t.has p = true ∧ (x.state.isTracked p = true ∨ x.discovery.accepts p = true)
  /-- The patterns accept the path, maybe under another spelling. -/
  owned : (x.pathChanged t p).1.state.isTracked p = true → x.discovery.Owns p
  /-- The index has this path if a search finds it. -/
  listed : p ∈ x.discovery.search t → (x.pathChanged t p).1.state.isTracked p = true
  /-- Between plain spellings the patterns alone decide, -/
  plain_iff : plain → x.discovery.Spells p →
    ((x.pathChanged t p).1.state.isTracked p = true ↔
      t.has p = true ∧ x.discovery.accepts p = true)
  /-- and a search leaves out what is too large or ignored. -/
  finds_iff : plain → x.discovery.Spells p → t.root.WellFormed →
    (x.discovery.finds t p = true ↔ (x.pathChanged t p).1.state.isTracked p = true ∧
      x.discovery.isSmall t p = true ∧ ¬ x.discovery.Ignores t p)

/-- Whatever full passes and changes of paths have led to an index, a change of one more path lets
it in by the patterns, without regard to what is ignored and to sizes. -/
theorem pathChanged_admits {t₀ t : FileTree} {root : Path} {config : IndexConfig} {start : Indexer}
    {reported : List Diagnostic} {events : List Event} {p : Path}
    (hstart : ofConfig t₀ root config = .ok (start, reported))
    (hevents : ∀ e ∈ events, e.IsChosen)
    (hreadable : t.has p = true → ∃ content, t.contentOf p = .ok content) :
  (start.run events).Admission t p (∀ e ∈ events, e.IsPlain start.discovery)
  := by
  have hhas := (has_of_ofConfig hstart _).run fun e he => (hevents e he).admits start.discovery
  have htracked := hhas.isTracked_pathChanged hreadable
  have hlisted : p ∈ start.discovery.search t →
      ((start.run events).pathChanged t p).1.state.isTracked p = true := by
    intro hp
    obtain ⟨haccepts, e, -, hfind, -⟩ := Discovery.of_mem_search hp
    exact htracked.mpr ⟨FileTree.has_of_find hfind, Or.inr haccepts⟩
  have hplain : (∀ e ∈ events, e.IsPlain start.discovery) → start.discovery.Spells p →
      (((start.run events).pathChanged t p).1.state.isTracked p = true ↔
        t.has p = true ∧ start.discovery.accepts p = true) := by
    intro hevents hp
    have hhas := (has_of_ofConfig hstart _).run fun e he => (hevents e he).admits
    rw [htracked]
    apply and_congr_right
    intro _
    rw [or_iff_right_iff_imp]
    intro hbefore
    obtain ⟨q, hqp, haccepts, hq⟩ := hhas.state.exists_of_isTracked hbefore
    rwa [← hq.eq_of_beq hp hqp]
  refine ⟨?_, ?_, ?_, ?_, ?_⟩ <;> rw [hhas.discovery_eq]
  · exact htracked
  · intro hafter
    obtain ⟨-, hbefore | haccepts⟩ := htracked.mp hafter
    · apply hhas.state.exists_of_isTracked hbefore
    · apply Discovery.owns_of_accepts haccepts
  · exact hlisted
  · exact hplain
  · intro hevents hp ht
    rw [Discovery.finds_iff_mem_search ht hp]
    constructor
    · intro hmem
      obtain ⟨hwalk, -, hsmall⟩ := Discovery.mem_search.mp hmem
      exact ⟨hlisted hmem, hsmall, (Discovery.of_mem_walk ht hwalk).2⟩
    · rintro ⟨hafter, hsmall, hkept⟩
      obtain ⟨hleads, haccepts⟩ := (hplain hevents hp).mp hafter
      obtain ⟨content, hcontent⟩ := hreadable hleads
      obtain ⟨modified, hfind⟩ := FileTree.find_of_contentOf hcontent
      have hwalk := Discovery.mem_walk_of_find hp hfind FileEntry.noConfusion hkept
      exact Discovery.mem_search.mpr ⟨hwalk, haccepts, hsmall⟩

/-- A full pass has found a file, which then grows; a file in a directory that is ignored is let in
nevertheless, beside another one that cannot be read. -/
theorem pathChanged_admits_ignored :
  let root : Path := ⟨"/ws"⟩
  let unit : FileNode := .file "- job:\n    name: unit\n".toUTF8.toList ⟨0⟩
  let grown : FileNode := .file "- job:\n    name: units\n".toUTF8.toList ⟨0⟩
  let ignore : FileNode := .file "zuul.d\n".toUTF8.toList ⟨0⟩
  let locked : FileNode := .unreadable 22 ⟨0⟩ .permissionDenied
  let tree : List (String × FileNode) → FileTree := fun files =>
    ⟨.directory [("ws", .directory files)], [], ⟨0⟩, none⟩
  let t : FileTree := tree [("zuul.yaml", unit)]
  let u : FileTree := tree
    [(".gitignore", ignore), (".zuul.yaml", locked), ("zuul.d", .directory [("a.yaml", unit)]),
      ("zuul.yaml", grown)]
  let p : Path := Discovery.pathOf root ["zuul.d", "a.yaml"]
  let config : IndexConfig := { IndexConfig.default with useCache := false, maxFileSize := 22 }
  let events : List Event := [.indexAll t, .pathChange u (Discovery.pathOf root ["zuul.yaml"])]
  ∃ x reported, ofConfig t root config = .ok (x, reported) ∧
    (∀ e ∈ events, e.IsPlain x.discovery) ∧ (u.contentOf p).isOk = true ∧
    x.discovery.Spells p ∧ u.root.WellFormed ∧ x.discovery.isSmall u p = true ∧
    x.discovery.finds u p = false ∧ x.discovery.accepts p = true ∧
    (x.run events).Admission u p (∀ e ∈ events, e.IsPlain x.discovery)
  := by
  intro root unit grown ignore locked tree t u p config events
  have hchecked : ((Discovery.ofConfig root config).toOption.any fun d =>
      d.root.spelling == root.spelling && d.isSmall u p && d.accepts p
        && !((d.walk u).any fun q => d.accepts q && d.isSmall u q && q == p)) = true := by
    decide +kernel
  have hok : (u.contentOf p).isOk = true := by decide +kernel
  have ht : t.root.WellFormed := by decide
  have hu : u.root.WellFormed := by decide
  obtain ⟨d, hdiscovery, hchecked⟩ := exists_ok_of_any hchecked
  simp only [Bool.and_eq_true, Bool.not_eq_true',
    beq_iff_eq, ← Discovery.finds_eq_any_walk] at hchecked
  obtain ⟨⟨⟨hroot, hsmall⟩, haccepts⟩, hleftOut⟩ := hchecked
  have hopen := ofConfig_uncached rfl hdiscovery t
  have hspells : ∀ names : Place, (∀ name ∈ names, FileNode.IsName name) →
      d.Spells (Discovery.pathOf root names) := by
    intro names hnames
    rw [← show d.root = root from congrArg Path.mk hroot]
    refine ⟨?_, names, hnames, rfl⟩
    rw [hroot]
    decide
  have hplain : ∀ e ∈ events, e.IsPlain d := by
    intro e he
    obtain rfl | he := List.mem_cons.mp he
    · exact ht
    · rw [List.mem_singleton.mp he]
      apply hspells
      simp [FileNode.IsName]
  have hchosen : ∀ e ∈ events, e.IsChosen := by
    intro e he
    obtain rfl | he := List.mem_cons.mp he
    · trivial
    · rw [List.mem_singleton.mp he]
      trivial
  have hp : d.Spells p := by
    apply hspells
    simp [FileNode.IsName]
  have hreadable : u.has p = true → ∃ content, u.contentOf p = .ok content := by
    intro _
    cases hcontent : u.contentOf p with
    | ok content => exact ⟨content, rfl⟩
    | error e =>
        rw [hcontent] at hok
        cases hok
  exact ⟨_, _, hopen, hplain, hok, hp, hu, hsmall, hleftOut, haccepts,
    pathChanged_admits hopen hchosen hreadable⟩

/-- A file that grows beyond the limit stays in the index when its path is told, and a search does
not find it any more. -/
theorem pathChanged_keeps_grown :
  let root : Path := ⟨"/ws"⟩
  let tree : String → FileTree := fun text =>
    ⟨.directory [("ws", .directory [("zuul.yaml", .file text.toUTF8.toList ⟨0⟩)])], [], ⟨0⟩, none⟩
  let t : FileTree := tree "- job:\n    name: unit\n"
  let u : FileTree := tree "- job:\n    name: units\n"
  let p : Path := Discovery.pathOf root ["zuul.yaml"]
  let config : IndexConfig := { IndexConfig.default with useCache := false, maxFileSize := 22 }
  ∃ x reported, ofConfig t root config = .ok (x, reported) ∧ (u.contentOf p).isOk = true ∧
    x.discovery.finds t p = true ∧
    ((x.run [.indexAll t]).pathChanged u p).1.state.isTracked p = true ∧
    x.discovery.finds u p = false
  := by
  intro root tree t u p config
  have hchecked : ((Discovery.ofConfig root config).toOption.any fun d =>
      d.accepts p && ((d.walk t).any fun q => d.accepts q && d.isSmall t q && q == p)
        && !((d.walk u).any fun q => d.accepts q && d.isSmall u q && q == p)) = true := by
    decide +kernel
  cases hcontent : u.contentOf p with
  | error e =>
      have hok : (u.contentOf p).isOk = true := by decide +kernel
      rw [hcontent] at hok
      cases hok
  | ok content =>
      obtain ⟨d, hdiscovery, hchecked⟩ := exists_ok_of_any hchecked
      simp only [Bool.and_eq_true, Bool.not_eq_true',
        ← Discovery.finds_eq_any_walk] at hchecked
      obtain ⟨⟨haccepts, hbefore⟩, hafter⟩ := hchecked
      have hopen := ofConfig_uncached rfl hdiscovery t
      have hpassed := (has_of_ofConfig hopen fun _ => True).indexAll (t := t)
        fun _ _ => trivial
      refine ⟨_, _, hopen, rfl, hbefore, ?_, hafter⟩
      apply (hpassed.isTracked_pathChanged fun _ => ⟨content, hcontent⟩).mpr
      exact ⟨FileTree.has_of_contentOf hcontent, Or.inr haccepts⟩

end Indexer

end JobIndex
