import JobIndex.Proofs.Index.Agreement
import JobIndex.Proofs.Workspace.Tracking

/-!
# The order of changes does not matter

After a full pass files change, and the indexer is told of paths, one after the other: in any order,
some of them several times, and others that have not changed at all. What it does about a path
depends on whether the index has it at that time and whether there is something then.

* Telling of a path brings that file up to date and leaves all others (`CatchesUp.pathChange`).
* When all files that have changed have been named, each file is up to date (`CatchesUp.upToDate`).
* So the index has the files of a new full pass, each with its records, and agrees with the index
  that such a pass makes, if no job is defined in two files.

No cache is used.
-/

namespace JobIndex

/-! ### The records in a tree -/

namespace FileTree

variable {t : FileTree} {p q : Path} {content content' : List UInt8}

/-- The records of the file that a path leads to; there are none if it cannot be read. -/
def document (t : FileTree) (sealedTags : List String) (p : Path) : Document :=
  match t.contentOf p with
  | .ok content => (Document.ofBytes sealedTags p content).1
  | .error _ => Document.empty p

/-- Spellings of one path under which a file can be read give the same records. -/
theorem document_sameView (hpq : (p == q) = true) (hp : t.contentOf p = .ok content)
    (hq : t.contentOf q = .ok content') (sealedTags : List String) :
  (t.document sealedTags p).SameView (t.document sealedTags q)
  := by
  have hparts := Path.beq_iff_parts.mp hpq
  obtain ⟨modified, hfind⟩ := find_of_contentOf hp
  obtain ⟨modified', hfind'⟩ := find_of_contentOf hq
  cases find_eq_of_parts hparts hfind hfind'
  rw [document, document, hp, hq]
  apply Document.ofBytes_sameView sealedTags hparts

end FileTree

/-- Without a cache a file that can be read has the records of its tree. -/
theorem loadFile_of_contentOf {t : FileTree} {file : Path} {content : List UInt8}
    (h : t.contentOf file = .ok content) (sealedTags : List String) :
  ∃ load, loadFile sealedTags t none file = .ok (load, none) ∧
    load.document = t.document sealedTags file
  := by
  obtain ⟨modified, hfind⟩ := FileTree.find_of_contentOf h
  rw [loadFile, hfind, FileTree.document, h]
  exact ⟨_, rfl, rfl⟩

/-! ### Searches -/

namespace Discovery

variable {d : Discovery} {t : FileTree} {p q : Path}

/-- Whether a search finds a path, under some spelling. -/
def finds (d : Discovery) (t : FileTree) (p : Path) : Bool :=
  (d.search t).any (· == p)

/-- Some spelling of a path belongs to the index. -/
def Owns (d : Discovery) (p : Path) : Prop :=
  ∃ q, (q == p) = true ∧ d.accepts q = true

/-- If a path belongs to the index and leads to something, then a search finds it; and if a search
finds it, then it leads to a file that can be read. -/
structure Lists (d : Discovery) (t : FileTree) (p : Path) : Prop where
  found : d.Owns p → t.has p = true → d.finds t p = true
  readable : d.finds t p = true → ∃ content, t.contentOf p = .ok content

theorem finds_congr (d : Discovery) (t : FileTree) (h : (p == q) = true) :
  d.finds t p = d.finds t q
  := by
  rw [finds, finds]
  congr 1
  funext r
  apply BEq.congr_right h

theorem owns_of_accepts (h : d.accepts p = true) :
  d.Owns p
  := ⟨p, BEq.rfl, h⟩

theorem owns_of_finds (h : d.finds t p = true) :
  d.Owns p
  := by
  obtain ⟨q, hq, heq⟩ := List.any_eq_true.mp h
  exact ⟨q, heq, (of_mem_search hq).1⟩

theorem finds_of_mem_search (h : p ∈ d.search t) :
  d.finds t p = true
  := List.any_eq_true.mpr ⟨p, h, BEq.rfl⟩

/-- A path that leads nowhere is not found. -/
theorem Lists.finds_eq_false (h : d.Lists t p) (hnone : t.has p = false) :
  d.finds t p = false
  := by
  rw [← Bool.not_eq_true]
  intro hfound
  obtain ⟨content, hcontent⟩ := h.readable hfound
  rw [FileTree.has_of_contentOf hcontent] at hnone
  cases hnone

end Discovery

/-! ### Files that are up to date -/

namespace Indexer

section

variable {x : Indexer} {t : FileTree} {s : IndexState} {loads : List Outcome} {file other : Path}

/-- The index `s` has a file if a search finds it, and then with the records that it has in the
tree. -/
structure UpToDate (x : Indexer) (t : FileTree) (s : IndexState) (loads : List Outcome)
    (file : Path) : Prop where
  tracked : s.isTracked file = x.discovery.finds t file
  current : s.isTracked file = true → ∀ load, lastLoad? loads file = some load →
    ∀ p ∈ x.discovery.search t, (p == file) = true →
      load.document.SameView (t.document x.config.sealedTags p)

/-- Only whether the index has a file and what was read from it last matter. -/
theorem UpToDate.of_eq (h : x.UpToDate t s loads file) (heq : (file == other) = true)
    {s' : IndexState} {loads' : List Outcome} (htracked : s'.isTracked other = s.isTracked other)
    (hlast : lastLoad? loads' other = lastLoad? loads other) :
  x.UpToDate t s' loads' other
  := by
  have hfile : s.isTracked other = s.isTracked file := (s.files.has_congr heq).symm
  constructor
  · rw [htracked, hfile, h.tracked, x.discovery.finds_congr t heq]
  · intro hother load hload p hp hpother
    rw [htracked, hfile] at hother
    rw [hlast, ← lastLoad?_congr loads heq] at hload
    apply h.current hother load hload p hp (BEq.trans hpother (BEq.symm heq))

theorem UpToDate.replaceFile (h : x.UpToDate t s loads other)
    (hother : (file == other) = false) (load : Load) :
  x.UpToDate t (s.replaceFile file load.document).1 (loads ++ [(file, .ok load)]) other
  := by
  apply h.of_eq BEq.rfl
  · apply (Table.has_put s.files file .indexed other).trans
    rw [hother, Bool.false_or]
    rfl
  · rw [lastLoad?_append_ok, hother, if_neg Bool.false_ne_true]

theorem UpToDate.clearFile (h : x.UpToDate t s loads other) (hother : (file == other) = false) :
  x.UpToDate t (s.clearFile file).1 loads other
  := by
  apply h.of_eq BEq.rfl _ rfl
  apply (Table.has_erase s.files file other).trans
  rw [hother, Bool.not_false, Bool.true_and]
  rfl

/-- A file that has been read is up to date. -/
theorem upToDate_replaceFile (s : IndexState) (loads : List Outcome)
    (hlists : x.discovery.Lists t file) (hfound : x.discovery.finds t file = true) {load : Load}
    (hload : load.document = t.document x.config.sealedTags file) :
  x.UpToDate t (s.replaceFile file load.document).1 (loads ++ [(file, .ok load)]) file
  := by
  constructor
  · rw [hfound]
    apply (Table.has_put s.files file .indexed file).trans
    rw [BEq.rfl, Bool.true_or]
  · intro _ load' hload' p hp hpfile
    rw [lastLoad?_append_ok, if_pos BEq.rfl] at hload'
    obtain rfl := Option.some.inj hload'
    obtain ⟨content, hcontent⟩ := hlists.readable hfound
    have hcontent' := Discovery.contentOf_of_mem_search hp hpfile hcontent
    rw [hload]
    apply FileTree.document_sameView (BEq.symm hpfile) hcontent hcontent'

/-- A file that is gone is up to date when it has been removed. -/
theorem upToDate_clearFile (s : IndexState) (loads : List Outcome)
    (hnone : x.discovery.finds t file = false) :
  x.UpToDate t (s.clearFile file).1 loads file
  := by
  have hgone : (s.clearFile file).1.isTracked file = false := by
    apply (Table.has_erase s.files file file).trans
    rw [BEq.rfl, Bool.not_true, Bool.false_and]
  constructor
  · rw [hgone, hnone]
  · intro htracked
    rw [hgone] at htracked
    cases htracked

end

/-! ### Paths that are named -/

variable {x₀ x : Indexer} {log : IndexLog} {loads : List Outcome} {t u : FileTree} {q : Path}

/-- A file that can be read, be it new or changed, gets the records of its tree. -/
theorem Follows.apply_of_contentOf (h : x₀.Follows x log) {content : List UInt8}
    (hcontent : u.contentOf q = .ok content) {kind : ChangeKind}
    (hkind : kind = .created ∨ kind = .modified) :
  ∃ load, load.document = u.document x₀.config.sealedTags q ∧
    (x.apply u q kind).1.state = (x.state.replaceFile q load.document).1 ∧
    x.loadsFor u q kind = [(q, .ok load)]
  := by
  have htags : x.config.sealedTags = x₀.config.sealedTags := by
    rw [h.eq_with]
  obtain ⟨load, hload, hdocument⟩ := loadFile_of_contentOf hcontent x₀.config.sealedTags
  use load, hdocument
  obtain rfl | rfl := hkind
  · rw [Indexer.apply, fileCreated_eq, loadsFor, htags, h.cache_eq, hload]
    exact ⟨rfl, rfl⟩
  · rw [Indexer.apply, fileChanged_eq, loadsFor, htags, h.cache_eq, hload]
    exact ⟨rfl, rfl⟩

/-- What the kind of a change says of a path. -/
theorem changeKind?_spec (hlast : x.state.HoldsLast log loads) (u : FileTree) (q : Path) :
  match x.changeKind? u q with
  | none => x.state.isTracked q = false ∧ (x.discovery.accepts q = true → u.has q = false)
  | some .deleted => u.has q = false
  | some _ => (x.state.isTracked q = true ∨ x.discovery.accepts q = true) ∧ u.has q = true
  := by
  rw [changeKind?, IndexState.AllIndexed.status_bne hlast.indexed]
  cases x.state.isTracked q <;> cases x.discovery.accepts q <;> cases u.has q <;> simp

/-- Each file is up to date with the files `t` or `u`, and with `u` if it belongs to the index and
has been named. -/
structure CatchesUp (x₀ : Indexer) (t u : FileTree) (x : Indexer) (loads : List Outcome)
    (named : List Path) : Prop where
  follows : ∃ log, x₀.Follows x log
  keeps : x.Keeps loads
  either : ∀ file, x₀.UpToDate t x.state loads file ∨ x₀.UpToDate u x.state loads file
  named : ∀ q ∈ named, x₀.discovery.accepts q = true → x₀.UpToDate u x.state loads q

variable {named : List Path}

/-- A file in the index belongs to it. -/
theorem CatchesUp.owns (h : CatchesUp x₀ t u x loads named) {file : Path}
    (htracked : x.state.isTracked file = true) :
  x₀.discovery.Owns file
  := by
  obtain hfile | hfile := h.either file
  · apply Discovery.owns_of_finds (hfile.tracked.symm.trans htracked)
  · apply Discovery.owns_of_finds (hfile.tracked.symm.trans htracked)

/-- A path of no concern changes nothing, one that is gone is removed, and any other one is read. -/
theorem CatchesUp.pathChange_cases (h : CatchesUp x₀ t u x loads named)
    (hlists : x₀.discovery.Lists u q) :
  (x.state.isTracked q = false ∧ (x₀.discovery.accepts q = true → u.has q = false) ∧
    x.perform (.pathChange u q) = x ∧ x.loads (.pathChange u q) = []) ∨
  (x₀.discovery.finds u q = false ∧
    (x.perform (.pathChange u q)).state = (x.state.clearFile q).1 ∧
    x.loads (.pathChange u q) = []) ∨
  (x₀.discovery.finds u q = true ∧ ∃ load,
    load.document = u.document x₀.config.sealedTags q ∧
    (x.perform (.pathChange u q)).state = (x.state.replaceFile q load.document).1 ∧
    x.loads (.pathChange u q) = [(q, .ok load)])
  := by
  obtain ⟨log, hfollows⟩ := h.follows
  obtain ⟨log', hlast⟩ := h.keeps.state
  have hspec := changeKind?_spec hlast u q
  rw [hfollows.discovery_eq] at hspec
  have hfound : (x.state.isTracked q = true ∨ x₀.discovery.accepts q = true) ∧ u.has q = true →
      x₀.discovery.finds u q = true := by
    rintro ⟨htracked | haccepts, hhas⟩
    · apply hlists.found (h.owns htracked) hhas
    · apply hlists.found (Discovery.owns_of_accepts haccepts) hhas
  rw [Indexer.perform, pathChanged, Indexer.loads]
  cases hkind : x.changeKind? u q with
  | none =>
      rw [hkind] at hspec
      exact Or.inl ⟨hspec.1, hspec.2, rfl, rfl⟩
  | some kind =>
      right
      rw [hkind] at hspec
      cases kind with
      | deleted => exact Or.inl ⟨hlists.finds_eq_false hspec, rfl, rfl⟩
      | created =>
          obtain ⟨content, hcontent⟩ := hlists.readable (hfound hspec)
          exact Or.inr ⟨hfound hspec, hfollows.apply_of_contentOf hcontent (Or.inl rfl)⟩
      | modified =>
          obtain ⟨content, hcontent⟩ := hlists.readable (hfound hspec)
          exact Or.inr ⟨hfound hspec, hfollows.apply_of_contentOf hcontent (Or.inr rfl)⟩

/-- Telling of a path leaves the other files as they are, -/
theorem CatchesUp.pathChange_other (h : CatchesUp x₀ t u x loads named)
    (hlists : x₀.discovery.Lists u q) {v : FileTree} {file : Path} (hfile : (q == file) = false)
    (hup : x₀.UpToDate v x.state loads file) :
  x₀.UpToDate v (x.perform (.pathChange u q)).state (loads ++ x.loads (.pathChange u q)) file
  := by
  obtain ⟨-, -, hsame, hnothing⟩ | ⟨-, hremoved, hnothing⟩ | ⟨-, load, -, hreplaced, hloads⟩ :=
    h.pathChange_cases hlists
  · rw [hsame, hnothing, List.append_nil]
    exact hup
  · rw [hremoved, hnothing, List.append_nil]
    apply hup.clearFile hfile
  · rw [hreplaced, hloads]
    apply hup.replaceFile hfile

/-- and brings its own file up to date, unless it is of no concern. -/
theorem CatchesUp.pathChange_self (h : CatchesUp x₀ t u x loads named)
    (hlists : x₀.discovery.Lists u q) :
  x₀.UpToDate u (x.perform (.pathChange u q)).state (loads ++ x.loads (.pathChange u q)) q ∨
  (x₀.discovery.accepts q = false ∧ x.perform (.pathChange u q) = x ∧
    x.loads (.pathChange u q) = [])
  := by
  obtain ⟨huntracked, hnone, hsame, hnothing⟩ | ⟨hnone, hremoved, hnothing⟩ |
    ⟨hfound, load, hdocument, hreplaced, hloads⟩ := h.pathChange_cases hlists
  · cases haccepts : x₀.discovery.accepts q with
    | false => exact Or.inr ⟨rfl, hsame, hnothing⟩
    | true =>
        left
        rw [hsame, hnothing, List.append_nil]
        constructor
        · rw [huntracked, hlists.finds_eq_false (hnone haccepts)]
        · intro htracked
          rw [huntracked] at htracked
          cases htracked
  · left
    rw [hremoved, hnothing, List.append_nil]
    apply upToDate_clearFile _ _ hnone
  · left
    rw [hreplaced, hloads]
    apply upToDate_replaceFile _ _ hlists hfound hdocument

/-- A file that is up to date stays so, or is brought up to date. -/
theorem CatchesUp.pathChange_upToDate (h : CatchesUp x₀ t u x loads named)
    (hlists : x₀.discovery.Lists u q) {v : FileTree} {file : Path}
    (hup : x₀.UpToDate v x.state loads file) :
  x₀.UpToDate v (x.perform (.pathChange u q)).state (loads ++ x.loads (.pathChange u q)) file ∨
  x₀.UpToDate u (x.perform (.pathChange u q)).state (loads ++ x.loads (.pathChange u q)) file
  := by
  cases hfile : q == file with
  | false => exact Or.inl (h.pathChange_other hlists hfile hup)
  | true =>
      obtain hself | ⟨-, hsame, hnothing⟩ := h.pathChange_self hlists
      · exact Or.inr (hself.of_eq hfile rfl rfl)
      · left
        rw [hsame, hnothing, List.append_nil]
        exact hup

/-- Telling of a path keeps what has been reached, and brings that path up to date. -/
theorem CatchesUp.pathChange (h : CatchesUp x₀ t u x loads named)
    (hlists : x₀.discovery.Lists u q) :
  CatchesUp x₀ t u (x.perform (.pathChange u q)) (loads ++ x.loads (.pathChange u q))
    (named ++ [q])
  := by
  constructor
  · obtain ⟨log, hfollows⟩ := h.follows
    apply hfollows.perform
  · apply h.keeps.perform
  · intro file
    obtain hup | hup := h.either file
    · apply h.pathChange_upToDate hlists hup
    · exact Or.inr (or_self_iff.mp (h.pathChange_upToDate hlists hup))
  · intro p hp haccepts
    obtain hp | hp := List.mem_append.mp hp
    · apply or_self_iff.mp (h.pathChange_upToDate hlists (h.named p hp haccepts))
    · obtain rfl := List.mem_singleton.mp hp
      obtain hself | ⟨hrefused, -, -⟩ := h.pathChange_self hlists
      · exact hself
      · rw [hrefused] at haccepts
        cases haccepts

/-- Telling of paths, in any order and however often, brings all of them up to date. -/
theorem CatchesUp.run (h : CatchesUp x₀ t u x loads named) {paths : List Path}
    (hlists : ∀ q ∈ paths, x₀.discovery.Lists u q) :
  ∃ loads', CatchesUp x₀ t u (x.run (paths.map (.pathChange u))) loads' (named ++ paths)
  := by
  induction paths generalizing x loads named with
  | nil =>
      rw [List.append_nil]
      exact ⟨loads, h⟩
  | cons q paths ih =>
      obtain ⟨hq, hrest⟩ := List.forall_mem_cons.mp hlists
      rw [List.append_cons]
      apply ih (h.pathChange hq) hrest

/-! ### Before the first path is named -/

/-- After a full pass over files that can be read all of them are up to date. -/
theorem Follows.upToDate_indexAll (h : x₀.Follows x log)
    (hreadable : ∀ p ∈ x₀.discovery.search t, ∃ content, t.contentOf p = .ok content)
    (loads : List Outcome) (file : Path) :
  x₀.UpToDate t (x.indexAll t).1.state (loads ++ x.loads (.indexAll t)) file
  := by
  have houtcomes : x.loads (.indexAll t) = x₀.outcomes t := by
    rw [Indexer.loads, h.cache_eq, loadAll_none, h.eq_with]
    rfl
  have hread : ∀ p ∈ x₀.discovery.search t, ∃ load,
      outcomeOf x₀.config.sealedTags t p = (p, .ok load) ∧
        load.document = t.document x₀.config.sealedTags p := by
    intro p hp
    obtain ⟨content, hcontent⟩ := hreadable p hp
    obtain ⟨load, hload, hdocument⟩ := loadFile_of_contentOf hcontent x₀.config.sealedTags
    use load
    rw [outcomeOf, hload]
    exact ⟨rfl, hdocument⟩
  constructor
  · rw [IndexState.isTracked, Table.has_eq_isSome, h.files_indexAll,
      Discovery.reads_eq_search hreadable, Discovery.finds]
    cases (x₀.discovery.search t).any (· == file) <;> rfl
  · intro _ load hload p hp hpfile
    -- the last time that the file was read was in this pass
    obtain ⟨first, hfirst, -⟩ := hread p hp
    have hsome : (lastLoad? (x₀.outcomes t) file).isSome = true := by
      apply lastLoad?_isSome hpfile
      rw [← hfirst]
      apply List.mem_map_of_mem hp
    rw [houtcomes, lastLoad?_append, Option.or_of_isSome hsome] at hload
    obtain ⟨q, hqfile, hmem⟩ := mem_of_lastLoad? hload
    obtain ⟨r, hr, heq⟩ := List.mem_map.mp hmem
    obtain ⟨second, hsecond, hdocument⟩ := hread r hr
    rw [hsecond] at heq
    cases heq
    obtain ⟨content, hcontent⟩ := hreadable p hp
    obtain ⟨content', hcontent'⟩ := hreadable q hr
    rw [hdocument]
    apply FileTree.document_sameView (BEq.trans hqfile (BEq.symm hpfile)) hcontent' hcontent

theorem Follows.catchesUp_indexAll (h : x₀.Follows x log) (hkeeps : x.Keeps loads)
    (hreadable : ∀ p ∈ x₀.discovery.search t, ∃ content, t.contentOf p = .ok content)
    (u : FileTree) :
  CatchesUp x₀ t u (x.indexAll t).1 (loads ++ x.loads (.indexAll t)) []
  where
  follows := ⟨_, h.indexAll t⟩
  keeps := hkeeps.indexAll t
  either file := Or.inl (h.upToDate_indexAll hreadable loads file)
  named _ hq := (nomatch hq)

/-! ### When everything has been named -/

/-- A file that is found and has not changed is found afterwards. -/
theorem finds_of_unchanged {d : Discovery} {file : Path}
    (hsame : ∀ p ∈ d.search t, (p == file) = true → t.contentOf p = u.contentOf p)
    (hlists : ∀ p ∈ d.search t, d.Lists t p ∧ d.Lists u p) (h : d.finds t file = true) :
  d.finds u file = true
  := by
  obtain ⟨p, hp, hpfile⟩ := List.any_eq_true.mp h
  obtain ⟨hlists, hlists'⟩ := hlists p hp
  obtain ⟨content, hcontent⟩ := hlists.readable (Discovery.finds_of_mem_search hp)
  rw [hsame p hp hpfile] at hcontent
  rw [← d.finds_congr u hpfile]
  apply hlists'.found (Discovery.owns_of_accepts (Discovery.of_mem_search hp).1)
  apply FileTree.has_of_contentOf hcontent

/-- A file that has not changed is as up to date as it was. -/
theorem UpToDate.of_unchanged {s : IndexState} {file : Path} (h : x.UpToDate t s loads file)
    (hsame : ∀ p ∈ x.discovery.search t ++ x.discovery.search u, (p == file) = true →
      t.contentOf p = u.contentOf p)
    (hlists : ∀ p ∈ x.discovery.search t ++ x.discovery.search u,
      x.discovery.Lists t p ∧ x.discovery.Lists u p) :
  x.UpToDate u s loads file
  := by
  constructor
  · rw [h.tracked, Bool.eq_iff_iff]
    constructor
    · apply finds_of_unchanged
      · exact fun p hp => hsame p (List.mem_append_left _ hp)
      · exact fun p hp => hlists p (List.mem_append_left _ hp)
    · apply finds_of_unchanged
      · exact fun p hp hpfile => (hsame p (List.mem_append_right _ hp) hpfile).symm
      · exact fun p hp => (hlists p (List.mem_append_right _ hp)).symm
  · intro htracked load hload p hp hpfile
    obtain ⟨q, hq, hqfile⟩ := List.any_eq_true.mp (h.tracked.symm.trans htracked)
    obtain ⟨-, hreadable⟩ := (hlists p (List.mem_append_right _ hp)).2
    obtain ⟨-, hreadable'⟩ := (hlists q (List.mem_append_left _ hq)).1
    obtain ⟨content, hcontent⟩ := hreadable (Discovery.finds_of_mem_search hp)
    obtain ⟨content', hcontent'⟩ := hreadable' (Discovery.finds_of_mem_search hq)
    have hsameq := hsame q (List.mem_append_left _ hq) hqfile
    have hdocument : t.document x.config.sealedTags q = u.document x.config.sealedTags q := by
      rw [FileTree.document, FileTree.document, hsameq]
    rw [hsameq] at hcontent'
    apply (h.current htracked load hload q hq hqfile).trans
    rw [hdocument]
    apply FileTree.document_sameView (BEq.trans hqfile (BEq.symm hpfile)) hcontent' hcontent

/-- When all changed files have been named, all files are up to date. -/
theorem CatchesUp.upToDate (h : CatchesUp x₀ t u x loads paths)
    (hlists : ∀ p ∈ x₀.discovery.search t ++ x₀.discovery.search u,
      x₀.discovery.Lists t p ∧ x₀.discovery.Lists u p)
    (hnamed : ∀ p ∈ x₀.discovery.search t ++ x₀.discovery.search u,
      t.contentOf p ≠ u.contentOf p →
      ∃ q ∈ paths, (q == p) = true ∧ x₀.discovery.accepts q = true) (file : Path) :
  x₀.UpToDate u x.state loads file
  := by
  by_cases hfile : ∃ q ∈ paths, (q == file) = true ∧ x₀.discovery.accepts q = true
  · obtain ⟨q, hq, hqfile, haccepts⟩ := hfile
    apply (h.named q hq haccepts).of_eq hqfile rfl rfl
  · obtain hup | hup := h.either file
    · apply hup.of_unchanged _ hlists
      intro p hp hpfile
      by_contra hne
      obtain ⟨q, hq, hqp, haccepts⟩ := hnamed p hp hne
      apply hfile ⟨q, hq, BEq.trans hqp hpfile, haccepts⟩
    · exact hup

/-! ### Agreement -/

section

variable {s s' : IndexState} {log' : IndexLog} {loads' : List Outcome}

/-- The jobs of an index that is up to date come from files that are found. -/
theorem exists_source (hs : s.HoldsLast log loads) (hup : ∀ file, x.UpToDate t s loads file)
    {job : Job} (hjob : job ∈ log.jobs) :
  ∃ p ∈ x.discovery.search t, (p == job.file) = true ∧
    ∃ source ∈ (t.document x.config.sealedTags p).jobs, source.view = job.view
  := by
  have htracked := hs.represents.tracked.jobs job hjob
  obtain ⟨p, hp, hpfile⟩ := List.any_eq_true.mp ((hup job.file).tracked.symm.trans htracked)
  obtain ⟨load, hload, hinFile⟩ := hs.latest job.file htracked
  use p, hp, hpfile
  have hmem : job ∈ (log.inFile job.file).jobs := JobLog.mem_inFile.mpr ⟨hjob, BEq.rfl⟩
  rw [hinFile] at hmem
  have hview : job.view ∈ load.document.jobs.map Job.view :=
    List.mem_map_of_mem (List.mem_of_mem_filter hmem)
  rw [((hup job.file).current htracked load hload p hp hpfile).jobs] at hview
  apply List.mem_map.mp hview

/-- Indexes that are up to date agree, if no job is defined in two files. -/
theorem agrees_of_upToDate (hs : s.HoldsLast log loads) (hs' : s'.HoldsLast log' loads')
    (hup : ∀ file, x.UpToDate t s loads file) (hup' : ∀ file, x.UpToDate t s' loads' file)
    (hunique : ∀ p ∈ x.discovery.search t, ∀ q ∈ x.discovery.search t,
      ∀ job ∈ (t.document x.config.sealedTags p).jobs,
      ∀ job' ∈ (t.document x.config.sealedTags q).jobs, ∀ name, job.name? = some name →
      job'.name? = some name → (p == q) = true) :
  s.Agrees s'
  := by
  have htracked : ∀ file, s.isTracked file = s'.isTracked file :=
    fun file => (hup file).tracked.trans (hup' file).tracked.symm
  apply hs.represents.agrees hs'.represents
  · intro file
    rw [hs.get?_eq, hs'.get?_eq, htracked]
  · intro file
    cases hfile : s.isTracked file with
    | false =>
        rw [hs.represents.inFile_of_untracked hfile]
        rw [htracked] at hfile
        rw [hs'.represents.inFile_of_untracked hfile]
        exact ⟨rfl, rfl⟩
    | true =>
        have hfile' := (htracked file).symm.trans hfile
        obtain ⟨p, hp, hpfile⟩ := List.any_eq_true.mp ((hup file).tracked.symm.trans hfile)
        obtain ⟨load, hload, hinFile⟩ := hs.latest file hfile
        obtain ⟨load', hload', hinFile'⟩ := hs'.latest file hfile'
        rw [hinFile, hinFile']
        apply IndexLog.append_sameView
        apply ((hup file).current hfile load hload p hp hpfile).trans
        apply ((hup' file).current hfile' load' hload' p hp hpfile).symm
  · intro job hjob job' hjob' name hname hname'
    obtain ⟨p, hp, hpfile, source, hsource, hview⟩ := exists_source hs' hup' hjob
    obtain ⟨q, hq, hqfile, source', hsource', hview'⟩ := exists_source hs' hup' hjob'
    rw [← Job.name?_congr hview] at hname
    rw [← Job.name?_congr hview'] at hname'
    have hpq := hunique p hp q hq source hsource source' hsource' name hname hname'
    apply BEq.trans (BEq.symm hpfile) (BEq.trans hpq hqfile)

end

/-- Files have changed from `t` to `u`, and paths have been named. -/
structure Changes (x : Indexer) (t u : FileTree) (paths : List Path) : Prop where
  /-- Before and after, what belongs to the index and leads to something is found, and can be read. -/
  lists : ∀ p ∈ x.discovery.search t ++ x.discovery.search u ++ paths,
    x.discovery.Lists t p ∧ x.discovery.Lists u p
  /-- Each file with other content has been named, under a spelling that belongs to the index. -/
  named : ∀ p ∈ x.discovery.search t ++ x.discovery.search u, t.contentOf p ≠ u.contentOf p →
    ∃ q ∈ paths, (q == p) = true ∧ x.discovery.accepts q = true
  /-- In the end no job is defined in two files. -/
  unique : ∀ p ∈ x.discovery.search u, ∀ q ∈ x.discovery.search u,
    ∀ job ∈ (u.document x.config.sealedTags p).jobs,
    ∀ job' ∈ (u.document x.config.sealedTags q).jobs, ∀ name, job.name? = some name →
    job'.name? = some name → (p == q) = true

theorem Keeps.run {x : Indexer} {loads : List Outcome} (h : x.Keeps loads) (events : List Event) :
  ∃ loads', (x.run events).Keeps loads'
  := by
  induction events generalizing x loads with
  | nil => exact ⟨loads, h⟩
  | cons event events ih => apply ih (h.perform event)

/-- Without a cache, after a full pass and changes of files it does not matter in which order and
how often the changed paths are named: the index then agrees with that of a new indexer after a full
pass over the files as they are. -/
theorem run_pathChanges_agrees {t₀ t u : FileTree} {root : Path} {config : IndexConfig}
    {start fresh : Indexer} {reported reported' : List Diagnostic} {paths : List Path}
    (hcache : config.useCache = false) (hstart : ofConfig t₀ root config = .ok (start, reported))
    (hfresh : ofConfig u root config = .ok (fresh, reported')) (events : List Event)
    (hchanges : fresh.Changes t u paths) :
  (start.run (events ++ .indexAll t :: paths.map (.pathChange u))).state.Agrees
    (fresh.indexAll u).1.state
  := by
  obtain ⟨hfollows, hsame⟩ := ofConfig_follows hcache hstart
  have heq : start = fresh := by
    rw [hsame u] at hfresh
    exact (Prod.mk.inj (Except.ok.inj hfresh)).1
  subst heq
  have hkeeps : start.Keeps [] := by
    apply keeps_of_ofConfig hstart
    intro huse
    rw [hcache] at huse
    cases huse
  obtain ⟨log, hbefore⟩ := hfollows.run events
  obtain ⟨loads, hbefore'⟩ := hkeeps.run events
  obtain ⟨hfound, hpaths⟩ := List.forall_mem_append.mp hchanges.lists
  have hreadable : ∀ p ∈ start.discovery.search t, ∃ content, t.contentOf p = .ok content :=
    fun p hp => (hfound p (List.mem_append_left _ hp)).1.readable (Discovery.finds_of_mem_search hp)
  have hreadable' : ∀ p ∈ start.discovery.search u, ∃ content, u.contentOf p = .ok content :=
    fun p hp => (hfound p (List.mem_append_right _ hp)).2.readable (Discovery.finds_of_mem_search hp)
  obtain ⟨loads', hafter⟩ := (hbefore.catchesUp_indexAll hbefore' hreadable u).run
    fun q hq => (hpaths q hq).2
  obtain ⟨log', hlast⟩ := hafter.keeps.state
  obtain ⟨log'', hlast'⟩ := (hkeeps.indexAll u).state
  have hrun : start.run (events ++ .indexAll t :: paths.map (.pathChange u))
      = ((start.run events).indexAll t).1.run (paths.map (.pathChange u)) := by
    rw [run, List.foldl_append]
    rfl
  rw [hrun]
  apply agrees_of_upToDate hlast hlast' _ (hfollows.upToDate_indexAll hreadable' [])
    hchanges.unique
  apply hafter.upToDate hfound hchanges.named

/-- One file gets another job and a new file the one that it had. When the new file has been named
both define that job; the other file is named twice, under two spellings, and so is a path that
leads nowhere. -/
theorem run_pathChanges_agrees_shadowed :
  let unit : List UInt8 := "- job:\n    name: unit\n".toUTF8.toList
  let lint : List UInt8 := "- job:\n    name: lint\n".toUTF8.toList
  let tree : List (String × FileNode) → FileTree := fun files =>
    ⟨.directory [("ws", .directory files)], [], ⟨0⟩, none⟩
  let t : FileTree := tree [("zuul.yaml", .file unit ⟨0⟩)]
  let u : FileTree := tree [(".zuul.yaml", .file unit ⟨0⟩), ("zuul.yaml", .file lint ⟨0⟩)]
  let paths : List Path :=
    [⟨"/ws/.zuul.yaml"⟩, ⟨"/ws/zuul.yaml"⟩, ⟨"/ws/zuul.d/a.yaml"⟩, ⟨"/ws//zuul.yaml"⟩]
  let config : IndexConfig := { IndexConfig.default with useCache := false }
  ∃ x reported, ofConfig t ⟨"/ws"⟩ config = .ok (x, reported) ∧ x.Changes t u paths ∧
    (x.run (.indexAll t :: paths.map (.pathChange u))).state.Agrees (x.indexAll u).1.state
  := by
  intro unit lint tree t u paths config
  let root : Path := ⟨"/ws"⟩
  let hidden : Path := ⟨"/ws/.zuul.yaml"⟩
  let file : Path := ⟨"/ws/zuul.yaml"⟩
  -- a search finds the first file, and in the end the two files
  have hchecked : ((Discovery.ofConfig root config).toOption.any fun d =>
      (d.walk t).map Path.spelling == [file.spelling]
        && (d.walk u).map Path.spelling == [hidden.spelling, file.spelling]
        && d.accepts hidden && d.accepts file
        && d.isSmall t file && d.isSmall u hidden && d.isSmall u file) = true := by
    decide +kernel
  have hleads : ∀ p ∈ paths, t.has p = (file == p) ∧ (t.contentOf p).isOk = (file == p) ∧
      u.has p = (hidden == p || file == p) ∧ (u.contentOf p).isOk = (hidden == p || file == p) := by
    decide +kernel
  have hnames : (u.document config.sealedTags hidden).jobs.map Job.name? = [some "unit"] ∧
      (u.document config.sealedTags file).jobs.map Job.name? = [some "lint"] := by
    decide +kernel
  obtain ⟨d, hdiscovery, hchecked⟩ := exists_ok_of_any hchecked
  simp only [Bool.and_eq_true, beq_iff_eq] at hchecked
  obtain ⟨⟨⟨⟨⟨⟨hwalk, hwalk'⟩, hhidden⟩, hfile⟩, hsmall⟩, hsmall'⟩, hsmall''⟩ := hchecked
  have hspell : ∀ {ps : List Path} {names : List String}, ps.map Path.spelling = names →
      ps = names.map Path.mk := by
    rintro ps _ rfl
    rw [List.map_map]
    exact (List.map_id ps).symm
  have hfinds : ∀ p, d.finds t p = (file == p) := by
    intro p
    rw [Discovery.finds, Discovery.search, Path.sort, (List.mergeSort_perm _ _).any_eq,
      hspell hwalk]
    simp [hfile, hsmall]
  have hfinds' : ∀ p, d.finds u p = (hidden == p || file == p) := by
    intro p
    rw [Discovery.finds, Discovery.search, Path.sort, (List.mergeSort_perm _ _).any_eq,
      hspell hwalk']
    simp [hhidden, hfile, hsmall', hsmall'']
  have hmem : ∀ p ∈ d.search t ++ d.search u, p = hidden ∨ p = file := by
    intro p hp
    obtain hp | hp := List.mem_append.mp hp
    · have hwalked := (Discovery.mem_search.mp hp).1
      rw [hspell hwalk] at hwalked
      exact Or.inr (List.mem_singleton.mp hwalked)
    · have hwalked := (Discovery.mem_search.mp hp).1
      rw [hspell hwalk'] at hwalked
      exact (List.mem_cons.mp hwalked).imp_right List.mem_singleton.mp
  have hlists : ∀ p ∈ paths, d.Lists t p ∧ d.Lists u p := by
    have hok : ∀ {v : FileTree} {p : Path}, d.finds v p = v.has p →
        d.finds v p = (v.contentOf p).isOk → d.Lists v p := by
      intro v p hhas hcontent
      refine ⟨fun _ h => hhas.trans h, ?_⟩
      intro hfound
      rw [hfound] at hcontent
      cases hread : v.contentOf p with
      | ok content => exact ⟨content, rfl⟩
      | error e =>
          rw [hread] at hcontent
          cases hcontent
    intro p hp
    obtain ⟨hhas, hcontent, hhas', hcontent'⟩ := hleads p hp
    constructor
    · apply hok <;> rw [hfinds] <;> symm <;> assumption
    · apply hok <;> rw [hfinds'] <;> symm <;> assumption
  have hopen := ofConfig_uncached rfl hdiscovery
  have hchanges : Changes ⟨root, config, d, none, .empty⟩ t u paths := by
    constructor
    · intro p hp
      apply hlists
      obtain hp | hp := List.mem_append.mp hp
      · obtain rfl | rfl := hmem p hp
        · exact List.mem_cons_self
        · exact List.mem_cons_of_mem _ List.mem_cons_self
      · exact hp
    · intro p hp _
      obtain rfl | rfl := hmem p hp
      · exact ⟨hidden, List.mem_cons_self, BEq.rfl, hhidden⟩
      · exact ⟨file, List.mem_cons_of_mem _ List.mem_cons_self, BEq.rfl, hfile⟩
    · have hjobs : ∀ p ∈ d.search u, ∀ job ∈ (u.document config.sealedTags p).jobs, ∀ name,
          job.name? = some name → p = hidden ∧ name = "unit" ∨ p = file ∧ name = "lint" := by
        intro p hp job hjob name hname
        have hview := List.mem_map_of_mem (f := Job.name?) hjob
        rw [hname] at hview
        obtain rfl | rfl := hmem p (List.mem_append_right _ hp)
        · rw [hnames.1, List.mem_singleton] at hview
          exact Or.inl ⟨rfl, Option.some.inj hview⟩
        · rw [hnames.2, List.mem_singleton] at hview
          exact Or.inr ⟨rfl, Option.some.inj hview⟩
      intro p hp q hq job hjob job' hjob' name hname hname'
      obtain ⟨rfl, rfl⟩ | ⟨rfl, rfl⟩ := hjobs p hp job hjob name hname
      · obtain ⟨rfl, -⟩ | ⟨-, hne⟩ := hjobs q hq job' hjob' _ hname'
        · exact BEq.rfl
        · exact absurd hne (by decide)
      · obtain ⟨-, hne⟩ | ⟨rfl, -⟩ := hjobs q hq job' hjob' _ hname'
        · exact absurd hne (by decide)
        · exact BEq.rfl
  exact ⟨_, _, hopen t, hchanges,
    run_pathChanges_agrees rfl (hopen t) (hopen u) [] hchanges⟩

end Indexer

end JobIndex
