import JobIndex.Proofs.Cache.Store
import JobIndex.Proofs.Glob.Directory
import JobIndex.Proofs.Workspace.Admission
import JobIndex.Proofs.Workspace.RelativePath
import Mathlib.Data.List.Infix

/-!
# What happens in a directory apart

Two trees may be the same outside of one directory (`FileTree.SameOutside`). A path whose way does
not enter the directory leads to the same in both (`FileTree.SameOutside.find_eq`). If the way of no
path that the patterns accept enters it, and no list of ignored paths lies there, then a search
finds the same files in both (`FileTree.SameOutside.search_eq`).

To save a cache changes nothing outside of its directory, if the way there is made already
(`ParseCache.sameOutside_save`).
-/

namespace JobIndex

/-! ### Ways into a directory -/

namespace FileTree

variable {dir place : Place} {t u v : FileTree} {p : Path}

/-- The way of a path leads to a directory, or to something in it, at some point. -/
def Enters (t : FileTree) (dir : Place) (p : Path) : Prop :=
  ∃ front, front <+: p.segments ∧ dir <+: front.foldl step (t.start p)

/-- Two trees are the same outside of a directory. -/
structure SameOutside (dir : Place) (t u : FileTree) : Prop where
  here_eq : u.here = t.here
  userIgnore?_eq : u.userIgnore? = t.userIgnore?
  get?_eq : ∀ place, ¬ dir <+: place → u.get? place = t.get? place

theorem SameOutside.refl (dir : Place) (t : FileTree) :
  SameOutside dir t t
  := ⟨rfl, rfl, fun _ _ => rfl⟩

theorem SameOutside.symm (h : SameOutside dir t u) :
  SameOutside dir u t
  := ⟨h.here_eq.symm, h.userIgnore?_eq.symm, fun place hplace => (h.get?_eq place hplace).symm⟩

theorem SameOutside.trans (h : SameOutside dir t u) (h' : SameOutside dir u v) :
  SameOutside dir t v
  := by
  refine ⟨h'.here_eq.trans h.here_eq, h'.userIgnore?_eq.trans h.userIgnore?_eq, ?_⟩
  intro place hplace
  rw [h'.get?_eq place hplace, h.get?_eq place hplace]

theorem SameOutside.start_eq (h : SameOutside dir t u) (p : Path) :
  u.start p = t.start p
  := by
  rw [start, start, h.here_eq]

theorem SameOutside.enters_iff (h : SameOutside dir t u) :
  u.Enters dir p ↔ t.Enters dir p
  := by
  rw [Enters, Enters, h.start_eq]

/-- A walk that stays outside is the same in both trees. -/
theorem SameOutside.walk_eq (h : SameOutside dir t u) {segments : List String}
    (hway : ∀ front, front <+: segments → ¬ dir <+: front.foldl step place) :
  u.walk place segments = t.walk place segments
  := by
  induction segments generalizing place with
  | nil => rfl
  | cons segment segments ih =>
      have hrest : u.walk (step place segment) segments = t.walk (step place segment) segments := by
        apply ih
        intro front hfront
        exact hway (segment :: front) (List.cons_prefix_cons.mpr ⟨rfl, hfront⟩)
      rw [walk, walk, h.get?_eq place (hway [] List.nil_prefix), hrest]

theorem SameOutside.place_eq (h : SameOutside dir t u) (hp : ¬ t.Enters dir p) :
  u.place p = t.place p
  := by
  have hwalk : u.walk (t.start p) p.segments = t.walk (t.start p) p.segments := by
    apply h.walk_eq
    intro front hfront hin
    exact hp ⟨front, hfront, hin⟩
  rw [place, place, h.start_eq, hwalk]

/-- A path that stays outside does not lead inside. -/
theorem not_isPrefix_of_place (hp : ¬ t.Enters dir p) (hplace : t.place p = .ok place) :
  ¬ dir <+: place
  := by
  intro hin
  obtain ⟨-, -, hwalk⟩ := place_eq_ok_iff.mp hplace
  rw [← foldl_step_of_walk hwalk] at hin
  exact hp ⟨p.segments, List.prefix_refl _, hin⟩

/-- A path that stays outside leads to the same in both trees. -/
theorem SameOutside.find_eq (h : SameOutside dir t u) (hp : ¬ t.Enters dir p) :
  u.find p = t.find p
  := by
  rw [find, find, h.place_eq hp]
  cases hplace : t.place p with
  | error e => rfl
  | ok place => simp only [h.get?_eq place (not_isPrefix_of_place hp hplace)]

/-! ### Ways by their parts -/

/-- Segments at the start of a path lead where the parts do that they count as. -/
theorem foldl_follow_counted {front rest : List (List Char)} (hp : p.spelling ≠ "")
    (hfront : p.pieces = front ++ rest) :
  (Path.counted true front).foldl follow (t.start p)
    = (front.map String.ofList).foldl step (t.start p)
  := by
  cases front with
  | nil => rfl
  | cons s front =>
      rw [Path.counted, Path.counted_false, List.foldl_append, foldl_follow_filterMap,
        List.map_cons, List.foldl_cons]
      congr 1
      by_cases hs : s = []
      · subst hs
        rw [start, Path.isAbsolute_of_pieces_nil hfront hp]
        rfl
      · rw [step_ofList true, Path.Part.counted?, List.isEmpty_eq_false_iff.mpr hs, Bool.and_false,
          if_neg Bool.false_ne_true]

/-- What the way of a path enters, the way of its parts enters. -/
theorem Enters.exists_parts (h : t.Enters dir p) (hp : p.spelling ≠ "") :
  ∃ parts, parts <+: p.parts ∧ dir <+: parts.foldl follow (t.start p)
  := by
  obtain ⟨front, ⟨rest, hrest⟩, hin⟩ := h
  obtain ⟨front, rest, hpieces, rfl, -⟩ := List.map_eq_append_iff.mp hrest.symm
  change p.pieces = front ++ rest at hpieces
  use Path.counted true front
  rw [foldl_follow_counted hp hpieces]
  refine ⟨?_, hin⟩
  rw [Path.parts_eq_counted hp, hpieces]
  cases front with
  | nil => apply List.nil_prefix
  | cons s front =>
      rw [Path.counted_append (List.cons_ne_nil s front)]
      apply List.prefix_append

end FileTree

/-! ### What is ignored outside -/

namespace Ignore

variable {dir place : Place} {t u : FileTree} {names file : List String}

/-- The lists of ignored paths lie outside of a directory: its name is none of theirs, and the list
of the user is elsewhere. -/
structure LieOutside (t : FileTree) (dir : Place) : Prop where
  ne_name : ∀ file ∈ files, ∀ name ∈ file, dir.getLast? ≠ some name
  not_isPrefix : ∀ place, t.userIgnore? = some place → ¬ dir <+: place

/-- A directory that is entered behind a place is named there. -/
theorem not_isPrefix_append (hname : ∀ name ∈ file, dir.getLast? ≠ some name)
    (hplace : ¬ dir <+: place) :
  ¬ dir <+: place ++ file
  := by
  rintro ⟨rest, hrest⟩
  obtain ⟨more, hmore, -⟩ | ⟨more, rfl, hfile⟩ := List.append_eq_append_iff.mp hrest
  · exact hplace ⟨more, hmore.symm⟩
  · cases more using List.reverseRecOn with
    | nil => exact hplace ⟨[], by simp⟩
    | append_singleton more name _ =>
        apply hname name
        · rw [hfile]
          simp
        · rw [← List.append_assoc, List.getLast?_concat]

theorem rulesAt_eq (h : FileTree.SameOutside dir t u) (hplace : ¬ dir <+: place) :
  rulesAt u place = rulesAt t place
  := by
  rw [rulesAt, rulesAt, h.get?_eq place hplace]

/-- The same is ignored on the way to a place outside. -/
theorem listsFor_eq (h : FileTree.SameOutside dir t u) (hlists : LieOutside t dir)
    (hplace : ¬ dir <+: place) :
  listsFor u place = listsFor t place
  := by
  have hway : files.map (rulesOnWay u place) = files.map (rulesOnWay t place) := by
    apply List.map_congr_left
    intro file hfile
    have hrules : ∀ n, rulesAt u (place.take n ++ file) = rulesAt t (place.take n ++ file) := by
      intro n
      apply rulesAt_eq h
      apply not_isPrefix_append (hlists.ne_name file hfile)
      exact fun hin => hplace (hin.trans (List.take_prefix n place))
    rw [rulesOnWay, rulesOnWay]
    simp only [hrules]
  have huser : userRules u = userRules t := by
    rw [userRules, userRules, h.userIgnore?_eq]
    cases huser : t.userIgnore? with
    | none => rfl
    | some place => simp only [rulesAt_eq h (hlists.not_isPrefix place huser)]
  rw [listsFor, listsFor, hway, huser]

theorem isReached_eq (h : FileTree.SameOutside dir t u) (hlists : LieOutside t dir)
    (hplace : ¬ dir <+: place ++ names) :
  isReached u place names = isReached t place names
  := by
  rw [isReached, isReached, listsFor_eq h hlists hplace]

end Ignore

/-! ### What a search finds outside -/

/-- Searches that find the same find it in the same order. -/
theorem Discovery.search_eq_of_mem_iff {d : Discovery} {t u : FileTree} (ht : t.root.WellFormed)
    (hu : u.root.WellFormed) (h : ∀ p, p ∈ d.search u ↔ p ∈ d.search t) :
  d.search u = d.search t
  := by
  have hsorted : ∀ v, (d.search v).Pairwise fun p q => p.le q = true := by
    intro v
    apply List.pairwise_mergeSort
    · exact fun _ _ _ => Path.le_trans
    · exact Path.le_total
  have hnodup : ∀ {v : FileTree}, v.root.WellFormed → (d.search v).Nodup := by
    intro v hv
    apply (d.distinct_search hv).imp
    rintro p q hpq rfl
    rw [BEq.rfl] at hpq
    cases hpq
  have hspells : ∀ {v : FileTree} {p : Path}, v.root.WellFormed → p ∈ d.search v → d.Spells p :=
    fun hv hp => (of_mem_walk hv (mem_search.mp hp).1).1
  apply List.Perm.eq_of_pairwise _ (hsorted u) (hsorted t)
  · exact (List.perm_ext_iff_of_nodup (hnodup hu) (hnodup ht)).mpr h
  · intro p q hp hq hpq hqp
    exact (hspells hu hp).eq_of_beq (hspells ht hq) (Path.beq_of_le_of_le hpq hqp)

namespace FileTree.SameOutside

variable {dir : Place} {t u : FileTree} {d : Discovery} {p : Path}

theorem isSmall_eq (h : SameOutside dir t u) (hp : ¬ t.Enters dir p) :
  d.isSmall u p = d.isSmall t p
  := by
  rw [Discovery.isSmall, Discovery.isSmall, h.find_eq hp]

/-- Files outside are found in both trees. -/
theorem mem_search (h : SameOutside dir t u) (ht : t.root.WellFormed)
    (hlists : Ignore.LieOutside t dir) (hp : ¬ t.Enters dir p) (hmem : p ∈ d.search t) :
  p ∈ d.search u
  := by
  obtain ⟨hwalk, haccepts, hsmall⟩ := Discovery.mem_search.mp hmem
  obtain ⟨-, e, size, hfind, hsize, -⟩ := Discovery.of_mem_search hmem
  obtain ⟨hspells, hkept⟩ := Discovery.of_mem_walk ht hwalk
  have hfind' : u.find p = .ok e := (h.find_eq hp).trans hfind
  apply Discovery.mem_search.mpr
  refine ⟨?_, haccepts, (h.isSmall_eq hp).trans hsmall⟩
  apply Discovery.mem_walk_of_find hspells hfind'
  · rintro rfl
    cases hsize
  · -- the way to the file goes through the same root, and nothing on it is ignored
    rintro ⟨place, names, hplace, hnames, rfl, hignored⟩
    apply hkept
    obtain ⟨target, htarget, -⟩ := get?_of_find hfind
    obtain ⟨place', hplace', rfl⟩ := place_of_place_pathOf hspells.1 hnames htarget
    obtain ⟨place'', hplace'', htarget'⟩ :=
      place_of_place_pathOf hspells.1 hnames ((h.place_eq hp).trans htarget)
    rw [hplace] at hplace''
    cases hplace''
    obtain rfl := List.append_cancel_right htarget'
    refine ⟨place', names, hplace', hnames, rfl, ?_⟩
    rw [← hignored, Ignore.isReached_eq h hlists (not_isPrefix_of_place hp htarget)]

/-- If the patterns accept nothing whose way enters a directory, then a search finds the same
whatever is there. -/
theorem search_eq (h : SameOutside dir t u) (ht : t.root.WellFormed) (hu : u.root.WellFormed)
    (hlists : Ignore.LieOutside t dir) (hd : ∀ p, d.accepts p = true → ¬ t.Enters dir p) :
  d.search u = d.search t
  := by
  have hlists' : Ignore.LieOutside u dir :=
    ⟨hlists.ne_name, fun place => h.userIgnore?_eq ▸ hlists.not_isPrefix place⟩
  apply Discovery.search_eq_of_mem_iff ht hu
  intro p
  constructor
  · intro hmem
    apply h.symm.mem_search hu hlists' _ hmem
    rw [h.enters_iff]
    exact hd p (Discovery.of_mem_search hmem).1
  · intro hmem
    exact h.mem_search ht hlists (hd p (Discovery.of_mem_search hmem).1) hmem

end FileTree.SameOutside

/-- If the only pattern is a name, the patterns accept the entry of the root by this name, and the
name alone. -/
theorem Discovery.parts_of_accepts {root p : Path} {config : IndexConfig} {d : Discovery}
    {name : String} (hd : ofConfig root config = .ok d) (hconfig : config.filePatterns = [name])
    (hliteral : Glob.IsLiteral name) (hname : FileNode.IsName name) (hroot : root.parts ≠ [])
    (h : d.accepts p = true) :
  p.parts = root.parts ++ [.name name] ∨ p.parts = [.name name]
  := by
  obtain ⟨rfl, hincludes, -⟩ := of_ofConfig hd
  obtain ⟨g, hg, haccepts⟩ := Glob.compile_literal hliteral
  rw [hconfig, Glob.compileAll, hg] at hincludes
  have honly : [g] = d.includes := Except.ok.inj hincludes
  rw [accepts, ← honly, List.any_cons, List.any_nil, Bool.or_false, Bool.and_eq_true] at h
  apply Path.parts_of_spelling_relative hname hroot ((haccepts _).mp h.1)

/-! ### Changes in a directory -/

namespace FileNode

/-- What is put into a directory leaves alone what is not below it. -/
theorem entry_get?_put_of_not_isPrefix {new n : FileNode} {place other : Place} {name : String}
    (hplace : (n.get? place).map entry = some .directory) (hother : ¬ place ++ [name] <+: other) :
  ((put new n (place ++ [name])).get? other).map entry = (n.get? other).map entry
  := by
  induction place generalizing n other with
  | nil =>
      cases other with
      | nil => exact hplace.symm
      | cons first rest =>
          have hname : (name == first) = false := by
            rw [beq_eq_false_iff_ne]
            rintro rfl
            exact hother ⟨rest, rfl⟩
          rw [List.nil_append, put, get?_cons, get?_cons, entries, Table.get?_put,
            if_neg (by rw [hname]; exact Bool.false_ne_true)]
  | cons first place ih =>
      rw [get?_cons] at hplace
      cases hget : n.entries.get? first with
      | none =>
          rw [hget] at hplace
          cases hplace
      | some m =>
          rw [hget, Option.bind_some] at hplace
          cases other with
          | nil =>
              cases n with
              | directory entries => rfl
              | file content modified => cases hget
              | unreadable size modified reason => cases hget
          | cons second rest =>
              rw [List.cons_append, put, get?_cons, get?_cons, entries, Table.get?_put]
              by_cases hname : first = second
              · subst hname
                rw [if_pos BEq.rfl, hget, Option.getD_some, Option.bind_some, Option.bind_some]
                apply ih hplace
                intro hin
                exact hother (List.cons_prefix_cons.mpr ⟨rfl, hin⟩)
              · rw [if_neg (by rwa [beq_iff_eq])]

end FileNode

namespace FileTree

variable {dir place : Place} {t u : FileTree} {name segment : String} {segments : List String}

theorem sameOutside_set (hplace : t.get? place = some .directory) (hin : dir <+: place ++ [name])
    (e : FileEntry) :
  SameOutside dir t (t.set (place ++ [name]) e)
  := by
  refine ⟨rfl, rfl, ?_⟩
  intro other hother
  apply FileNode.entry_get?_put_of_not_isPrefix hplace
  exact fun hbelow => hother (hin.trans hbelow)

/-- The way to something goes through directories. -/
theorem directory_of_get?_concat {e : FileEntry} (h : t.get? (place ++ [name]) = some e) :
  t.get? place = some .directory
  := by
  obtain ⟨m, hm, -⟩ := Option.map_eq_some_iff.mp h
  rw [FileNode.get?_append] at hm
  obtain ⟨n, hn, hbelow⟩ := Option.bind_eq_some_iff.mp hm
  rw [get?, hn]
  cases n with
  | directory entries => rfl
  | file content modified => cases hbelow
  | unreadable size modified reason => cases hbelow

/-- A segment that leads from a directory to what is none leads down by its name. -/
theorem step_eq_append (hplace : t.get? place = some .directory)
    (hstep : t.get? (step place segment) ≠ some .directory) :
  step place segment = place ++ [segment]
  := by
  rw [step] at hstep ⊢
  split
  · next hidle =>
    rw [if_pos hidle] at hstep
    exact absurd hplace hstep
  · next hidle =>
    rw [if_neg hidle] at hstep
    split
    · next hup =>
      rw [if_pos hup] at hstep
      exfalso
      apply hstep
      cases place using List.reverseRecOn with
      | nil => exact hplace
      | append_singleton place name _ =>
          rw [List.dropLast_concat]
          apply directory_of_get?_concat hplace
    · rfl

/-- The way of segments is there as far as it stays outside of a directory. -/
def IsMadeOutside (t : FileTree) (dir place : Place) (segments : List String) : Prop :=
  ∀ front, front <+: segments → ¬ dir <+: front.foldl step place →
    t.get? (front.foldl step place) ≠ none

instance (t : FileTree) (dir place : Place) (segments : List String) :
    Decidable (t.IsMadeOutside dir place segments) :=
  decidable_of_iff (∀ front ∈ segments.inits, ¬ dir <+: front.foldl step place →
    t.get? (front.foldl step place) ≠ none) <| by simp only [List.mem_inits, IsMadeOutside]

theorem IsMadeOutside.tail (h : t.IsMadeOutside dir place (segment :: segments)) :
  t.IsMadeOutside dir (step place segment) segments
  := fun front hfront => h (segment :: front) (List.cons_prefix_cons.mpr ⟨rfl, hfront⟩)

theorem IsMadeOutside.congr (h : t.IsMadeOutside dir place segments) (hu : SameOutside dir t u) :
  u.IsMadeOutside dir place segments
  := by
  intro front hfront hout
  rw [hu.get?_eq _ hout]
  exact h front hfront hout

theorem sameOutside_makeDirectoriesFrom (h : t.IsMadeOutside dir place segments) :
  SameOutside dir t (t.makeDirectoriesFrom place segments).1
  := by
  induction segments generalizing t place with
  | nil => apply SameOutside.refl
  | cons segment segments ih =>
      rw [makeDirectoriesFrom]
      split
      · apply SameOutside.refl
      · next target hwalk =>
        obtain ⟨hplace, -, hnext⟩ := walk_cons_eq_ok hwalk
        obtain rfl : step place segment = target := Except.ok.inj hnext
        split
        · apply ih h.tail
        · apply SameOutside.refl
        · next hnone =>
          split
          · apply SameOutside.refl
          · have hdown : step place segment = place ++ [segment] := by
              apply step_eq_append hplace
              rw [hnone]
              apply (Option.some_ne_none _).symm
            have hin : dir <+: step place segment := by
              by_contra hout
              exact h [segment] ⟨segments, rfl⟩ hout hnone
            have hset : SameOutside dir t (t.set (step place segment) .directory) := by
              rw [hdown] at hin ⊢
              apply sameOutside_set hplace hin
            apply hset.trans (ih (h.tail.congr hset))

theorem sameOutside_makeDirectories {p : Path} (h : t.IsMadeOutside dir (t.start p) p.segments) :
  SameOutside dir t (t.makeDirectories p).1
  := by
  rw [makeDirectories]
  split
  · apply SameOutside.refl
  · split
    · apply SameOutside.refl
    · split
      · apply SameOutside.refl
      · apply sameOutside_makeDirectoriesFrom h

/-- A file that is put into a directory changes nothing outside. -/
theorem sameOutside_putFile {p : Path} {content : List UInt8}
    (hp : dir <+: p.segments.foldl step (t.start p)) (h : t.putFile p content = .ok u) :
  SameOutside dir t u
  := by
  rw [putFile, putFileAt] at h
  split at h
  · cases h
  · next target hplace =>
    split at h
    · cases h
    · cases h
    · next hfile _ =>
      obtain rfl := Except.ok.inj h
      obtain ⟨-, -, hwalk⟩ := place_eq_ok_iff.mp hplace
      rw [foldl_step_of_walk hwalk] at hp
      have hne : p.segments ≠ [] := by
        rw [Path.segments_eq, ne_eq, List.map_eq_nil_iff]
        exact p.pieces_ne_nil
      obtain ⟨front, last, hsegments⟩ := (List.eq_nil_or_concat' p.segments).resolve_left hne
      rw [hsegments] at hwalk
      obtain ⟨parent, hparent, hdirectory⟩ := walk_append_eq_ok hwalk
      rw [walk_append_of_ok hparent] at hwalk
      obtain ⟨-, -, hlast⟩ := walk_cons_eq_ok hwalk
      obtain rfl : step parent last = target := Except.ok.inj hlast
      rw [step_eq_append hdirectory hfile] at hp ⊢
      exact ⟨rfl, rfl, (sameOutside_set hdirectory hp _).get?_eq⟩

end FileTree

/-- To save a cache changes nothing outside of its directory, if the way there is made. -/
theorem ParseCache.sameOutside_save (c : ParseCache) {t : FileTree} {dir : Path} {place : Place}
    (hway : t.IsMadeOutside place (t.start dir) dir.segments)
    (hfile : place <+: (filePath dir).segments.foldl FileTree.step (t.start (filePath dir))) :
  FileTree.SameOutside place t (c.save t dir).1
  := by
  have hmake := FileTree.sameOutside_makeDirectories hway
  rw [save]
  split
  · next u e hu =>
    rw [hu] at hmake
    exact hmake
  · next u hu =>
    rw [hu] at hmake
    split
    · exact hmake
    · next v hv =>
      rw [← hmake.start_eq] at hfile
      apply hmake.trans (FileTree.sameOutside_putFile hfile hv)

end JobIndex
