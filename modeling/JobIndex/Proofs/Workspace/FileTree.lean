import JobIndex.Proofs.Table
import JobIndex.Workspace.FileTree
import Mathlib.Tactic.SplitIfs

/-!
# What changes leave in a file tree

A file that is put at a place is found there, and no directory is lost unless it stood at that
place. So a path that led somewhere still leads there after a file has been put or directories have
been made: the way to it goes through directories only (`FileTree.KeepsDirectories`). Where
directories could not be made along a path, the path does not lead to a directory.
-/

namespace JobIndex

/-- A result of which something has been checked is there. -/
theorem exists_ok_of_any {ε α : Type} {result : Except ε α} {check : α → Bool}
    (h : result.toOption.any check = true) :
  ∃ a, result = .ok a ∧ check a = true
  := by
  cases result with
  | error e => cases h
  | ok a => exact ⟨a, rfl, h⟩

/-! ### Nodes -/

/-- Only files that can be read have bytes. -/
theorem FileEntry.bytes_eq_ok_iff {e : FileEntry} {content : List UInt8} :
  e.bytes = .ok content ↔ ∃ modified, e = .file content modified
  := by
  cases e <;> simp [bytes]

namespace FileNode

theorem get?_cons (n : FileNode) (name : String) (names : Place) :
  n.get? (name :: names) = (n.entries.get? name).bind fun m => m.get? names
  := by
  rw [get?]
  cases n.entries.get? name <;> rfl

theorem get?_put_self (new n : FileNode) (place : Place) :
  (put new n place).get? place = some new
  := by
  induction place generalizing n with
  | nil => rfl
  | cons name names ih =>
      rw [put, get?_cons, entries, Table.get?_put, if_pos BEq.rfl, Option.bind_some, ih]

/-- A directory stays one when a node is put where there is none. -/
theorem entry_get?_put {new n : FileNode} {place other : Place}
    (hother : (n.get? other).map entry = some .directory)
    (hplace : (n.get? place).map entry ≠ some .directory) :
  ((put new n place).get? other).map entry = some .directory
  := by
  induction place generalizing n other with
  | nil =>
      -- below a file there is nothing
      cases n with
      | directory entries => exact absurd rfl hplace
      | file content modified => cases other <;> cases hother
      | unreadable size modified reason => cases other <;> cases hother
  | cons name names ih =>
      cases other with
      | nil => rfl
      | cons first rest =>
          rw [get?_cons] at hother hplace
          rw [put, get?_cons, entries, Table.get?_put]
          by_cases hname : name = first
          · subst hname
            rw [if_pos BEq.rfl, Option.bind_some]
            cases hget : n.entries.get? name with
            | none =>
                rw [hget] at hother
                cases hother
            | some m =>
                rw [hget, Option.bind_some] at hother hplace
                apply ih hother hplace
          · rw [if_neg (by simpa using hname)]
            exact hother

end FileNode

namespace FileTree

variable {t u : FileTree}

/-! ### Places -/

theorem get?_set_self (t : FileTree) (place : Place) (e : FileEntry) :
  (t.set place e).get? place = some e
  := by
  rw [get?, set, FileNode.get?_put_self, Option.map_some]
  cases e <;> rfl

/-- All directories of `t` are directories of `u`, and relative paths start at the same place. -/
structure KeepsDirectories (t u : FileTree) : Prop where
  directory : ∀ place, t.get? place = some .directory → u.get? place = some .directory
  here_eq : u.here = t.here

theorem KeepsDirectories.refl (t : FileTree) :
  t.KeepsDirectories t
  := ⟨fun _ h => h, rfl⟩

theorem KeepsDirectories.trans {v : FileTree} (h : t.KeepsDirectories u)
    (h' : u.KeepsDirectories v) :
  t.KeepsDirectories v
  := ⟨fun place hplace => h'.directory place (h.directory place hplace), h'.here_eq.trans h.here_eq⟩

theorem keepsDirectories_set {place : Place} (h : t.get? place ≠ some .directory) (e : FileEntry) :
  t.KeepsDirectories (t.set place e)
  := ⟨fun _ hother => FileNode.entry_get?_put hother h, rfl⟩

/-! ### Following paths -/

theorem walk_cons_of_directory {place : Place} {segment : String} (segments : List String)
    (hplace : t.get? place = some .directory) (hlong : isTooLong segment = false) :
  t.walk place (segment :: segments) = t.walk (step place segment) segments
  := by
  rw [walk, hplace]
  simp only [hlong, Bool.false_eq_true, if_false]

/-- A walk goes on from a directory, with a name that is not too long. -/
theorem walk_cons_eq_ok {place target : Place} {segment : String} {segments : List String}
    (h : t.walk place (segment :: segments) = .ok target) :
  t.get? place = some .directory ∧ isTooLong segment = false ∧
    t.walk (step place segment) segments = .ok target
  := by
  rw [walk] at h
  split at h
  · cases h
  · next hplace =>
    split at h
    · cases h
    · next hlong => exact ⟨hplace, by simpa using hlong, h⟩
  · cases h

theorem walk_append_of_ok {place target : Place} {segments : List String}
    (h : t.walk place segments = .ok target) (more : List String) :
  t.walk place (segments ++ more) = t.walk target more
  := by
  induction segments generalizing place with
  | nil =>
      obtain rfl : place = target := Except.ok.inj h
      rfl
  | cons segment segments ih =>
      obtain ⟨hplace, hlong, hrest⟩ := walk_cons_eq_ok h
      rw [List.cons_append, walk_cons_of_directory _ hplace hlong]
      apply ih hrest

/-- A walk passes through directories only. -/
theorem walk_append_eq_ok {place target : Place} {segments : List String} {last : String}
    (h : t.walk place (segments ++ [last]) = .ok target) :
  ∃ dir, t.walk place segments = .ok dir ∧ t.get? dir = some .directory
  := by
  induction segments generalizing place with
  | nil =>
      obtain ⟨hplace, -, -⟩ := walk_cons_eq_ok h
      exact ⟨place, rfl, hplace⟩
  | cons segment segments ih =>
      obtain ⟨hplace, hlong, hrest⟩ := walk_cons_eq_ok h
      rw [walk_cons_of_directory segments hplace hlong]
      apply ih hrest

/-- A walk leads to the same place where no directory is lost. -/
theorem KeepsDirectories.walk (h : t.KeepsDirectories u) {place target : Place}
    {segments : List String} (hwalk : t.walk place segments = .ok target) :
  u.walk place segments = .ok target
  := by
  induction segments generalizing place with
  | nil => exact hwalk
  | cons segment segments ih =>
      obtain ⟨hplace, hlong, hrest⟩ := walk_cons_eq_ok hwalk
      rw [walk_cons_of_directory segments (h.directory place hplace) hlong]
      apply ih hrest

theorem check_eq_ok_iff {p : Path} :
  check p = .ok () ↔ '\x00' ∉ p.spelling.toList ∧ p.spelling ≠ ""
  := by
  simp only [check, List.contains_iff_mem, beq_iff_eq]
  split_ifs <;> simp_all

/-- A path leads to a place if it is a path, is not too long, and its segments lead there. -/
theorem place_eq_ok_iff {p : Path} {target : Place} :
  t.place p = .ok target ↔
    check p = .ok () ∧ isTooLongPath p = false ∧ t.walk (t.start p) p.segments = .ok target
  := by
  rw [place]
  cases check p with
  | error e => simp
  | ok _ => cases isTooLongPath p <;> simp

theorem KeepsDirectories.place (h : t.KeepsDirectories u) {p : Path} {target : Place}
    (hplace : t.place p = .ok target) :
  u.place p = .ok target
  := by
  obtain ⟨hcheck, hlong, hwalk⟩ := place_eq_ok_iff.mp hplace
  have hstart : u.start p = t.start p := by
    rw [start, start, h.here_eq]
  apply place_eq_ok_iff.mpr
  rw [hstart]
  exact ⟨hcheck, hlong, h.walk hwalk⟩

/-! ### Finding and reading -/

theorem find_of_place {p : Path} {place : Place} {e : FileEntry} (hplace : t.place p = .ok place)
    (hget : t.get? place = some e) :
  t.find p = .ok e
  := by
  rw [find, hplace]
  dsimp only
  rw [hget]

theorem contentOf_of_find {p : Path} {e : FileEntry} (h : t.find p = .ok e) :
  t.contentOf p = e.bytes
  := by
  rw [contentOf, h]

/-! ### Putting a file -/

/-- A file that has been put is found. -/
theorem contentOf_putFile {p : Path} {content : List UInt8} (h : t.putFile p content = .ok u) :
  u.contentOf p = .ok content
  := by
  rw [putFile, putFileAt] at h
  cases hplace : t.place p with
  | error e =>
      rw [hplace] at h
      cases h
  | ok place =>
      simp only [hplace] at h
      split at h
      · cases h
      · cases h
      · next hdirectory _ =>
        obtain rfl := Except.ok.inj h
        have hkeeps := keepsDirectories_set hdirectory (.file content t.now)
        -- the tree a moment later holds the same
        have htick : t.KeepsDirectories (t.set place (.file content t.now)).tick :=
          ⟨hkeeps.directory, hkeeps.here_eq⟩
        apply contentOf_of_find (find_of_place (htick.place hplace) (get?_set_self t place _))

/-- Where a file cannot be put, there is none to be read. -/
theorem contentOf_of_putFile_error {p : Path} {content : List UInt8} {e : IoError}
    (h : t.putFile p content = .error e) :
  ∃ e', t.contentOf p = .error e'
  := by
  rw [putFile, putFileAt] at h
  cases hplace : t.place p with
  | error e' =>
      use e'
      rw [contentOf, find, hplace]
  | ok place =>
      simp only [hplace] at h
      split at h
      · next hget =>
        use .isDirectory
        apply contentOf_of_find (find_of_place hplace hget)
      · next reason hget =>
        use reason
        apply contentOf_of_find (find_of_place hplace hget)
      · cases h

/-! ### Making directories -/

theorem makeDirectoriesFrom_keepsDirectories (t : FileTree) (place : Place)
    (segments : List String) :
  t.KeepsDirectories (t.makeDirectoriesFrom place segments).1
  := by
  induction segments generalizing t place with
  | nil => apply KeepsDirectories.refl
  | cons segment segments ih =>
      rw [makeDirectoriesFrom]
      split
      · apply KeepsDirectories.refl
      · next target _ =>
        split
        · apply ih
        · apply KeepsDirectories.refl
        · next hnone =>
          split
          · apply KeepsDirectories.refl
          · have hset : t.get? target ≠ some .directory := by
              rw [hnone]
              exact fun h => (nomatch h)
            apply (keepsDirectories_set hset .directory).trans (ih _ _)

/-- Where directories could not be made, segments do not lead to a directory. -/
theorem not_directory_of_makeDirectoriesFrom {place target : Place} {segments : List String}
    {e : IoError} (h : t.makeDirectoriesFrom place segments = (u, some e))
    (hwalk : u.walk place segments = .ok target) :
  u.get? target ≠ some .directory
  := by
  induction segments generalizing t place with
  | nil => cases h
  | cons segment segments ih =>
      obtain ⟨hplace, hlong, hrest⟩ := walk_cons_eq_ok hwalk
      have hkeeps := t.makeDirectoriesFrom_keepsDirectories place (segment :: segments)
      rw [h] at hkeeps
      rw [makeDirectoriesFrom] at h
      split at h
      · next e' hfirst =>
        obtain ⟨rfl, -⟩ := Prod.mk.inj h
        rw [walk_cons_of_directory [] hplace hlong] at hfirst
        cases hfirst
      · next next hfirst =>
        obtain ⟨-, -, hnext⟩ := walk_cons_eq_ok hfirst
        obtain rfl : step place segment = next := Except.ok.inj hnext
        -- where there is no directory, the walk ends or stops
        have hstop : t = u → t.get? (step place segment) ≠ some .directory →
            u.get? target ≠ some .directory := by
          rintro rfl hnone
          cases segments with
          | nil =>
              obtain rfl : step place segment = target := Except.ok.inj hrest
              exact hnone
          | cons second segments =>
              obtain ⟨hdirectory, -, -⟩ := walk_cons_eq_ok hrest
              exact absurd hdirectory hnone
        split at h
        · apply ih h hrest
        · next hother hget =>
          obtain ⟨rfl, -⟩ := Prod.mk.inj h
          apply hstop rfl
          rw [hget, ne_eq, Option.some.injEq]
          exact hother
        · next hnone =>
          split at h
          · obtain ⟨rfl, -⟩ := Prod.mk.inj h
            apply hstop rfl
            rw [hnone]
            exact fun h => (nomatch h)
          · apply ih h hrest

end FileTree

/-! ### Entries of a directory -/

namespace Path

variable {dir : Path} {name : String}

theorem isAbsolute_of_not_mem (hname : '/' ∉ name.toList) :
  (⟨name⟩ : Path).isAbsolute = false
  := by
  rw [isAbsolute, beq_eq_false_iff_ne]
  intro hhead
  apply hname (List.mem_of_head? hhead)

/-- The characters of the path of an entry of a directory. -/
theorem toList_spelling_child (hdir : dir.spelling ≠ "") (hname : '/' ∉ name.toList) :
  ∃ front, (dir.child name).spelling.toList = front ++ '/' :: name.toList ∧
    (dir.spelling.toList = front ∨ dir.spelling.toList = front ++ ['/'])
  := by
  rw [child, join, isAbsolute_of_not_mem hname, beq_eq_false_iff_ne.mpr hdir, Bool.or_false]
  simp only [Bool.false_eq_true, if_false]
  split
  · next hlast =>
    obtain ⟨front, hfront⟩ := List.getLast?_eq_some_iff.mp (beq_iff_eq.mp hlast)
    exact ⟨front, by simp [hfront], Or.inr hfront⟩
  · exact ⟨dir.spelling.toList, by simp, Or.inl rfl⟩

/-- The path of an entry of a directory begins with the path of the directory. -/
theorem exists_spelling_child (hname : '/' ∉ name.toList) :
  ∃ rest, (dir.child name).spelling = dir.spelling ++ rest
  := by
  rw [child, join, isAbsolute_of_not_mem hname, Bool.false_or]
  split
  · next hempty =>
    rw [beq_iff_eq.mp hempty]
    exact ⟨name, (String.empty_append ..).symm⟩
  · split
    · exact ⟨name, rfl⟩
    · exact ⟨"/" ++ name, String.append_assoc ..⟩

theorem isAbsolute_child (hdir : dir.spelling ≠ "") (hname : '/' ∉ name.toList) :
  (dir.child name).isAbsolute = dir.isAbsolute
  := by
  have hne : dir.spelling.toList ≠ [] := by
    intro hnil
    apply hdir (String.toList_eq_nil_iff.mp hnil)
  obtain ⟨front, hchild, hfront⟩ := toList_spelling_child hdir hname
  rw [isAbsolute, isAbsolute, hchild]
  cases front with
  | nil =>
      obtain hfront | hfront := hfront
      · exact absurd hfront hne
      · rw [hfront]
        rfl
  | cons c front =>
      obtain hfront | hfront := hfront <;> rw [hfront] <;> rfl

theorem splitOn_of_not_mem {cs : List Char} (h : '/' ∉ cs) :
  cs.splitOn '/' = [cs]
  := by
  apply List.splitOnP_eq_singleton
  intro c hc
  rw [beq_eq_false_iff_ne]
  rintro rfl
  apply h hc

/-- What stands after the last slash is the last segment. -/
theorem splitOn_append_slash (front : List Char) {rest : List Char} (h : '/' ∉ rest) :
  (front ++ '/' :: rest).splitOn '/' = front.splitOn '/' ++ [rest]
  := by
  rw [List.splitOn, List.splitOnP_append_cons _ _ (by rfl), ← List.splitOn, ← List.splitOn,
    splitOn_of_not_mem h]

/-- The segments of a directory lead to it also if there is an empty one at their end. -/
theorem segments_child (hdir : dir.spelling ≠ "") (hname : '/' ∉ name.toList) :
  ∃ front, (dir.child name).segments = front ++ [name] ∧
    (dir.segments = front ∨ dir.segments = front ++ [""])
  := by
  obtain ⟨front, hchild, hfront⟩ := toList_spelling_child hdir hname
  use (front.splitOn '/').map String.ofList
  constructor
  · rw [segments, hchild, splitOn_append_slash front hname, List.map_append, List.map_singleton,
      String.ofList_toList]
  · obtain hfront | hfront := hfront
    · left
      rw [segments, hfront]
    · right
      rw [segments, hfront, splitOn_append_slash front List.not_mem_nil, List.map_append]
      rfl

end Path

namespace FileTree

/-- A path to an entry of a directory leads through that directory. -/
theorem directory_of_place_child {t : FileTree} {dir : Path} {name : String} {target : Place}
    (hdir : dir.spelling ≠ "") (hname : '/' ∉ name.toList)
    (h : t.place (dir.child name) = .ok target) :
  ∃ place, t.walk (t.start dir) dir.segments = .ok place ∧ t.get? place = some .directory
  := by
  have hstart : t.start (dir.child name) = t.start dir := by
    rw [start, start, Path.isAbsolute_child hdir hname]
  obtain ⟨-, -, hwalk⟩ := place_eq_ok_iff.mp h
  rw [hstart] at hwalk
  obtain ⟨front, hchild, hfront⟩ := Path.segments_child hdir hname
  rw [hchild] at hwalk
  obtain ⟨place, hplace, hdirectory⟩ := walk_append_eq_ok hwalk
  use place
  refine ⟨?_, hdirectory⟩
  obtain hfront | hfront := hfront
  · rw [hfront, hplace]
  · rw [hfront, walk_append_of_ok hplace, walk_cons_of_directory [] hdirectory (by rfl)]
    rfl

/-- Where the directories along a path could not be made, the path of an entry leads nowhere. -/
theorem place_child_of_makeDirectories_error {t u : FileTree} {dir : Path} {name : String}
    {e : IoError} (hname : '/' ∉ name.toList) (h : t.makeDirectories dir = (u, some e)) :
  ∃ e', u.place (dir.child name) = .error e'
  := by
  cases hplace : u.place (dir.child name) with
  | error e' => exact ⟨e', rfl⟩
  | ok target =>
      exfalso
      obtain ⟨hcheck, hlong, -⟩ := place_eq_ok_iff.mp hplace
      obtain ⟨rest, hspelling⟩ : ∃ rest, (dir.child name).spelling = dir.spelling ++ rest :=
        Path.exists_spelling_child hname
      rw [makeDirectories] at h
      split at h
      · cases h
      · next hdir =>
        rw [beq_iff_eq] at hdir
        obtain ⟨place, hwalk, hdirectory⟩ := directory_of_place_child hdir hname hplace
        have hcheck' : check dir = .ok () := by
          obtain ⟨hnul, -⟩ := check_eq_ok_iff.mp hcheck
          rw [hspelling, String.toList_append] at hnul
          apply check_eq_ok_iff.mpr ⟨fun hmem => hnul (List.mem_append_left _ hmem), hdir⟩
        have hlong' : isTooLongPath dir = false := by
          rw [isTooLongPath, decide_eq_false_iff_not, hspelling, String.utf8ByteSize_append] at hlong
          rw [isTooLongPath, decide_eq_false_iff_not]
          omega
        simp only [hcheck', hlong', Bool.false_eq_true, if_false] at h
        have hkeeps := t.makeDirectoriesFrom_keepsDirectories (t.start dir) dir.segments
        rw [h] at hkeeps
        have hstart : t.start dir = u.start dir := by
          rw [start, start, hkeeps.here_eq]
        rw [hstart] at h
        apply not_directory_of_makeDirectoriesFrom h hwalk hdirectory

/-! ### What can be read -/

variable {t : FileTree}

theorem find_of_contentOf {p : Path} {content : List UInt8} (h : t.contentOf p = .ok content) :
  ∃ modified, t.find p = .ok (.file content modified)
  := by
  unfold contentOf at h
  split at h
  · cases h
  · next e hfind =>
    obtain ⟨modified, rfl⟩ := FileEntry.bytes_eq_ok_iff.mp h
    exact ⟨modified, hfind⟩

theorem has_of_find {p : Path} {e : FileEntry} (h : t.find p = .ok e) :
  t.has p = true
  := by
  rw [has, h]
  rfl

theorem has_of_contentOf {p : Path} {content : List UInt8} (h : t.contentOf p = .ok content) :
  t.has p = true
  := by
  obtain ⟨modified, hfind⟩ := find_of_contentOf h
  apply has_of_find hfind

/-! ### Spellings of one path -/

/-- A walk that leads somewhere takes all steps. -/
theorem foldl_step_of_walk {place target : Place} {segments : List String}
    (h : t.walk place segments = .ok target) :
  segments.foldl step place = target
  := by
  induction segments generalizing place with
  | nil => exact Except.ok.inj h
  | cons segment segments ih =>
      obtain ⟨-, -, hrest⟩ := walk_cons_eq_ok h
      apply ih hrest

/-- The place that a part of a path leads to. -/
def follow (place : Place) : Path.Part → Place
  | .root => []
  | .here => place
  | .up => place.dropLast
  | .name text => place ++ [text]

/-- A segment leads where its part does. -/
theorem step_ofList (first : Bool) (place : Place) (segment : List Char) :
  step place (String.ofList segment) = (Path.Part.ofSegment first segment).toList.foldl follow place
  := by
  have heq : ∀ text : String, (String.ofList segment == text) = (segment == text.toList) := by
    intro text
    rw [Bool.eq_iff_iff, beq_iff_eq, beq_iff_eq, ← String.toList_inj, String.toList_ofList]
  rw [step, Path.Part.ofSegment, heq, heq, heq]
  by_cases hempty : segment = []
  · subst hempty
    rfl
  · by_cases hdot : segment = ['.']
    · subst hdot
      cases first <;> rfl
    · by_cases hdots : segment = ['.', '.']
      · subst hdots
        rfl
      · have hempty' : segment.isEmpty = false := by simpa using hempty
        simp [hempty, hdot, hdots, follow]

/-- Segments behind the first one lead where their parts do. -/
theorem foldl_follow_filterMap (place : Place) (segments : List (List Char)) :
  (segments.filterMap (Path.Part.ofSegment false)).foldl follow place
    = (segments.map String.ofList).foldl step place
  := by
  induction segments generalizing place with
  | nil => rfl
  | cons segment segments ih =>
      rw [List.map_cons, List.foldl_cons, step_ofList false, ← ih, List.filterMap_cons]
      cases Path.Part.ofSegment false segment <;> rfl

/-- The segments of a path lead where its parts do. -/
theorem foldl_follow_parts (p : Path) :
  p.parts.foldl follow t.here = p.segments.foldl step (t.start p)
  := by
  rw [Path.parts, Path.segments, start]
  cases hsplit : p.spelling.toList.splitOn '/' with
  | nil => exact absurd hsplit (List.splitOnP_ne_nil _ _)
  | cons first rest =>
      dsimp only
      rw [List.map_cons, List.foldl_cons, step_ofList true, ← foldl_follow_filterMap]
      cases p.isAbsolute with
      | true =>
          simp only [if_true, List.foldl_cons, List.foldl_append]
          rfl
      | false => simp only [Bool.false_eq_true, if_false, List.foldl_append]

/-- A path leads where its parts do. -/
theorem foldl_follow_of_place {p : Path} {target : Place} (h : t.place p = .ok target) :
  p.parts.foldl follow t.here = target
  := by
  obtain ⟨-, -, hwalk⟩ := place_eq_ok_iff.mp h
  rw [foldl_follow_parts, foldl_step_of_walk hwalk]

theorem get?_of_find {p : Path} {e : FileEntry} (h : t.find p = .ok e) :
  ∃ target, t.place p = .ok target ∧ t.get? target = some e
  := by
  rw [find] at h
  split at h
  · cases h
  · next target htarget =>
    use target, htarget
    split at h
    · cases h
    · next hget =>
      cases h
      exact hget

/-- Spellings of one path lead to the same, if they lead anywhere. -/
theorem find_eq_of_parts {p q : Path} (hpq : p.parts = q.parts) {e e' : FileEntry}
    (hp : t.find p = .ok e) (hq : t.find q = .ok e') :
  e = e'
  := by
  have hfind : ∀ {r : Path} {e : FileEntry}, t.find r = .ok e →
      t.get? (r.parts.foldl follow t.here) = some e := by
    intro r e h
    obtain ⟨target, htarget, hget⟩ := get?_of_find h
    rw [foldl_follow_of_place htarget, hget]
  have hget := hfind hp
  rw [hpq, hfind hq] at hget
  exact (Option.some.inj hget).symm

end FileTree

end JobIndex
