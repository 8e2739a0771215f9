import JobIndex.Proofs.Path
import JobIndex.Proofs.Workspace.FileTree
import JobIndex.Workspace.Discovery
import Mathlib.Data.List.Pairwise

/-!
# A search finds each file once

In a well-formed tree a directory holds what it holds by names that differ, and each of them is a
name: it is not empty, it leads neither nowhere nor up, and it has no slash. Then

* no two of the places below a directory are the same (`FileNode.nodup_contents`);
* the names on the way are the parts of the path that they spell, so that paths to different places
  are different (`Path.parts_pathOf`, `Discovery.names_eq_of_beq`).

So of the files that a search finds no two are equal. In any tree all that names lead to from a
place is listed there (`FileTree.mem_filesBelow`), and a path below the root leads through the place
of the root (`FileTree.place_of_place_pathOf`).
-/

namespace JobIndex

/-! ### Well-formed nodes -/

namespace FileNode

/-- A name by which a directory can hold something. -/
def IsName (name : String) : Prop :=
  name ≠ "" ∧ name ≠ "." ∧ name ≠ ".." ∧ '/' ∉ name.toList

mutual

/-- All directories in a node hold what they hold by names that differ. -/
def WellFormed : FileNode → Prop
  | .file .. => True
  | .unreadable .. => True
  | .directory entries => WellFormedEntries entries

/-- The entries of a directory have names that differ, and are well-formed. -/
def WellFormedEntries : List (String × FileNode) → Prop
  | [] => True
  | (name, n) :: entries =>
    IsName name ∧ (∀ e ∈ entries, e.1 ≠ name) ∧ n.WellFormed ∧ WellFormedEntries entries

end

instance (name : String) : Decidable (IsName name) :=
  inferInstanceAs (Decidable (name ≠ "" ∧ name ≠ "." ∧ name ≠ ".." ∧ '/' ∉ name.toList))

mutual

def decideWellFormed : (n : FileNode) → Decidable n.WellFormed
  | .file .. => isTrue trivial
  | .unreadable .. => isTrue trivial
  | .directory entries => decideWellFormedEntries entries

def decideWellFormedEntries : (entries : List (String × FileNode)) →
    Decidable (WellFormedEntries entries)
  | [] => isTrue trivial
  | (name, n) :: entries =>
    have := decideWellFormed n
    have := decideWellFormedEntries entries
    inferInstanceAs (Decidable (IsName name ∧ (∀ e ∈ entries, e.1 ≠ name) ∧ n.WellFormed ∧
      WellFormedEntries entries))

end

instance (n : FileNode) : Decidable n.WellFormed :=
  decideWellFormed n

theorem WellFormedEntries.of_mem {entries : List (String × FileNode)}
    (h : WellFormedEntries entries) {e : String × FileNode} (he : e ∈ entries) :
  IsName e.1 ∧ e.2.WellFormed
  := by
  induction entries with
  | nil => cases he
  | cons first entries ih =>
      obtain ⟨hname, -, hfirst, hrest⟩ := h
      obtain rfl | he := List.mem_cons.mp he
      · exact ⟨hname, hfirst⟩
      · apply ih hrest he

theorem get?_append (n : FileNode) (place names : Place) :
  n.get? (place ++ names) = (n.get? place).bind fun m => m.get? names
  := by
  induction place generalizing n with
  | nil => rfl
  | cons name place ih =>
      rw [List.cons_append, get?_cons, get?_cons, Option.bind_assoc]
      congr 1
      funext m
      apply ih

/-- What is below a well-formed node is well-formed. -/
theorem WellFormed.get? {n m : FileNode} (h : n.WellFormed) {place : Place}
    (hget : n.get? place = some m) :
  m.WellFormed
  := by
  induction place generalizing n with
  | nil =>
      cases hget
      exact h
  | cons name names ih =>
      rw [get?_cons] at hget
      obtain ⟨child, hchild, hbelow⟩ := Option.bind_eq_some_iff.mp hget
      obtain ⟨key, -, hmem⟩ := Table.mem_of_get? hchild
      cases n with
      | file content modified => cases hmem
      | unreadable size modified reason => cases hmem
      | directory entries => apply ih (WellFormedEntries.of_mem h hmem).2 hbelow

/-! ### The places below a node -/

/-- A place in a directory begins with the name of one of its entries. -/
theorem exists_of_mem_contentsOf {entries : List (String × FileNode)} {place : Place}
    (h : place ∈ (contentsOf entries).map Prod.fst) :
  ∃ e ∈ entries, ∃ rest, place = e.1 :: rest ∧
    (rest = [] ∨ rest ∈ e.2.contents.map Prod.fst)
  := by
  induction entries with
  | nil => cases h
  | cons first entries ih =>
      obtain ⟨name, n⟩ := first
      rw [contentsOf, List.map_append, List.map_cons, List.map_map, List.mem_append,
        List.mem_cons] at h
      obtain (rfl | h) | h := h
      · exact ⟨(name, n), List.mem_cons_self, [], rfl, Or.inl rfl⟩
      · obtain ⟨e, he, rfl⟩ := List.mem_map.mp h
        exact ⟨(name, n), List.mem_cons_self, e.1, rfl, Or.inr (List.mem_map_of_mem he)⟩
      · obtain ⟨e, he, hplace⟩ := ih h
        exact ⟨e, List.mem_cons_of_mem _ he, hplace⟩

theorem ne_nil_of_mem_contents {n : FileNode} {place : Place}
    (h : place ∈ n.contents.map Prod.fst) :
  place ≠ []
  := by
  cases n with
  | file content modified => cases h
  | unreadable size modified reason => cases h
  | directory entries =>
      obtain ⟨e, -, rest, rfl, -⟩ := exists_of_mem_contentsOf h
      apply List.cons_ne_nil

/-- The contents of a directory hold each of its entries, and what is below. -/
theorem mem_contentsOf {entries : List (String × FileNode)} {name : String} {n : FileNode}
    (h : (name, n) ∈ entries) :
  ([name], n.entry) ∈ contentsOf entries ∧
    ∀ e ∈ n.contents, (name :: e.1, e.2) ∈ contentsOf entries
  := by
  induction entries with
  | nil => cases h
  | cons first entries ih =>
      rw [contentsOf]
      obtain rfl | h := List.mem_cons.mp h
      · refine ⟨List.mem_cons_self, ?_⟩
        intro e he
        apply List.mem_append_left
        apply List.mem_cons_of_mem
        exact List.mem_map.mpr ⟨e, he, rfl⟩
      · obtain ⟨hentry, hbelow⟩ := ih h
        exact ⟨List.mem_append_right _ hentry, fun e he => List.mem_append_right _ (hbelow e he)⟩

/-- What names lead to is among the contents. -/
theorem mem_contents_of_get? {n m : FileNode} {place : Place} (hplace : place ≠ [])
    (h : n.get? place = some m) :
  (place, m.entry) ∈ n.contents
  := by
  induction place generalizing n with
  | nil => exact absurd rfl hplace
  | cons name names ih =>
      rw [get?_cons] at h
      obtain ⟨child, hchild, hbelow⟩ := Option.bind_eq_some_iff.mp h
      obtain ⟨key, hkey, hmem⟩ := Table.mem_of_get? hchild
      rw [beq_iff_eq.mp hkey] at hmem
      cases n with
      | file content modified => cases hmem
      | unreadable size modified reason => cases hmem
      | directory entries =>
          obtain ⟨hentry, hcontents⟩ := mem_contentsOf hmem
          by_cases hnames : names = []
          · subst hnames
            cases hbelow
            exact hentry
          · exact hcontents _ (ih hnames hbelow)

mutual

/-- No two of the places below a well-formed node are the same. -/
theorem nodup_contents :
    ∀ {n : FileNode}, n.WellFormed → (n.contents.map Prod.fst).Nodup
  | .file .., _ => List.nodup_nil
  | .unreadable .., _ => List.nodup_nil
  | .directory _, h => nodup_contentsOf h

theorem nodup_contentsOf :
    ∀ {entries : List (String × FileNode)}, WellFormedEntries entries →
      ((contentsOf entries).map Prod.fst).Nodup
  | [], _ => List.nodup_nil
  | (name, n) :: entries, ⟨_, hnew, hn, hrest⟩ => by
      have hbelow : (n.contents.map Prod.fst).Nodup := nodup_contents hn
      rw [contentsOf, List.map_append, List.map_cons, List.map_map]
      apply List.nodup_append.mpr
      have hmap : n.contents.map (Prod.fst ∘ fun (place, e) => (name :: place, e))
          = (n.contents.map Prod.fst).map (name :: ·) := by
        rw [List.map_map]
        rfl
      rw [hmap]
      constructor
      · apply List.nodup_cons.mpr
        constructor
        · intro hmem
          obtain ⟨place, hplace, heq⟩ := List.mem_map.mp hmem
          apply ne_nil_of_mem_contents hplace (List.cons.inj heq).2
        · apply List.pairwise_map.mpr (hbelow.imp _)
          intro a b hab heq
          apply hab (List.cons.inj heq).2
      · constructor
        · apply nodup_contentsOf hrest
        · -- what is below the other entries begins with another name
          intro a ha b hb hab
          obtain ⟨rest', rfl⟩ : ∃ rest', a = name :: rest' := by
            obtain rfl | ha := List.mem_cons.mp ha
            · exact ⟨[], rfl⟩
            · obtain ⟨place, -, rfl⟩ := List.mem_map.mp ha
              exact ⟨place, rfl⟩
          obtain ⟨e, he, rest, hb, -⟩ := exists_of_mem_contentsOf hb
          apply hnew e he (List.cons.inj (hab.trans hb)).1.symm

end

/-- The names on the way to a place below a well-formed node are names. -/
theorem isName_of_mem_contents {n : FileNode} (h : n.WellFormed) {place : Place}
    (hplace : place ∈ n.contents.map Prod.fst) :
  ∀ name ∈ place, IsName name
  := by
  induction place generalizing n with
  | nil => exact fun _ hname => (nomatch hname)
  | cons first names ih =>
      cases n with
      | file content modified => cases hplace
      | unreadable size modified reason => cases hplace
      | directory entries =>
          obtain ⟨e, he, rest, heq, hrest⟩ := exists_of_mem_contentsOf hplace
          obtain ⟨rfl, rfl⟩ := List.cons.inj heq
          obtain ⟨hfirst, hbelow⟩ := WellFormedEntries.of_mem h he
          intro name hname
          obtain rfl | hname := List.mem_cons.mp hname
          · exact hfirst
          · obtain rfl | hrest := hrest
            · cases hname
            · apply ih hbelow hrest name hname

end FileNode

theorem FileTree.mem_contents_of_mem_filesBelow {t : FileTree} {place names : Place}
    (h : names ∈ t.filesBelow place) :
  ∃ n, t.root.get? place = some n ∧ names ∈ n.contents.map Prod.fst
  := by
  rw [filesBelow] at h
  split at h
  · cases h
  · next n hget =>
    obtain ⟨⟨found, e⟩, hmem, heq⟩ := List.mem_filterMap.mp h
    use n, hget
    dsimp only at heq
    split at heq
    · cases heq
    · cases heq
      apply List.mem_map_of_mem hmem

/-- Names that lead to a file are among those of the files below. -/
theorem FileTree.mem_filesBelow {t : FileTree} {place names : Place} {e : FileEntry}
    (hnames : names ≠ []) (he : e ≠ .directory) (h : t.get? (place ++ names) = some e) :
  names ∈ t.filesBelow place
  := by
  obtain ⟨m, hm, hentry⟩ := Option.map_eq_some_iff.mp h
  rw [FileNode.get?_append] at hm
  obtain ⟨n, hn, hbelow⟩ := Option.bind_eq_some_iff.mp hm
  have hmem := FileNode.mem_contents_of_get? hnames hbelow
  rw [hentry] at hmem
  rw [filesBelow, hn]
  apply List.mem_filterMap.mpr
  use (names, e), hmem
  cases e with
  | directory => exact absurd rfl he
  | file content modified => rfl
  | unreadable size modified reason => rfl

/-- What has something below it is a directory. -/
theorem FileTree.directory_of_mem_filesBelow {t : FileTree} {place names : Place}
    (h : names ∈ t.filesBelow place) :
  t.get? place = some .directory
  := by
  obtain ⟨n, hget, hcontents⟩ := mem_contents_of_mem_filesBelow h
  rw [get?, hget]
  cases n with
  | file content modified => cases hcontents
  | unreadable size modified reason => cases hcontents
  | directory entries => rfl

theorem FileTree.isName_of_mem_filesBelow {t : FileTree} (ht : t.root.WellFormed)
    {place names : Place} (h : names ∈ t.filesBelow place) :
  ∀ name ∈ names, FileNode.IsName name
  := by
  obtain ⟨n, hget, hcontents⟩ := mem_contents_of_mem_filesBelow h
  apply FileNode.isName_of_mem_contents (ht.get? hget) hcontents

theorem FileTree.nodup_filesBelow {t : FileTree} (ht : t.root.WellFormed) (place : Place) :
  (t.filesBelow place).Nodup
  := by
  rw [filesBelow]
  split
  · apply List.nodup_nil
  · next n hget =>
    have hnodup := FileNode.nodup_contents (ht.get? hget)
    apply List.Pairwise.filterMap _ _ (List.pairwise_map.mp hnodup)
    rintro ⟨a, e⟩ ⟨b, e'⟩ hab c hc c' hc'
    cases e <;> cases hc <;> cases e' <;> cases hc' <;> exact hab

/-! ### Paths of places -/

namespace Path

open FileNode (IsName)

theorem Part.ofSegment_toList {name : String} (h : IsName name) (first : Bool) :
  Part.ofSegment first name.toList = some (.name name)
  := by
  obtain ⟨hempty, hdot, hdots, -⟩ := h
  have hne : ∀ text : String, name ≠ text → (name.toList == text.toList) = false := by
    intro text htext
    rw [beq_eq_false_iff_ne]
    intro heq
    apply htext (String.toList_injective heq)
  have hempty' : name.toList.isEmpty = false := by
    rw [List.isEmpty_eq_false_iff]
    intro hnil
    apply hempty (String.toList_eq_nil_iff.mp hnil)
  have hdot' : (name.toList == ['.']) = false := hne "." hdot
  have hdots' : (name.toList == ['.', '.']) = false := hne ".." hdots
  rw [Part.ofSegment, hempty', hdot', hdots', String.ofList_toList]
  rfl

/-- The path of an entry of a directory has one part more than that of the directory. -/
theorem parts_child (dir : Path) {name : String} (h : IsName name) :
  (dir.child name).parts = dir.parts ++ [.name name]
  := by
  have hslash := h.2.2.2
  by_cases hdir : dir.spelling = ""
  · have hchild : dir.child name = ⟨name⟩ := by
      rw [child, join, hdir]
      simp
    have hparts : dir.parts = [] := by
      rw [parts, isAbsolute, hdir]
      rfl
    rw [hchild, hparts, parts, splitOn_of_not_mem hslash, isAbsolute_of_not_mem hslash]
    simp [Part.ofSegment_toList h]
  · obtain ⟨front, hchild, hfront⟩ := toList_spelling_child hdir hslash
    have habsolute := isAbsolute_child hdir hslash
    rw [parts, parts, habsolute, hchild, splitOn_append_slash front hslash]
    have hsplit : dir.spelling.toList.splitOn '/' = front.splitOn '/' ∨
        dir.spelling.toList.splitOn '/' = front.splitOn '/' ++ [[]] := by
      obtain hfront | hfront := hfront
      · left
        rw [hfront]
      · right
        rw [hfront, splitOn_append_slash front List.not_mem_nil]
    cases hsegments : front.splitOn '/' with
    | nil => exact absurd hsegments (List.splitOnP_ne_nil _ _)
    | cons first rest =>
        have hlast : Part.ofSegment false [] = none := rfl
        rw [hsegments] at hsplit
        obtain hsplit | hsplit := hsplit <;> rw [hsplit] <;>
          cases dir.isAbsolute <;>
          simp [List.filterMap_append, Part.ofSegment_toList h, hlast]

/-- The names on the way to a place are the last parts of its path. -/
theorem parts_pathOf (root : Path) {names : Place} (h : ∀ name ∈ names, IsName name) :
  (Discovery.pathOf root names).parts = root.parts ++ names.map .name
  := by
  induction names generalizing root with
  | nil =>
      rw [List.map_nil, List.append_nil]
      rfl
  | cons name names ih =>
      obtain ⟨hname, hnames⟩ := List.forall_mem_cons.mp h
      rw [Discovery.pathOf, List.foldl_cons, ← Discovery.pathOf, ih _ hnames,
        parts_child root hname, List.map_cons, List.append_assoc, List.singleton_append]

end Path

namespace FileTree

variable {t : FileTree} {root : Path} {names target : Place}

/-- The way to an entry of a directory leads to the directory first. -/
theorem place_of_place_child {name : String} (hroot : root.spelling ≠ "")
    (hname : FileNode.IsName name) (h : t.place (root.child name) = .ok target) :
  ∃ place, t.place root = .ok place ∧ target = place ++ [name]
  := by
  have hslash := hname.2.2.2
  obtain ⟨place, hwalk, -⟩ := directory_of_place_child hroot hslash h
  obtain ⟨rest, hrest⟩ := @Path.exists_spelling_child root name hslash
  obtain ⟨hcheck, hlong, -⟩ := place_eq_ok_iff.mp h
  have hplace : t.place root = .ok place := by
    apply place_eq_ok_iff.mpr
    refine ⟨?_, ?_, hwalk⟩
    · apply check_eq_ok_iff.mpr
      refine ⟨?_, hroot⟩
      intro hnul
      apply (check_eq_ok_iff.mp hcheck).1
      rw [hrest, String.toList_append]
      exact List.mem_append_left _ hnul
    · rw [isTooLongPath, hrest, String.utf8ByteSize_append, decide_eq_false_iff_not] at hlong
      rw [isTooLongPath, decide_eq_false_iff_not]
      omega
  use place, hplace
  rw [← foldl_follow_of_place h, ← foldl_follow_of_place hplace, Path.parts_child root hname,
    List.foldl_append]
  rfl

/-- A path below the root leads through the root. -/
theorem place_of_place_pathOf (hroot : root.spelling ≠ "")
    (hnames : ∀ name ∈ names, FileNode.IsName name)
    (h : t.place (Discovery.pathOf root names) = .ok target) :
  ∃ place, t.place root = .ok place ∧ target = place ++ names
  := by
  induction names generalizing root with
  | nil =>
      use target, h
      rw [List.append_nil]
  | cons name names ih =>
      obtain ⟨hname, hnames⟩ := List.forall_mem_cons.mp hnames
      have hchild : (root.child name).spelling ≠ "" := by
        obtain ⟨rest, hrest⟩ := @Path.exists_spelling_child root name hname.2.2.2
        rw [hrest]
        intro hempty
        apply hroot (String.append_eq_empty_iff.mp hempty).1
      obtain ⟨place', hplace', rfl⟩ := ih hchild hnames h
      obtain ⟨place, hplace, rfl⟩ := place_of_place_child hroot hname hplace'
      use place, hplace
      rw [List.append_assoc]
      rfl

end FileTree

/-! ### Searches -/

namespace Discovery

/-- The patterns that a configuration asks for and excludes. -/
theorem of_ofConfig {root : Path} {config : IndexConfig} {d : Discovery}
    (h : ofConfig root config = .ok d) :
  d.root = root ∧ Glob.compileAll config.filePatterns = .ok d.includes ∧
    Glob.compileAll (excludePatterns config) = .ok d.excludes
  := by
  rw [ofConfig] at h
  cases hincludes : Glob.compileAll config.filePatterns with
  | error e =>
      rw [hincludes] at h
      cases h
  | ok includes =>
      cases hexcludes : Glob.compileAll (excludePatterns config) with
      | error e =>
          rw [hincludes, hexcludes] at h
          cases h
      | ok excludes =>
          rw [hincludes, hexcludes] at h
          obtain rfl := Except.ok.inj h
          exact ⟨rfl, rfl, rfl⟩

/-- Names that spell the same path are the same. -/
theorem names_eq_of_beq {root : Path} {names names' : Place}
    (hnames : ∀ name ∈ names, FileNode.IsName name)
    (hnames' : ∀ name ∈ names', FileNode.IsName name)
    (h : (pathOf root names == pathOf root names') = true) :
  names = names'
  := by
  rw [Path.beq_iff_parts, Path.parts_pathOf root hnames, Path.parts_pathOf root hnames'] at h
  apply List.map_injective_iff.mpr _ (List.append_cancel_left h)
  exact fun _ _ heq => Path.Part.name.inj heq

theorem distinct_walk (d : Discovery) {t : FileTree} (ht : t.root.WellFormed) :
  (d.walk t).Pairwise fun p q => (p == q) = false
  := by
  unfold walk
  split
  · apply List.Pairwise.nil
  · next place _ =>
    split
    · apply List.Pairwise.nil
    · apply List.pairwise_map.mpr
      apply List.Pairwise.imp_of_mem _ ((FileTree.nodup_filesBelow ht place).filter _)
      intro a b ha hb hab
      rw [← Bool.not_eq_true]
      intro heq
      apply hab
      apply names_eq_of_beq _ _ heq
      · apply FileTree.isName_of_mem_filesBelow ht (List.mem_of_mem_filter ha)
      · apply FileTree.isName_of_mem_filesBelow ht (List.mem_of_mem_filter hb)
    · apply List.pairwise_singleton

/-- No two of the files that a search finds are equal. -/
theorem distinct_search (d : Discovery) {t : FileTree} (ht : t.root.WellFormed) :
  (d.search t).Pairwise fun p q => (p == q) = false
  := by
  rw [search, Path.sort, (List.mergeSort_perm _ _).pairwise_iff]
  · apply (d.distinct_walk ht).filter
  · intro p q h
    rwa [BEq.comm]

end Discovery

end JobIndex
