import JobIndex.Cache.Store
import JobIndex.Proofs.Cache.Format
import JobIndex.Proofs.Path
import JobIndex.Proofs.Workspace.FileTree
import Mathlib.Data.List.Pairwise

/-!
# A cache and its file

A cache holds each path at most once. Its entries are written in the order of their paths, so the
bytes do not depend on the order in which the entries came into the cache; and from the bytes the
same entries are read back. After a cache has been saved, its file holds these bytes or, if it could
not be saved, cannot be read.
-/

namespace JobIndex

/-! ### Paths in order -/

namespace Path

theorem le_trans {p q r : Path} (hpq : p.le q = true) (hqr : q.le r = true) :
  p.le r = true
  := Std.TransCmp.isLE_trans hpq hqr

theorem le_total (p q : Path) :
  (p.le q || q.le p) = true
  := by
  have hswap : compare q p = (compare p q).swap := Std.OrientedOrd.eq_swap
  rw [le, le, hswap]
  cases compare p q <;> rfl

/-- Paths that come one before the other and the other way round are equal. -/
theorem beq_of_le_of_le {p q : Path} (hpq : p.le q = true) (hqp : q.le p = true) :
  (p == q) = true
  := by
  have hswap : compare q p = (compare p q).swap := Std.OrientedOrd.eq_swap
  rw [le] at hpq hqp
  rw [hswap] at hqp
  apply Std.LawfulBEqOrd.compare_eq_iff_beq.mp
  cases hcompare : compare p q with
  | lt =>
      rw [hcompare] at hqp
      cases hqp
  | eq => rfl
  | gt =>
      rw [hcompare] at hpq
      cases hpq

end Path

namespace ParseCache

variable {c d : ParseCache}

/-! ### The order of entries -/

theorem sorted_perm (c : ParseCache) :
  c.sorted.Perm c.entries
  := List.mergeSort_perm _ _

theorem sorted_pairwise (c : ParseCache) :
  c.sorted.Pairwise fun a b => a.1.le b.1 = true
  := by
  apply List.pairwise_mergeSort
  · intro a b e
    apply Path.le_trans
  · intro a b
    apply Path.le_total

theorem nodup_entries (hc : c.entries.Distinct) :
  c.entries.Nodup
  := by
  apply List.Pairwise.imp _ (List.pairwise_map.mp hc)
  rintro a b hab rfl
  rw [BEq.rfl] at hab
  cases hab

/-- Caches with the same entries have them in the same order when they are sorted. -/
theorem sorted_eq (hc : c.entries.Distinct) (hd : d.entries.Distinct)
    (h : ∀ e, e ∈ d.entries ↔ e ∈ c.entries) :
  d.sorted = c.sorted
  := by
  have hperm : d.entries.Perm c.entries :=
    (List.perm_ext_iff_of_nodup (nodup_entries hd) (nodup_entries hc)).mpr h
  apply List.Perm.eq_of_pairwise _ d.sorted_pairwise c.sorted_pairwise
  · apply d.sorted_perm.trans (hperm.trans c.sorted_perm.symm)
  · intro a b ha hb hab hba
    apply hc.eq_of_mem
    · apply (h a).mp (d.sorted_perm.mem_iff.mp ha)
    · apply c.sorted_perm.mem_iff.mp hb
    · apply Path.beq_of_le_of_le hab hba

/-- The bytes of a cache depend only on what entries it has. -/
theorem toBytes_eq (hc : c.entries.Distinct) (hd : d.entries.Distinct)
    (h : ∀ e, e ∈ d.entries ↔ e ∈ c.entries) :
  d.toBytes = c.toBytes
  := by
  rw [toBytes, toBytes, sorted_eq hc hd h]

/-! ### Entries from bytes -/

/-- A new key is put at the end. -/
theorem put_eq_append {t : Table Path Cache.Entry} {path : Path} {e : Cache.Entry}
    (h : ∀ a ∈ t, (a.1 == path) = false) :
  t.put path e = t ++ [(path, e)]
  := by
  induction t with
  | nil => rfl
  | cons a t ih =>
      rw [List.forall_mem_cons] at h
      rw [Table.put, h.1, if_neg Bool.false_ne_true, ih h.2]
      rfl

/-- Entries with different paths are all kept, in their order. -/
theorem ofEntries_eq {entries : Table Path Cache.Entry} (h : entries.Distinct) :
  ofEntries entries = ⟨entries⟩
  := by
  have hfold : ∀ (done rest : Table Path Cache.Entry), (done ++ rest).Distinct →
      rest.foldl (fun t e => t.put e.1 e.2) done = done ++ rest := by
    intro done rest
    induction rest generalizing done with
    | nil =>
        intro _
        rw [List.foldl_nil, List.append_nil]
    | cons e rest ih =>
        intro hdistinct
        have hnew : ∀ a ∈ done, (a.1 == e.1) = false := by
          intro a ha
          rw [Table.Distinct, Table.keys, List.map_append, List.pairwise_append] at hdistinct
          apply hdistinct.2.2 a.1 (List.mem_map_of_mem ha) e.1
          apply List.mem_map_of_mem List.mem_cons_self
        rw [List.foldl_cons, put_eq_append hnew]
        rw [ih (done ++ [(e.1, e.2)]) (by rwa [List.append_cons] at hdistinct)]
        rw [List.append_assoc, List.singleton_append]
  rw [ofEntries, hfold [] entries h, List.nil_append]

theorem distinct_sorted (hc : c.entries.Distinct) :
  Table.Distinct c.sorted
  := by
  apply (List.Perm.map Prod.fst c.sorted_perm).symm.pairwise hc
  intro p q h
  rwa [BEq.comm]

/-- What is stored of a cache is read back, if its numbers fit words and there are fewer than
`2 ^ 64` bytes. -/
theorem ofBytes_toBytes (hc : c.entries.Distinct) (hfits : ∀ e ∈ c.entries, e.2.document.Fits)
    (hsize : c.toBytes.length < 2 ^ 64) :
  ofBytes c.toBytes = .ok ⟨c.sorted⟩
  := by
  have hparse : Cache.parseContents c.toBytes
      = .ok { schema := schemaVersion, tool := toolVersion, entries := c.sorted } := by
    apply Cache.parseContents_writeContents hsize
    · show schemaVersion < 256 ^ 4
      decide
    · intro e he
      apply hfits e (c.sorted_perm.mem_iff.mp he)
  rw [ofBytes, hparse]
  dsimp only
  rw [if_pos BEq.rfl, ofEntries_eq (distinct_sorted hc)]

theorem get?_sorted (hc : c.entries.Distinct) (path : Path) :
  Table.get? c.sorted path = c.entries.get? path
  := (distinct_sorted hc).get?_eq_of_mem_iff hc (fun _ => c.sorted_perm.mem_iff) path

/-! ### The file -/

theorem not_mem_fileName :
  '/' ∉ fileName.toList
  := by decide

/-- After a cache has been saved, its file holds its bytes, if it can be read at all. -/
theorem contentOf_save (c : ParseCache) (t : FileTree) (dir : Path) {bytes : List UInt8}
    (h : (c.save t dir).1.contentOf (filePath dir) = .ok bytes) :
  bytes = c.toBytes
  := by
  rw [save] at h
  split at h
  · next u e hmake =>
    obtain ⟨e', hplace⟩ := FileTree.place_child_of_makeDirectories_error not_mem_fileName hmake
    rw [FileTree.contentOf, FileTree.find, filePath, hplace] at h
    cases h
  · next u hmake =>
    cases hput : u.putFile (filePath dir) c.toBytes with
    | error e =>
        obtain ⟨e', hcontent⟩ := FileTree.contentOf_of_putFile_error hput
        simp only [hput, hcontent] at h
        cases h
    | ok v =>
        simp only [hput, FileTree.contentOf_putFile hput] at h
        exact (Except.ok.inj h).symm

theorem contentOf_of_save_eq {t u : FileTree} {dir : Path} (h : c.save t dir = (u, none)) :
  u.contentOf (filePath dir) = .ok c.toBytes
  := by
  rw [save] at h
  split at h
  · cases h
  · next v hmake =>
    cases hput : v.putFile (filePath dir) c.toBytes with
    | error e =>
        rw [hput] at h
        cases h
    | ok w =>
        rw [hput] at h
        obtain ⟨rfl, -⟩ := Prod.mk.inj h
        apply FileTree.contentOf_putFile hput

/-- A cache that has been saved is loaded as it was, with nothing to report: the same entries, and
the same answer for each path. Its bytes are those of any other cache with these entries, in
whatever order they came there. -/
theorem load_save_restores {t u : FileTree} {dir : Path} (hc : c.entries.Distinct)
    (hfits : ∀ e ∈ c.entries, e.2.document.Fits) (hsize : c.toBytes.length < 2 ^ 64)
    (hsave : c.save t dir = (u, none)) :
  (∃ loaded, load u dir = (loaded, []) ∧ loaded.entries.Perm c.entries ∧
    ∀ path, loaded.entries.get? path = c.entries.get? path) ∧
  ∀ other : ParseCache, other.entries.Distinct → (∀ e, e ∈ other.entries ↔ e ∈ c.entries) →
    other.toBytes = c.toBytes
  := by
  constructor
  · refine ⟨⟨c.sorted⟩, ?_, c.sorted_perm, get?_sorted hc⟩
    rw [load, contentOf_of_save_eq hsave]
    dsimp only
    rw [ofBytes_toBytes hc hfits hsize]
  · intro other hother hmem
    apply toBytes_eq hc hother hmem

/-- A cache with two files, the later one stored first, a time before the epoch, groups in groups
and characters of two bytes. -/
theorem load_save_restores_nested :
  let file : Path := ⟨"/ws/é.yaml"⟩
  let job : Job := ⟨file, [("name", .scalar "naïve"), ("vars", .group [("0", .group [])])],
    [⟨"naïve", file, 1, 4, 10, 15, 16, 22⟩]⟩
  let first : Path × Cache.Entry := (file, ⟨-1, ⟨file, [job], []⟩⟩)
  let second : Path × Cache.Entry := (⟨"/ws/a.yaml"⟩, ⟨5, .empty ⟨"/ws/a.yaml"⟩⟩)
  let c : ParseCache := ⟨[first, second]⟩
  let t : FileTree := ⟨.directory [("ws", .directory [])], [], ⟨0⟩, none⟩
  let dir : Path := ⟨"/ws/.cache/index"⟩
  c.entries.Distinct ∧ (∀ e ∈ c.entries, e.2.document.Fits) ∧ c.toBytes.length < 2 ^ 64 ∧
    ∃ u, c.save t dir = (u, none) ∧
      (∃ loaded, load u dir = (loaded, []) ∧ loaded.entries.Perm c.entries ∧
        ∀ path, loaded.entries.get? path = c.entries.get? path) ∧
      ∀ other : ParseCache, other.entries.Distinct → (∀ e, e ∈ other.entries ↔ e ∈ c.entries) →
        other.toBytes = c.toBytes
  := by
  intro file job first second c t dir
  have hc : c.entries.Distinct := by
    unfold Table.Distinct
    decide +kernel
  have hfits : ∀ e ∈ c.entries, e.2.document.Fits := by
    intro e he
    have hempty : (Document.empty ⟨"/ws/a.yaml"⟩).Fits :=
      ⟨fun _ h => (nomatch h), fun _ h => (nomatch h)⟩
    obtain rfl | he := List.mem_cons.mp he
    · constructor
      · intro j hj l hl
        obtain rfl := List.mem_singleton.mp hj
        obtain rfl := List.mem_singleton.mp hl
        constructor <;> decide
      · exact fun _ h => (nomatch h)
    · obtain rfl := List.mem_singleton.mp he
      exact hempty
  have hsorted : c.sorted = [second, first] := by
    have hle : first.1.le second.1 = false := by decide +kernel
    simp [c, sorted, List.mergeSort, List.MergeSort.Internal.splitInTwo, hle]
  have hsize : c.toBytes.length < 2 ^ 64 := by
    rw [toBytes, hsorted]
    decide +kernel
  have hnone : (c.save t dir).2.isNone = true := by decide +kernel
  have hsave : c.save t dir = ((c.save t dir).1, none) := by
    rw [← Option.isNone_iff_eq_none.mp hnone]
  exact ⟨hc, hfits, hsize, _, hsave, load_save_restores hc hfits hsize hsave⟩

end ParseCache

end JobIndex
