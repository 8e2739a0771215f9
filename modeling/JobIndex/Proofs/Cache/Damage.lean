import JobIndex.Proofs.Cache.Canonical
import JobIndex.Proofs.Cache.Store
import Mathlib.Data.List.Induction

/-!
# Damaged cache files

What a cache file holds is used as a whole or not at all. If all of it can be read and it is of the
right version, the cache has its entries, and nothing is reported; else the cache is empty, and one
diagnostic says why. A file that was cut off while it was written is always of the second kind.
-/

namespace JobIndex.ParseCache

variable {t : FileTree} {dir : Path} {bytes : List UInt8}

/-- A cache has for each path the last entry of a list that has the path, and nothing else. -/
structure HoldsLatest (c : ParseCache) (entries : List (Path × Cache.Entry)) : Prop where
  distinct : c.entries.Distinct
  get : ∀ path,
    c.entries.get? path = (entries.reverse.find? fun e => e.1 == path).map Prod.snd

theorem holdsLatest_ofEntries (entries : List (Path × Cache.Entry)) :
  (ofEntries entries).HoldsLatest entries
  := by
  induction entries using List.reverseRecOn with
  | nil => exact ⟨Table.distinct_nil, fun _ => rfl⟩
  | append_singleton entries e ih =>
      have hput : (ofEntries (entries ++ [e])).entries
          = (ofEntries entries).entries.put e.1 e.2 := by
        rw [ofEntries, List.foldl_append, ofEntries]
        rfl
      constructor
      · rw [hput]
        apply ih.distinct.put
      · intro path
        rw [hput, Table.get?_put, ih.get, List.reverse_append, List.reverse_singleton,
          List.singleton_append, List.find?_cons]
        cases e.1 == path <;> rfl

/-- The file of the cache is of no use, and that is all that is reported. -/
def Discarded (t : FileTree) (dir : Path) : Prop :=
  ∃ reason, load t dir = (empty, [.cacheDiscarded reason])

theorem load_of_ofBytes {c : ParseCache} (hbytes : t.contentOf (filePath dir) = .ok bytes)
    (h : ofBytes bytes = .ok c) :
  load t dir = (c, [])
  := by
  rw [load, hbytes]
  dsimp only
  rw [h]

theorem discarded_of_ofBytes {d : Discard} (hbytes : t.contentOf (filePath dir) = .ok bytes)
    (h : ofBytes bytes = .error d) :
  Discarded t dir
  := by
  use d.message (filePath dir)
  rw [load, hbytes]
  dsimp only
  rw [h]

/-- Bytes that are not read as a cache file of the right version are of no use. -/
theorem discarded_of_parseContents (hbytes : t.contentOf (filePath dir) = .ok bytes)
    (h : ∀ contents, Cache.parseContents bytes = .ok contents → contents.schema ≠ schemaVersion) :
  Discarded t dir
  := by
  cases hparse : Cache.parseContents bytes with
  | error e =>
      apply discarded_of_ofBytes (d := .format e) hbytes
      rw [ofBytes, hparse]
  | ok contents =>
      apply discarded_of_ofBytes (d := .schema contents.schema) hbytes
      rw [ofBytes, hparse]
      dsimp only
      rw [if_neg (by simpa using h contents hparse)]

/-- The cache has all entries of its file, or none of them and a diagnostic is reported; and it has
none if the file is only the beginning of what is stored for a cache. -/
theorem load_whole_or_nothing (hbytes : t.contentOf (filePath dir) = .ok bytes) :
  (∀ contents, Cache.parseContents bytes = .ok contents → contents.schema = schemaVersion →
    Cache.writeContents contents <+: bytes ∧
    ∃ loaded, load t dir = (loaded, []) ∧ loaded.HoldsLatest contents.entries) ∧
  ((∀ contents, Cache.parseContents bytes = .ok contents → contents.schema ≠ schemaVersion) →
    Discarded t dir) ∧
  ∀ c : ParseCache, (∀ e ∈ c.entries, e.2.document.Fits) → c.toBytes.length < 2 ^ 64 →
    bytes <+: c.toBytes → bytes ≠ c.toBytes → Discarded t dir
  := by
  refine ⟨?_, discarded_of_parseContents hbytes, ?_⟩
  · intro contents hparse hschema
    refine ⟨(Cache.prefix_of_parseContents hparse).1, _, ?_, holdsLatest_ofEntries _⟩
    apply load_of_ofBytes hbytes
    rw [ofBytes, hparse]
    dsimp only
    rw [if_pos (by simpa using hschema)]
  · intro c hfits hsize hstart hne
    have hcontents : Cache.Contents.Fits ⟨schemaVersion, toolVersion, c.sorted⟩ := by
      constructor
      · show schemaVersion < 256 ^ 4
        decide
      · intro e he
        apply hfits e (c.sorted_perm.mem_iff.mp he)
    apply discarded_of_parseContents hbytes
    intro contents hparse
    exact absurd hparse (Cache.parseContents_cut_off hcontents hsize hstart hne)

/-- The stored cache of one file, whole and without its last byte. -/
theorem load_whole_or_nothing_last_byte :
  let file : Path := ⟨"/ws/é.yaml"⟩
  let c : ParseCache := ⟨[(file, ⟨-1, ⟨file, [⟨file, [("name", .scalar "naïve")], []⟩], []⟩⟩)]⟩
  let tree : List UInt8 → FileTree := fun bytes =>
    ⟨.directory [("c", .directory [(fileName, .file bytes ⟨0⟩)])], [], ⟨0⟩, none⟩
  (∃ loaded, load (tree c.toBytes) ⟨"/c"⟩ = (loaded, []) ∧ loaded.HoldsLatest c.sorted) ∧
    Discarded (tree c.toBytes.dropLast) ⟨"/c"⟩
  := by
  intro file c tree
  have hsize : c.toBytes.length < 2 ^ 64 := by decide +kernel
  have hfits : ∀ e ∈ c.entries, e.2.document.Fits := by
    intro e he
    obtain rfl := List.mem_singleton.mp he
    constructor
    · intro job hjob l hl
      obtain rfl := List.mem_singleton.mp hjob
      cases hl
    · exact fun _ h => (nomatch h)
  constructor
  · have hbytes : (tree c.toBytes).contentOf (filePath ⟨"/c"⟩) = .ok c.toBytes := by decide +kernel
    have hparse : Cache.parseContents c.toBytes = .ok ⟨schemaVersion, toolVersion, c.sorted⟩ := by
      apply Cache.parseContents_writeContents hsize
      · show schemaVersion < 256 ^ 4
        decide
      · intro e he
        apply hfits e (c.sorted_perm.mem_iff.mp he)
    exact ((load_whole_or_nothing hbytes).1 _ hparse rfl).2
  · have hbytes : (tree c.toBytes.dropLast).contentOf (filePath ⟨"/c"⟩) = .ok c.toBytes.dropLast := by
      decide +kernel
    have hne : c.toBytes.dropLast ≠ c.toBytes := by decide +kernel
    apply (load_whole_or_nothing hbytes).2.2 c hfits hsize (List.dropLast_prefix _) hne

end JobIndex.ParseCache
