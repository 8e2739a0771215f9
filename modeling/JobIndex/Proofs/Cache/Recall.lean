import JobIndex.Proofs.Cache.Store
import JobIndex.Proofs.Record.Fits
import JobIndex.Proofs.Record.Spelling

/-!
# What a cache recalls

Files change over time, and a path that gets other content gets a later time with it
(`FileTree.Dates`). A cache recalls the past if each of its entries holds the records and the time
that the path had at some earlier moment, under some spelling (`ParseCache.Recalls`). Storing,
dropping and saving entries keep that. An entry that is not older than the file has been made from
the same content, so a cache that recalls the past never answers with stale records.
-/

namespace JobIndex

variable {watched : Path → Prop} {t : FileTree} {past : List FileTree} {sealedTags : List String}

/-! ### Files over time -/

namespace FileTree

/-- Where the content of a path differs between two moments, its time is later at the second one. -/
def Dates (watched : Path → Prop) (old new : FileTree) : Prop :=
  ∀ p q content content' modified modified', watched p → watched q → (p == q) = true →
    old.find p = .ok (.file content modified) → new.find q = .ok (.file content' modified') →
    content ≠ content' → modified.millis < modified'.millis

/-- Paths that lead anywhere lead to files of fewer than `2 ^ 64` bytes. -/
def Regular (watched : Path → Prop) (t : FileTree) : Prop :=
  ∀ p e, watched p → t.find p = .ok e →
    ∃ content modified, e = .file content modified ∧ content.length < 2 ^ 64

/-- At one moment all spellings of a path have the same content. -/
theorem dates_refl (watched : Path → Prop) (t : FileTree) :
  t.Dates watched t
  := by
  intro p q content content' modified modified' _ _ hpq hp hq hne
  have heq := find_eq_of_parts (Path.beq_iff_parts.mp hpq) hp hq
  cases heq
  exact absurd rfl hne

/-- All paths concerned lead to one file, if anywhere. -/
def LeadsOnlyTo (content : List UInt8) (modified : FileTime) (watched : Path → Prop)
    (t : FileTree) : Prop :=
  ∀ p e, watched p → t.find p = .ok e → e = .file content modified

variable {content content' : List UInt8} {modified modified' : FileTime}

/-- A file with other content at a second moment must have a later time there. -/
theorem LeadsOnlyTo.dates {u : FileTree} (ht : t.LeadsOnlyTo content modified watched)
    (hu : u.LeadsOnlyTo content' modified' watched)
    (hlater : content ≠ content' → modified.millis < modified'.millis) :
  t.Dates watched u
  := by
  intro p q _ _ _ _ hp hq _ hfound hfound' hne
  cases ht p _ hp hfound
  cases hu q _ hq hfound'
  apply hlater hne

theorem LeadsOnlyTo.regular (ht : t.LeadsOnlyTo content modified watched)
    (hsize : content.length < 2 ^ 64) :
  t.Regular watched
  := fun p e hp hfound => ⟨content, modified, ht p e hp hfound, hsize⟩

/-- A file that changes once, between moments before and moments after. -/
theorem pairwise_dates_append {before after : List FileTree}
    (hbefore : ∀ t ∈ before, t.LeadsOnlyTo content modified watched)
    (hafter : ∀ t ∈ after, t.LeadsOnlyTo content' modified' watched)
    (hlater : modified.millis < modified'.millis) :
  (before ++ after).Pairwise (Dates watched)
  := by
  apply List.pairwise_append.mpr
  refine ⟨?_, ?_, ?_⟩
  · apply List.pairwise_of_forall_mem_list
    intro t ht u hu
    apply (hbefore t ht).dates (hbefore u hu) (absurd rfl)
  · apply List.pairwise_of_forall_mem_list
    intro t ht u hu
    apply (hafter t ht).dates (hafter u hu) (absurd rfl)
  · intro t ht u hu
    apply (hbefore t ht).dates (hafter u hu)
    exact fun _ => hlater

/-- A file that is not there has no content. -/
theorem contentOf_ne_ok {p : Path} (h : t.has p = false) (bytes : List UInt8) :
  t.contentOf p ≠ .ok bytes
  := by
  intro hbytes
  rw [has_of_contentOf hbytes] at h
  cases h

end FileTree

namespace ParseCache

variable {c : ParseCache}

/-! ### Entries from the past -/

/-- At some moment a path had the records and the time of an entry. -/
def WasTrue (sealedTags : List String) (watched : Path → Prop) (past : List FileTree) (path : Path)
    (e : Cache.Entry) : Prop :=
  ∃ t ∈ past, ∃ q content modified, watched q ∧ q.parts = path.parts ∧
    t.find q = .ok (.file content modified) ∧
    e = ⟨modified.millis, (Document.ofBytes sealedTags q content).1⟩

/-- All entries of a cache come from the past. -/
structure Recalls (c : ParseCache) (sealedTags : List String) (watched : Path → Prop)
    (past : List FileTree) : Prop where
  distinct : c.entries.Distinct
  wasTrue : ∀ path e, c.entries.get? path = some e → WasTrue sealedTags watched past path e

theorem recalls_empty (sealedTags : List String) (watched : Path → Prop) (past : List FileTree) :
  empty.Recalls sealedTags watched past
  := ⟨Table.distinct_nil, fun _ _ h => (nomatch h)⟩

theorem Recalls.mono (hc : c.Recalls sealedTags watched past) {past' : List FileTree}
    (h : past ⊆ past') :
  c.Recalls sealedTags watched past'
  := by
  refine ⟨hc.distinct, ?_⟩
  intro path e he
  obtain ⟨t, ht, hwas⟩ := hc.wasTrue path e he
  exact ⟨t, h ht, hwas⟩

/-- Storing what a file holds keeps a cache that recalls the past. -/
theorem Recalls.store (hc : c.Recalls sealedTags watched past) (ht : t ∈ past) {file : Path}
    (hfile : watched file) {content : List UInt8} {modified : FileTime}
    (hfind : t.find file = .ok (.file content modified)) :
  (c.store file modified.millis (Document.ofBytes sealedTags file content).1).Recalls
    sealedTags watched past
  := by
  refine ⟨hc.distinct.put _ _, ?_⟩
  intro path e he
  rw [ParseCache.store, Table.get?_put] at he
  split at he
  · next hpath =>
    obtain rfl := Option.some.inj he
    exact ⟨t, ht, file, content, modified, hfile, Path.beq_iff_parts.mp hpath, hfind, rfl⟩
  · apply hc.wasTrue path e he

/-- A cache with fewer entries recalls the past as well. -/
theorem Recalls.of_mem (hc : c.Recalls sealedTags watched past) {d : ParseCache}
    (hd : d.entries.Distinct) (h : ∀ e ∈ d.entries, e ∈ c.entries) :
  d.Recalls sealedTags watched past
  := by
  refine ⟨hd, ?_⟩
  intro path e he
  apply hc.wasTrue path e (hc.distinct.get?_of_subset hd h he)

theorem Recalls.retain (hc : c.Recalls sealedTags watched past) (keep : Path → Bool) :
  (c.retain keep).Recalls sealedTags watched past
  := by
  apply hc.of_mem
  · apply List.Pairwise.sublist _ hc.distinct
    apply List.filter_sublist.map
  · exact fun e => List.mem_of_mem_filter

theorem Recalls.invalidate (hc : c.Recalls sealedTags watched past) (file : Path) :
  (c.invalidate file).Recalls sealedTags watched past
  := by
  apply hc.of_mem (hc.distinct.erase file)
  exact fun e => List.mem_of_mem_filter

/-- A cache that recalls the past is not stale: what it has for a file that has not changed since
is what the file holds. -/
theorem Recalls.sameView_of_lookup (hc : c.Recalls sealedTags watched past)
    (hpast : ∀ old ∈ past, old.Dates watched t) {file : Path} (hfile : watched file)
    {content : List UInt8} {modified : FileTime}
    (hfind : t.find file = .ok (.file content modified)) {d : Document}
    (hlookup : c.lookup file modified.millis = some d) :
  d.SameView (Document.ofBytes sealedTags file content).1
  := by
  rw [lookup] at hlookup
  split at hlookup
  · cases hlookup
  · next e hget =>
    obtain ⟨old, hold, q, content', modified', hq, hparts, hfind', rfl⟩ := hc.wasTrue file e hget
    split at hlookup
    · cases hlookup
    · next hnewer =>
      cases hlookup
      have hcontent : content' = content := by
        by_contra hne
        apply hnewer
        apply hpast old hold q file content' content modified' modified hq hfile _ hfind' hfind hne
        apply Path.beq_iff_parts.mpr hparts
      rw [hcontent]
      apply Document.ofBytes_sameView sealedTags hparts

/-! ### The stored cache -/

/-- The numbers in the entries of a cache that recalls the past fit words. -/
theorem Recalls.fits (hc : c.Recalls sealedTags watched past)
    (hpast : ∀ old ∈ past, old.Regular watched) :
  ∀ e ∈ c.entries, e.2.document.Fits
  := by
  intro e he
  obtain ⟨old, hold, q, content, modified, hq, -, hfind, heq⟩ :=
    hc.wasTrue e.1 e.2 (hc.distinct.get?_of_mem he)
  obtain ⟨content', modified', hentry, hsize⟩ := hpast old hold q _ hq hfind
  cases hentry
  rw [heq]
  apply Document.ofBytes_fits sealedTags q hsize

/-- What is read from the bytes of a cache that recalls the past recalls it as well. -/
theorem Recalls.ofBytes_toBytes (hc : c.Recalls sealedTags watched past)
    (hpast : ∀ old ∈ past, old.Regular watched) (hsize : c.toBytes.length < 2 ^ 64) {d : ParseCache}
    (hd : ofBytes c.toBytes = .ok d) :
  d.Recalls sealedTags watched past
  := by
  rw [ParseCache.ofBytes_toBytes hc.distinct (hc.fits hpast) hsize] at hd
  obtain rfl := Except.ok.inj hd
  apply hc.of_mem (distinct_sorted hc.distinct)
  exact fun e => c.sorted_perm.mem_iff.mp

/-- If the file of the cache in a directory can be used, then what it holds recalls the past. -/
def StoredRecalls (t : FileTree) (dir : Path) (sealedTags : List String) (watched : Path → Prop)
    (past : List FileTree) : Prop :=
  ∀ bytes d, t.contentOf (filePath dir) = .ok bytes → ofBytes bytes = .ok d →
    d.Recalls sealedTags watched past

/-- Where there is no file of the cache, an empty one is loaded. -/
theorem load_of_has_eq_false {dir : Path} (h : t.has (filePath dir) = false) :
  (load t dir).1 = empty
  := by
  cases hcontent : t.contentOf (filePath dir) with
  | ok bytes => exact absurd hcontent (FileTree.contentOf_ne_ok h bytes)
  | error e =>
      rw [load, hcontent]
      cases e <;> rfl

/-- The cache that is loaded recalls the past if the stored one does. -/
theorem StoredRecalls.load {dir : Path} (h : StoredRecalls t dir sealedTags watched past) :
  (ParseCache.load t dir).1.Recalls sealedTags watched past
  := by
  unfold ParseCache.load
  dsimp only
  split
  · apply recalls_empty
  · apply recalls_empty
  · next bytes hbytes =>
    split
    · next d hd => apply h bytes d hbytes hd
    · apply recalls_empty

/-- After a cache has been saved, or could not be saved, the stored one recalls what it does. -/
theorem Recalls.save (hc : c.Recalls sealedTags watched past)
    (hpast : ∀ old ∈ past, old.Regular watched) {dir : Path}
    (hsize : ∀ bytes, (c.save t dir).1.contentOf (filePath dir) = .ok bytes → bytes.length < 2 ^ 64) :
  StoredRecalls (c.save t dir).1 dir sealedTags watched past
  := by
  intro bytes d hbytes hd
  obtain rfl := contentOf_save c t dir hbytes
  apply hc.ofBytes_toBytes hpast (hsize _ hbytes) hd

end ParseCache

end JobIndex
