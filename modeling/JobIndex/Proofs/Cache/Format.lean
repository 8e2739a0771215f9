import JobIndex.Cache.Format
import JobIndex.Proofs.Text.Utf8
import Mathlib.Algebra.Group.Nat.Defs

/-!
# The format of the cache reads back

A reader restores a value from bytes when it takes the value from them and leaves what follows
(`Restores`). Readers that follow one another restore what writers have written one after another,
so each kind of value is restored because its parts are.

A number is restored if it fits its width. The length of a text or a list is a word too: it fits
because what is written is not longer than a bound `n`, which is below `2 ^ 64`. The same bound
limits how deep groups can be nested.
-/

namespace JobIndex

namespace Cache

variable {α β : Type} {n depth : Nat}

/-! ### Readers after writers -/

/-- The reader takes the value `a` from the front of `bytes`, if there are at most `n` of them, and
leaves what follows. -/
def Restores (n : Nat) (read : Reader α) (bytes : List UInt8) (a : α) : Prop :=
  bytes.length ≤ n → ∀ rest, read.run (bytes ++ rest) = .ok (a, rest)

namespace Restores

theorem pure (a : α) :
  Restores n (pure a : Reader α) [] a
  := fun _ _ => rfl

/-- One reader restores what stands first, the next one what follows. -/
theorem bind {read : Reader α} {next : α → Reader β} {bytes bytes' : List UInt8} {a : α} {b : β}
    (h : Restores n read bytes a) (h' : Restores n (next a) bytes' b) :
  Restores n (read >>= next) (bytes ++ bytes') b
  := by
  intro hlength rest
  rw [List.length_append] at hlength
  rw [List.append_assoc, StateT.run_bind, h (by omega)]
  apply h' (by omega)

/-- A reader restores what is there, and what comes next reads nothing. -/
theorem bind_nil {read : Reader α} {next : α → Reader β} {bytes : List UInt8} {a : α} {b : β}
    (h : Restores n read bytes a) (h' : Restores n (next a) [] b) :
  Restores n (read >>= next) bytes b
  := by
  rw [← List.append_nil bytes]
  apply h.bind h'

/-- A reader restores a value that is made of the one it has read. -/
theorem map {read : Reader α} {bytes : List UInt8} {a : α} (f : α → β)
    (h : Restores n read bytes a) :
  Restores n (do let a ← read; return f a) bytes (f a)
  := h.bind_nil (Restores.pure (f a))

theorem of_length {read : Reader α} {bytes : List UInt8} {a : α}
    (h : bytes.length ≤ n → Restores n read bytes a) :
  Restores n read bytes a
  := fun hlength => h hlength hlength

/-- Bytes that are few enough for one bound are restored under any. -/
theorem of_le {m : Nat} {read : Reader α} {bytes : List UInt8} {a : α}
    (h : Restores m read bytes a) (hlength : bytes.length ≤ m) :
  Restores n read bytes a
  := fun _ => h hlength

end Restores

/-! ### Numbers -/

theorem length_writeNat (width m : Nat) :
  (writeNat width m).length = width
  := by
  induction width generalizing m with
  | zero => rfl
  | succ width ih => rw [writeNat, List.length_cons, ih]

theorem splitNat_writeNat {width m : Nat} (h : m < 256 ^ width) (rest : List UInt8) :
  splitNat width (writeNat width m ++ rest) = .ok (m, rest)
  := by
  induction width generalizing m with
  | zero =>
      obtain rfl : m = 0 := by simpa using h
      rfl
  | succ width ih =>
      have hlow : m % 256 < 256 := Nat.mod_lt m (by omega)
      have hhigh : m / 256 < 256 ^ width := by
        rw [Nat.pow_succ] at h
        apply Nat.div_lt_of_lt_mul
        omega
      rw [writeNat, List.cons_append, splitNat, ih hhigh]
      simp only [Text.toNat_byte hlow, Nat.mod_add_div]

theorem restores_nat {width m : Nat} (h : m < 256 ^ width) :
  Restores n (readNat width) (writeNat width m) m
  := fun _ rest => splitNat_writeNat h rest

/-- A number that fits a word is restored. -/
theorem restores_word {m : Nat} (h : m < 2 ^ 64) :
  Restores n readWord (writeWord m) m
  := restores_nat h

/-! ### Texts and lists -/

theorem restores_bytes (bytes : List UInt8) :
  Restores n (readBytes bytes.length) bytes bytes
  := by
  intro _ rest
  show splitBytes bytes.length (bytes ++ rest) = .ok (bytes, rest)
  simp [splitBytes]

theorem restores_text (hn : n < 2 ^ 64) (text : String) :
  Restores n readText (writeText text) text
  := by
  apply Restores.of_length
  intro hlength
  rw [writeText, List.length_append] at hlength
  apply (restores_word (by omega)).bind
  apply (restores_bytes (Text.encode text)).bind_nil
  rw [Text.decode_encode]
  apply Restores.pure

theorem restores_path (hn : n < 2 ^ 64) (path : Path) :
  Restores n readPath (writePath path) path
  := (restores_text hn path.spelling).map Path.mk

/-- A time is restored, which is a word as it stands. -/
theorem restores_time (time : Int64) :
  Restores n readTime (writeTime time) time
  := by
  have hword : (UInt64.ofNat time.toUInt64.toNat).toInt64 = time := by simp
  have h := (restores_word (n := n) time.toUInt64.toNat_lt).map fun w => (UInt64.ofNat w).toInt64
  rwa [hword] at h

theorem restores_times {read : Reader α} {write : α → List UInt8} {items : List α}
    (h : ∀ a ∈ items, Restores n read (write a) a) :
  Restores n (readTimes read items.length) (items.flatMap write) items
  := by
  induction items with
  | nil => apply Restores.pure
  | cons a items ih =>
      rw [List.forall_mem_cons] at h
      rw [List.flatMap_cons]
      apply h.1.bind
      apply (ih h.2).map (a :: ·)

theorem length_le_length_flatMap {write : α → List UInt8} {items : List α}
    (h : ∀ a ∈ items, write a ≠ []) :
  items.length ≤ (items.flatMap write).length
  := by
  induction items with
  | nil => apply Nat.le_refl
  | cons a items ih =>
      rw [List.forall_mem_cons] at h
      have hpos := List.length_pos_iff.mpr h.1
      have hrest := ih h.2
      rw [List.flatMap_cons, List.length_append, List.length_cons]
      omega

/-- A list is restored if its items are, each of which takes some bytes. -/
theorem restores_list (hn : n < 2 ^ 64) {read : Reader α} {write : α → List UInt8}
    {items : List α} (hne : ∀ a ∈ items, write a ≠ [])
    (h : ∀ a ∈ items, Restores n read (write a) a) :
  Restores n (readList read) (writeList write items) items
  := by
  apply Restores.of_length
  intro hlength
  rw [writeList, List.length_append] at hlength
  have hitems := length_le_length_flatMap hne
  apply (restores_word (by omega)).bind
  apply restores_times h

/-! ### Attributes -/

/-- The entry of a group, as a reader takes it. -/
def readAttributeEntry (depth : Nat) : Reader (String × Attribute) := do
  let key ← readText
  let a ← readAttribute depth
  return (key, a)

theorem length_writeText (text : String) :
  8 ≤ (writeText text).length
  := by
  rw [writeText, writeWord, List.length_append, length_writeNat]
  omega

theorem length_le_length_writeAttributeEntries (entries : Attributes) :
  entries.length ≤ (writeAttributeEntries entries).length
  := by
  induction entries with
  | nil => apply Nat.le_refl
  | cons entry entries ih =>
      have hkey := length_writeText entry.1
      rw [writeAttributeEntries, List.length_append, List.length_append, List.length_cons]
      omega

mutual

/-- An attribute is restored if its groups are not nested too deep, which the number of its bytes
limits. -/
theorem restores_attribute : (a : Attribute) → ∀ {n depth : Nat}, n < 2 ^ 64 → n ≤ depth →
    Restores n (readAttribute depth) (writeAttribute a) a
  | .scalar value, n, depth, hn, hdepth => by
      apply Restores.of_length
      intro hlength
      rw [writeAttribute, List.length_append, length_writeNat] at hlength
      obtain ⟨depth, rfl⟩ : ∃ d, depth = d + 1 := ⟨depth - 1, by omega⟩
      rw [readAttribute, writeAttribute]
      apply (restores_nat (by decide)).bind
      apply (restores_text hn value).map Attribute.scalar
  | .group entries, n, depth, hn, hdepth => by
      apply Restores.of_length
      intro hlength
      rw [writeAttribute, List.length_append, List.length_append, length_writeNat] at hlength
      obtain ⟨depth, rfl⟩ : ∃ d, depth = d + 1 := ⟨depth - 1, by omega⟩
      have hentries := length_le_length_writeAttributeEntries entries
      rw [readAttribute, writeAttribute, List.append_assoc]
      apply (restores_nat (by decide)).bind
      apply Restores.map Attribute.group
      apply (restores_word (by omega)).bind
      -- the kind and the length of the group leave fewer bytes for what is in it
      have hinner : Restores (n - 1) (readTimes (readAttributeEntry depth) entries.length)
          (writeAttributeEntries entries) entries :=
        restores_attributeEntries entries (by omega) (by omega)
      apply hinner.of_le (by omega)

theorem restores_attributeEntries : (entries : List (String × Attribute)) → ∀ {n depth : Nat},
    n < 2 ^ 64 → n ≤ depth → Restores n (readTimes (readAttributeEntry depth) entries.length)
      (writeAttributeEntries entries) entries
  | [], _, _, _, _ => Restores.pure []
  | (key, a) :: entries, n, depth, hn, hdepth => by
      have hentry : Restores n (readAttributeEntry depth) (writeText key ++ writeAttribute a)
          (key, a) := by
        apply (restores_text hn key).bind
        apply (restores_attribute a hn hdepth).map (key, ·)
      rw [writeAttributeEntries]
      apply hentry.bind
      apply (restores_attributeEntries entries hn hdepth).map ((key, a) :: ·)

end

theorem restores_attributes (hn : n < 2 ^ 64) (hdepth : n ≤ depth) (entries : Attributes) :
  Restores n (readAttributes depth) (writeAttributes entries) entries
  := by
  apply Restores.of_length
  intro hlength
  rw [writeAttributes, List.length_append] at hlength
  have hentries := length_le_length_writeAttributeEntries entries
  apply (restores_word (by omega)).bind
  apply restores_attributeEntries entries hn hdepth

end Cache

/-! ### Records -/

/-- The numbers of a location fit words. -/
structure Location.Fits (l : Location) : Prop where
  line : l.line < 2 ^ 64
  indentation : l.indentation < 2 ^ 64
  startCol : l.startCol < 2 ^ 64
  endCol : l.endCol < 2 ^ 64
  startByte : l.startByte < 2 ^ 64
  endByte : l.endByte < 2 ^ 64

/-- The numbers in the records of a file fit words. -/
structure Document.Fits (d : Document) : Prop where
  jobs : ∀ job ∈ d.jobs, ∀ l ∈ job.locations, l.Fits
  templates : ∀ t ∈ d.templates, ∀ l ∈ t.locations, l.Fits

namespace Cache

variable {n depth : Nat}

theorem restores_location (hn : n < 2 ^ 64) {l : Location} (h : l.Fits) :
  Restores n readLocation (writeLocation l) l
  := by
  simp only [writeLocation, List.append_assoc]
  apply (restores_text hn l.value).bind
  apply (restores_path hn l.file).bind
  apply (restores_word h.line).bind
  apply (restores_word h.indentation).bind
  apply (restores_word h.startCol).bind
  apply (restores_word h.endCol).bind
  apply (restores_word h.startByte).bind
  apply (restores_word h.endByte).bind_nil
  apply Restores.pure

theorem writeText_append_ne_nil (text : String) (bytes : List UInt8) :
  writeText text ++ bytes ≠ []
  := by
  intro h
  have hlength := length_writeText text
  rw [List.append_eq_nil_iff.mp h |>.1] at hlength
  cases hlength

theorem restores_locations (hn : n < 2 ^ 64) {ls : List Location} (h : ∀ l ∈ ls, l.Fits) :
  Restores n (readList readLocation) (writeList writeLocation ls) ls
  := by
  apply restores_list hn
  · intro l _
    simp only [writeLocation, List.append_assoc]
    apply writeText_append_ne_nil
  · intro l hl
    apply restores_location hn (h l hl)

theorem restores_job (hn : n < 2 ^ 64) (hdepth : n ≤ depth) {job : Job}
    (h : ∀ l ∈ job.locations, l.Fits) :
  Restores n (readJob depth) (writeJob job) job
  := by
  simp only [writeJob, List.append_assoc]
  apply (restores_path hn job.file).bind
  apply (restores_attributes hn hdepth job.attributes).bind
  apply (restores_locations hn h).bind_nil
  apply Restores.pure

theorem restores_template (hn : n < 2 ^ 64) (hdepth : n ≤ depth) {t : Template}
    (h : ∀ l ∈ t.locations, l.Fits) :
  Restores n (readTemplate depth) (writeTemplate t) t
  := by
  have hreferences : Restores n (readList readText) (writeList writeText t.references)
      t.references := by
    apply restores_list hn
    · intro name _
      rw [← List.append_nil (writeText name)]
      apply writeText_append_ne_nil
    · intro name _
      apply restores_text hn
  simp only [writeTemplate, List.append_assoc]
  apply (restores_path hn t.file).bind
  apply (restores_attributes hn hdepth t.attributes).bind
  apply hreferences.bind
  apply (restores_locations hn h).bind_nil
  apply Restores.pure

theorem restores_document (hn : n < 2 ^ 64) (hdepth : n ≤ depth) {d : Document} (h : d.Fits) :
  Restores n (readDocument depth) (writeDocument d) d
  := by
  have hjobs : Restores n (readList (readJob depth)) (writeList writeJob d.jobs) d.jobs := by
    apply restores_list hn
    · intro job _
      simp only [writeJob, List.append_assoc]
      apply writeText_append_ne_nil
    · intro job hjob
      apply restores_job hn hdepth (h.jobs job hjob)
  have htemplates : Restores n (readList (readTemplate depth))
      (writeList writeTemplate d.templates) d.templates := by
    apply restores_list hn
    · intro t _
      simp only [writeTemplate, List.append_assoc]
      apply writeText_append_ne_nil
    · intro t ht
      apply restores_template hn hdepth (h.templates t ht)
  simp only [writeDocument, List.append_assoc]
  apply (restores_path hn d.file).bind
  apply hjobs.bind
  apply htemplates.bind_nil
  apply Restores.pure

theorem restores_entry (hn : n < 2 ^ 64) (hdepth : n ≤ depth) {e : Path × Entry}
    (h : e.2.document.Fits) :
  Restores n (readEntry depth) (writeEntry e) e
  := by
  simp only [writeEntry, List.append_assoc]
  apply (restores_path hn e.1).bind
  apply (restores_time e.2.modified).bind
  apply (restores_document hn hdepth h).bind_nil
  apply Restores.pure

theorem restores_contents (hn : n < 2 ^ 64) (hdepth : n ≤ depth) {c : Contents}
    (hschema : c.schema < 256 ^ 4) (h : ∀ e ∈ c.entries, e.2.document.Fits) :
  Restores n (readContents depth) (writeContents c) c
  := by
  have hentries : Restores n (readList (readEntry depth)) (writeList writeEntry c.entries)
      c.entries := by
    apply restores_list hn
    · intro e _
      simp only [writeEntry, List.append_assoc]
      apply writeText_append_ne_nil
    · intro e he
      apply restores_entry hn hdepth (h e he)
  simp only [writeContents, List.append_assoc]
  apply (restores_nat hschema).bind
  apply (restores_text hn c.tool).bind
  apply hentries.bind_nil
  apply Restores.pure

/-- What a cache file holds is read back from its bytes, if there are fewer than `2 ^ 64`. -/
theorem parseContents_writeContents {c : Contents} (hsize : (writeContents c).length < 2 ^ 64)
    (hschema : c.schema < 256 ^ 4) (h : ∀ e ∈ c.entries, e.2.document.Fits) :
  parseContents (writeContents c) = .ok c
  := by
  have hread := restores_contents hsize (Nat.le_succ _) hschema h (Nat.le_refl _) []
  rw [List.append_nil] at hread
  rw [parseContents, hread]
  rfl

end Cache

end JobIndex
