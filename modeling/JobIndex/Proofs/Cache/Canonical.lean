import JobIndex.Proofs.Cache.Format

/-!
# The format of the cache has one form for each value

A reader is faithful to a writer when whatever it takes from the front of bytes is what the writer
writes for the value (`Faithful`). All readers of the format are: numbers have a fixed width, lengths
are those of what follows, and texts are strict. So bytes are read as a cache file exactly when they
begin with one, and then there is only one that they begin with. In particular nothing is read from
a cache file that has been cut off anywhere before its end.
-/

namespace JobIndex.Cache

variable {α β : Type} {depth : Nat}

/-! ### Readers and what they take -/

/-- What the reader takes from bytes is what the writer writes for the value, which has a
property. -/
def Faithful (read : Reader α) (write : α → List UInt8) (p : α → Prop) : Prop :=
  ∀ bytes rest a, read.run bytes = .ok (a, rest) → bytes = write a ++ rest ∧ p a

theorem exists_of_run_bind {read : Reader α} {next : α → Reader β} {bytes rest : List UInt8} {b : β}
    (h : (read >>= next).run bytes = .ok (b, rest)) :
  ∃ a between, read.run bytes = .ok (a, between) ∧ (next a).run between = .ok (b, rest)
  := by
  rw [StateT.run_bind] at h
  cases hread : read.run bytes with
  | error e =>
      rw [hread] at h
      cases h
  | ok taken =>
      rw [hread] at h
      exact ⟨taken.1, taken.2, rfl, h⟩

theorem eq_of_run_pure {a b : α} {bytes rest : List UInt8}
    (h : (pure a : Reader α).run bytes = .ok (b, rest)) :
  a = b ∧ bytes = rest
  := Prod.mk.inj (Except.ok.inj h)

/-- Bytes from which a faithful reader and then others take something begin with what the first one
has taken. -/
theorem Faithful.of_bind {read : Reader α} {write : α → List UInt8} {p : α → Prop}
    (hread : Faithful read write p) {next : α → Reader β} {bytes rest : List UInt8} {b : β}
    (h : (read >>= next).run bytes = .ok (b, rest)) :
  ∃ a between, bytes = write a ++ between ∧ p a ∧ (next a).run between = .ok (b, rest)
  := by
  obtain ⟨a, between, ha, hb⟩ := exists_of_run_bind h
  obtain ⟨hbytes, hp⟩ := hread bytes between a ha
  exact ⟨a, between, hbytes, hp, hb⟩

/-- A reader is faithful if it makes a value of one that is read faithfully. -/
theorem Faithful.map {read : Reader α} {write : α → List UInt8} {p : α → Prop}
    (hread : Faithful read write p) (f : α → β) {write' : β → List UInt8} {p' : β → Prop}
    (hwrite : ∀ a, p a → write' (f a) = write a) (hp : ∀ a, p a → p' (f a)) :
  Faithful (do let a ← read; return f a) write' p'
  := by
  intro bytes rest b h
  obtain ⟨a, between, hbytes, hpa, h⟩ := hread.of_bind h
  obtain ⟨rfl, rfl⟩ := eq_of_run_pure h
  rw [hbytes, hwrite a hpa]
  exact ⟨rfl, hp a hpa⟩

/-! ### Numbers -/

theorem splitNat_eq_ok {width n : Nat} {bytes rest : List UInt8}
    (h : splitNat width bytes = .ok (n, rest)) :
  bytes = writeNat width n ++ rest ∧ n < 256 ^ width
  := by
  induction width generalizing bytes n with
  | zero =>
      rw [splitNat] at h
      cases h
      exact ⟨rfl, Nat.one_pos⟩
  | succ width ih =>
      cases bytes with
      | nil => cases h
      | cons b bytes =>
          rw [splitNat] at h
          split at h
          · cases h
          · next m between hm =>
            cases h
            obtain ⟨rfl, hlt⟩ := ih hm
            have hb := b.toNat_lt
            have hlow : (b.toNat + 256 * m) % 256 = b.toNat := by omega
            have hhigh : (b.toNat + 256 * m) / 256 = m := by omega
            constructor
            · rw [writeNat, hlow, hhigh, Text.byte_eq rfl]
              rfl
            · rw [Nat.pow_succ]
              omega

theorem faithful_nat (width : Nat) :
  Faithful (readNat width) (writeNat width) (· < 256 ^ width)
  := fun _ _ _ => splitNat_eq_ok

theorem faithful_word :
  Faithful readWord writeWord (· < 2 ^ 64)
  := faithful_nat 8

theorem faithful_time :
  Faithful readTime writeTime fun _ => True
  := by
  apply faithful_word.map fun w => (UInt64.ofNat w).toInt64
  · intro w hw
    have hword : (UInt64.ofNat w).toInt64.toUInt64.toNat = w := by
      simpa using Nat.mod_eq_of_lt hw
    rw [writeTime, hword]
  · exact fun _ _ => trivial

/-! ### Texts and lists -/

theorem faithful_bytes (length : Nat) :
  Faithful (readBytes length) id fun taken => taken.length = length
  := by
  intro bytes rest taken h
  replace h : splitBytes length bytes = .ok (taken, rest) := h
  rw [splitBytes] at h
  split at h
  · next hlength =>
    cases h
    exact ⟨(List.take_append_drop length bytes).symm, by simpa using hlength⟩
  · cases h

theorem faithful_text :
  Faithful readText writeText fun _ => True
  := by
  intro bytes rest text h
  obtain ⟨length, between, hbytes, -, h⟩ := faithful_word.of_bind h
  obtain ⟨taken, behind, hbetween, hlength, h⟩ := (faithful_bytes length).of_bind h
  refine ⟨?_, trivial⟩
  split at h
  · next hdecode =>
    obtain ⟨rfl, rfl⟩ := eq_of_run_pure h
    rw [hbytes, hbetween, writeText, Text.encode_of_decode hdecode, hlength, List.append_assoc, id]
  · cases h

theorem faithful_path :
  Faithful readPath writePath fun _ => True
  := faithful_text.map Path.mk (fun _ _ => rfl) fun _ _ => trivial

theorem faithful_times {read : Reader α} {write : α → List UInt8} {p : α → Prop}
    (hread : Faithful read write p) (n : Nat) :
  Faithful (readTimes read n) (List.flatMap write) fun items =>
    items.length = n ∧ ∀ a ∈ items, p a
  := by
  induction n with
  | zero =>
      intro bytes rest items h
      obtain ⟨rfl, rfl⟩ := eq_of_run_pure h
      exact ⟨rfl, rfl, fun _ h => (nomatch h)⟩
  | succ n ih =>
      intro bytes rest items h
      obtain ⟨a, between, hbytes, hpa, h⟩ := hread.of_bind h
      obtain ⟨others, behind, hbetween, ⟨hlength, hp⟩, h⟩ := ih.of_bind h
      obtain ⟨rfl, rfl⟩ := eq_of_run_pure h
      refine ⟨?_, ?_, List.forall_mem_cons.mpr ⟨hpa, hp⟩⟩
      · rw [hbytes, hbetween, List.flatMap_cons, List.append_assoc]
      · rw [List.length_cons, hlength]

/-- A list is read faithfully if its items are. -/
theorem faithful_list {read : Reader α} {write : α → List UInt8} {p : α → Prop}
    (hread : Faithful read write p) :
  Faithful (readList read) (writeList write) fun items => ∀ a ∈ items, p a
  := by
  intro bytes rest items h
  obtain ⟨n, between, hbytes, -, h⟩ := faithful_word.of_bind h
  obtain ⟨hbetween, hlength, hp⟩ := faithful_times hread n between rest items h
  refine ⟨?_, hp⟩
  rw [hbytes, hbetween, writeList, hlength, List.append_assoc]

/-! ### Attributes -/

/-- The entry of a group, as a writer gives it. -/
def writeAttributeEntry (e : String × Attribute) : List UInt8 :=
  writeText e.1 ++ writeAttribute e.2

theorem writeAttributes_eq (entries : Attributes) :
  writeAttributes entries = writeList writeAttributeEntry entries
  := by
  have hentries : writeAttributeEntries entries = entries.flatMap writeAttributeEntry := by
    induction entries with
    | nil => rfl
    | cons e entries ih => rw [writeAttributeEntries, List.flatMap_cons, ih, writeAttributeEntry]
  rw [writeAttributes, writeList, hentries]

theorem faithful_attributeEntry
    (h : Faithful (readAttribute depth) writeAttribute fun _ => True) :
  Faithful (readAttributeEntry depth) writeAttributeEntry fun _ => True
  := by
  intro bytes rest e he
  obtain ⟨key, between, hkey, -, he⟩ := faithful_text.of_bind he
  obtain ⟨a, behind, ha, -, he⟩ := h.of_bind he
  obtain ⟨rfl, rfl⟩ := eq_of_run_pure he
  refine ⟨?_, trivial⟩
  rw [hkey, ha, writeAttributeEntry, List.append_assoc]

/-- An attribute is read faithfully, however deep its groups may be nested. -/
theorem faithful_attribute (depth : Nat) :
  Faithful (readAttribute depth) writeAttribute fun _ => True
  := by
  induction depth with
  | zero =>
      intro bytes rest a h
      cases h
  | succ depth ih =>
      intro bytes rest a h
      obtain ⟨kind, between, hkind, -, h⟩ := (faithful_nat 4).of_bind h
      refine ⟨?_, trivial⟩
      split at h
      · obtain ⟨value, behind, hvalue, -, h⟩ := faithful_text.of_bind h
        obtain ⟨rfl, rfl⟩ := eq_of_run_pure h
        rw [hkind, hvalue, writeAttribute, List.append_assoc]
      · obtain ⟨entries, behind, hentries, -, h⟩ :=
          (faithful_list (faithful_attributeEntry ih)).of_bind h
        obtain ⟨rfl, rfl⟩ := eq_of_run_pure h
        rw [hkind, hentries, ← writeAttributes_eq, writeAttribute, writeAttributes]
        simp only [List.append_assoc]
      · cases h

theorem faithful_attributes (depth : Nat) :
  Faithful (readAttributes depth) writeAttributes fun _ => True
  := by
  intro bytes rest entries h
  have hentry := faithful_attributeEntry (faithful_attribute depth)
  obtain ⟨hbytes, -⟩ := faithful_list hentry bytes rest entries h
  rw [writeAttributes_eq]
  exact ⟨hbytes, trivial⟩

/-! ### Records -/

theorem faithful_location :
  Faithful readLocation writeLocation Location.Fits
  := by
  intro bytes rest l h
  obtain ⟨value, _, hvalue, -, h⟩ := faithful_text.of_bind h
  obtain ⟨file, _, hfile, -, h⟩ := faithful_path.of_bind h
  obtain ⟨line, _, hline, fits_line, h⟩ := faithful_word.of_bind h
  obtain ⟨indentation, _, hindentation, fits_indentation, h⟩ := faithful_word.of_bind h
  obtain ⟨startCol, _, hstartCol, fits_startCol, h⟩ := faithful_word.of_bind h
  obtain ⟨endCol, _, hendCol, fits_endCol, h⟩ := faithful_word.of_bind h
  obtain ⟨startByte, _, hstartByte, fits_startByte, h⟩ := faithful_word.of_bind h
  obtain ⟨endByte, _, hendByte, fits_endByte, h⟩ := faithful_word.of_bind h
  obtain ⟨rfl, rfl⟩ := eq_of_run_pure h
  constructor
  · rw [hvalue, hfile, hline, hindentation, hstartCol, hendCol, hstartByte, hendByte]
    simp only [writeLocation, List.append_assoc]
  · exact ⟨fits_line, fits_indentation, fits_startCol, fits_endCol, fits_startByte, fits_endByte⟩

theorem faithful_job (depth : Nat) :
  Faithful (readJob depth) writeJob fun job => ∀ l ∈ job.locations, l.Fits
  := by
  intro bytes rest job h
  obtain ⟨file, _, hfile, -, h⟩ := faithful_path.of_bind h
  obtain ⟨attributes, _, hattributes, -, h⟩ := (faithful_attributes depth).of_bind h
  obtain ⟨locations, _, hlocations, hfits, h⟩ := (faithful_list faithful_location).of_bind h
  obtain ⟨rfl, rfl⟩ := eq_of_run_pure h
  refine ⟨?_, hfits⟩
  rw [hfile, hattributes, hlocations]
  simp only [writeJob, List.append_assoc]

theorem faithful_template (depth : Nat) :
  Faithful (readTemplate depth) writeTemplate fun t => ∀ l ∈ t.locations, l.Fits
  := by
  intro bytes rest t h
  obtain ⟨file, _, hfile, -, h⟩ := faithful_path.of_bind h
  obtain ⟨attributes, _, hattributes, -, h⟩ := (faithful_attributes depth).of_bind h
  obtain ⟨references, _, hreferences, -, h⟩ := (faithful_list faithful_text).of_bind h
  obtain ⟨locations, _, hlocations, hfits, h⟩ := (faithful_list faithful_location).of_bind h
  obtain ⟨rfl, rfl⟩ := eq_of_run_pure h
  refine ⟨?_, hfits⟩
  rw [hfile, hattributes, hreferences, hlocations]
  simp only [writeTemplate, List.append_assoc]

theorem faithful_document (depth : Nat) :
  Faithful (readDocument depth) writeDocument Document.Fits
  := by
  intro bytes rest d h
  obtain ⟨file, _, hfile, -, h⟩ := faithful_path.of_bind h
  obtain ⟨jobs, _, hjobs, fits_jobs, h⟩ := (faithful_list (faithful_job depth)).of_bind h
  obtain ⟨templates, _, htemplates, fits_templates, h⟩ :=
    (faithful_list (faithful_template depth)).of_bind h
  obtain ⟨rfl, rfl⟩ := eq_of_run_pure h
  refine ⟨?_, fits_jobs, fits_templates⟩
  rw [hfile, hjobs, htemplates]
  simp only [writeDocument, List.append_assoc]

theorem faithful_entry (depth : Nat) :
  Faithful (readEntry depth) writeEntry fun e => e.2.document.Fits
  := by
  intro bytes rest e h
  obtain ⟨path, _, hpath, -, h⟩ := faithful_path.of_bind h
  obtain ⟨modified, _, hmodified, -, h⟩ := faithful_time.of_bind h
  obtain ⟨document, _, hdocument, hfits, h⟩ := (faithful_document depth).of_bind h
  obtain ⟨rfl, rfl⟩ := eq_of_run_pure h
  refine ⟨?_, hfits⟩
  rw [hpath, hmodified, hdocument]
  simp only [writeEntry, List.append_assoc]

/-! ### Cache files -/

/-- The numbers in a cache file fit their widths. -/
structure Contents.Fits (c : Contents) : Prop where
  schema : c.schema < 256 ^ 4
  entries : ∀ e ∈ c.entries, e.2.document.Fits

theorem faithful_contents (depth : Nat) :
  Faithful (readContents depth) writeContents Contents.Fits
  := by
  intro bytes rest c h
  obtain ⟨schema, _, hschema, fits_schema, h⟩ := (faithful_nat 4).of_bind h
  obtain ⟨tool, _, htool, -, h⟩ := faithful_text.of_bind h
  obtain ⟨entries, _, hentries, fits_entries, h⟩ := (faithful_list (faithful_entry depth)).of_bind h
  obtain ⟨rfl, rfl⟩ := eq_of_run_pure h
  refine ⟨?_, fits_schema, fits_entries⟩
  rw [hschema, htool, hentries]
  simp only [writeContents, List.append_assoc]

variable {bytes : List UInt8} {c d : Contents}

/-- Bytes that are read as a cache file begin with it. -/
theorem prefix_of_parseContents (h : parseContents bytes = .ok c) :
  writeContents c <+: bytes ∧ c.Fits
  := by
  rw [parseContents] at h
  cases hread : (readContents (bytes.length + 1)).run bytes with
  | error e =>
      rw [hread] at h
      cases h
  | ok taken =>
      rw [hread] at h
      cases h
      obtain ⟨hbytes, hfits⟩ := faithful_contents _ _ _ _ hread
      exact ⟨⟨taken.2, hbytes.symm⟩, hfits⟩

/-- Bytes that begin with a cache file are read as it, whatever follows. -/
theorem parseContents_of_written (hfits : c.Fits) (hsize : (writeContents c).length < 2 ^ 64)
    (h : writeContents c <+: bytes) :
  parseContents bytes = .ok c
  := by
  obtain ⟨rest, rfl⟩ := h
  have hdepth : (writeContents c).length ≤ (writeContents c ++ rest).length + 1 := by
    rw [List.length_append]
    omega
  have hread := restores_contents hsize hdepth hfits.schema hfits.entries (Nat.le_refl _) rest
  rw [parseContents, hread]
  rfl

/-- Nothing is read from a cache file that has been cut off before its end. -/
theorem parseContents_cut_off (hfits : c.Fits) (hsize : (writeContents c).length < 2 ^ 64)
    (h : bytes <+: writeContents c) (hne : bytes ≠ writeContents c) :
  parseContents bytes ≠ .ok d
  := by
  intro hparse
  -- what was read stands at the front of the whole file too, from which only `c` is read
  obtain ⟨hstart, hfits'⟩ := prefix_of_parseContents hparse
  have hwhole := hstart.trans h
  have hd : parseContents (writeContents c) = .ok d :=
    parseContents_of_written hfits' (Nat.lt_of_le_of_lt hwhole.length_le hsize) hwhole
  rw [parseContents_of_written hfits hsize (List.prefix_refl _)] at hd
  obtain rfl := Except.ok.inj hd
  apply hne (h.eq_of_length_le hstart.length_le)

end JobIndex.Cache
