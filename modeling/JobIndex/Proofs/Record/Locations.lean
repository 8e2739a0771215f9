import JobIndex.Proofs.Text.Lines
import JobIndex.Record.Reading

/-!
# The locations of records are exact

A location is exact in a text when its value stands there: on its line, at its column and at its
bytes (`Location.ExactIn`). A finished node leaves a location when reading it adds that location,
whatever has been read before (`Yaml.Closing.Leaves`). The argument has three parts:

* what a scalar leaves is exact, and stands where its node begins if the scalar stands there;
* one step of reading keeps all locations among those that nodes of the text have left;
* hence so does reading a whole text, and the records of a document have only exact locations.
-/

namespace JobIndex

/-! ### Exact locations -/

/-- A location says where its value stands: on a line of the text, after the characters `lead` and
before the characters `tail` of that line. -/
structure Location.ExactIn (l : Location) (file : Path) (text : String) : Prop where
  file_eq : l.file = file
  value_ne : l.value ≠ ""
  no_feed : '\n' ∉ l.value.toList
  stands : ∃ before lead tail ending after,
    Text.LineAt text.toList l.line before (lead ++ (l.value.toList ++ tail)) ending after ∧
    l.indentation = Text.blanks (lead ++ (l.value.toList ++ tail)) ∧
    l.startCol = lead.length ∧
    l.startByte = Text.byteSize (before ++ lead)
  endCol_eq : l.endCol = l.startCol + l.value.length
  endByte_eq : l.endByte = l.startByte + l.value.utf8ByteSize
  start_valid : (⟨l.startByte⟩ : String.Pos.Raw).IsValid text
  end_valid : (⟨l.endByte⟩ : String.Pos.Raw).IsValid text
  bytes_eq : text.toByteArray.extract l.startByte l.endByte = l.value.toByteArray

/-- A location is exact if its value stands on its line and its ends are those of the value. -/
theorem Location.exactIn_of_stands {l : Location} {text : String}
    {before lead tail ending after : List Char} (hne : l.value ≠ "")
    (hfeed : '\n' ∉ l.value.toList)
    (hat : Text.LineAt text.toList l.line before (lead ++ (l.value.toList ++ tail)) ending after)
    (hindent : l.indentation = Text.blanks (lead ++ (l.value.toList ++ tail)))
    (hcol : l.startCol = lead.length) (hbyte : l.startByte = Text.byteSize (before ++ lead))
    (hendCol : l.endCol = l.startCol + l.value.toList.length)
    (hendByte : l.endByte = l.startByte + Text.byteSize l.value.toList) :
  l.ExactIn l.file text
  := by
  have htext : text.toList =
      (before ++ lead) ++ (l.value.toList ++ (tail ++ (ending ++ after))) := by
    rw [hat.text_eq]
    simp only [List.append_assoc]
  have hend : text.toList =
      (before ++ lead ++ l.value.toList) ++ (tail ++ (ending ++ after)) := by
    rw [htext, List.append_assoc (before ++ lead)]
  exact {
    file_eq := rfl
    value_ne := hne
    no_feed := hfeed
    stands := ⟨before, lead, tail, ending, after, hat, hindent, hcol, hbyte⟩
    endCol_eq := by
      rw [hendCol, String.length_toList]
    endByte_eq := by
      rw [hendByte, Text.byteSize_toList]
    start_valid := by
      rw [hbyte]
      apply Text.isValid_byteSize htext
    end_valid := by
      rw [hendByte, hbyte, ← Text.byteSize_append]
      apply Text.isValid_byteSize hend
    bytes_eq := by
      rw [hendByte, hbyte]
      apply Text.extract_byteSize htext }

/-- A location in which the value has been found on its line is exact. -/
theorem Location.exactIn_of_ofScalar? {file : Path} {text value : String} {line : Text.Line}
    {number indentation column : Nat} {l : Location}
    (hline : (Text.lines text)[number]? = some line)
    (hindent : indentation = Text.blanks line.content) (hne : value ≠ "")
    (hfeed : '\n' ∉ value.toList)
    (h : Location.ofScalar? file line number indentation column value = some l) :
  l.ExactIn file text
  := by
  obtain ⟨startCol, hfind, rfl⟩ := Option.map_eq_some_iff.mp h
  obtain ⟨lead, tail, hcontent, rfl⟩ := Text.Line.stands_of_find? hfind
  obtain ⟨before, ending, after, hat, hstart⟩ := Text.getElem?_lines_iff.mp hline
  rw [hcontent] at hat hindent
  apply Location.exactIn_of_stands hne hfeed hat hindent rfl ?_ rfl rfl
  rw [hcontent, List.take_left, Text.byteSize_append, hstart]

/-! ### Nodes -/

namespace Yaml

/-- A node is told with the blanks of its line. -/
theorem Assembly.indent_of_step {indents : Array Nat} {sealedTags : List String} {a b : Assembly}
    {e : MarkedEvent} {c : Closing} (h : a.step indents sealedTags e = (b, some c)) :
  c.indent = indents[c.line]?.getD 0
  := by
  have hclose : ∀ (a b : Assembly) (kind : NodeKind) (v : Value) (start : Mark) (anchor : Nat),
      a.close indents kind v start anchor = (b, some c) → c.indent = indents[c.line]?.getD 0 := by
    intro a b kind v start anchor h
    unfold Assembly.close at h
    split at h
    · cases h
    · cases h
      rfl
  unfold Assembly.step at h
  split at h
  · apply hclose _ _ _ _ _ _ h
  · cases h
  · split at h
    · apply hclose _ _ _ _ _ _ h
    · cases h
  · cases h
  · split at h
    · apply hclose _ _ _ _ _ _ h
    · cases h
  · cases h
  · cases h
  · cases h

theorem Assembly.indent_of_mem_closings {indents : Array Nat} {sealedTags : List String}
    {a : Assembly} {events : List MarkedEvent} {c : Closing}
    (h : c ∈ a.closings indents sealedTags events) :
  c.indent = indents[c.line]?.getD 0
  := by
  induction events generalizing a with
  | nil => cases h
  | cons e events ih =>
      rw [Assembly.closings] at h
      split at h
      · next b d hstep =>
        obtain rfl | h := List.mem_cons.mp h
        · apply Assembly.indent_of_step hstep
        · apply ih h
      · apply ih h

end Yaml

/-! ### One step -/

/-- The locations of one occurrence are taken from those collected. -/
theorem Location.mem_of_mem_collapse {l : Location} {ls : List Location} (h : l ∈ collapse ls) :
  l ∈ ls
  := by
  have hafter : ∀ (ls : List Location) (last : Location), l ∈ collapseAfter last ls → l ∈ ls := by
    intro ls
    induction ls with
    | nil => exact fun _ h => h
    | cons m ls ih =>
        intro last h
        rw [collapseAfter] at h
        split at h
        · apply List.mem_cons_of_mem m (ih last h)
        · obtain rfl | h := List.mem_cons.mp h
          · apply List.mem_cons_self
          · apply List.mem_cons_of_mem m (ih m h)
  cases ls with
  | nil => exact h
  | cons m ls =>
      obtain rfl | h := List.mem_cons.mp h
      · apply List.mem_cons_self
      · apply List.mem_cons_of_mem m (hafter ls m h)

namespace Yaml.Closing

/-- A scalar stands in the text at the line and column at which its node begins. -/
structure StandsVerbatim (c : Closing) (text value : String) : Prop where
  kind_eq : c.kind = .scalar
  value_eq : c.value = .scalar value
  value_ne : value ≠ ""
  stands : ∃ before lead tail ending after,
    Text.LineAt text.toList c.line before (lead ++ (value.toList ++ tail)) ending after ∧
    lead.length = c.column

/-- A scalar is the key that begins a record. -/
def BeginsRecord (c : Closing) : Prop :=
  Reading.isRecordKey c = true ∧
    (c.value = .scalar "job" ∨ c.value = .scalar "project-template")

/-- Reading a node adds a location, whatever has been read before. -/
def Leaves (c : Closing) (file : Path) (text : String) (l : Location) : Prop :=
  ∀ r : Reading, (r.step file (Text.lines text) c).locations = l :: r.locations

/-- A scalar is found on its line, which gives it the location `l`. -/
structure FoundAs (c : Closing) (file : Path) (text : String) (l : Location) : Prop where
  kind_eq : c.kind = .scalar
  value_eq : c.value = .scalar l.value
  no_record : ¬ c.BeginsRecord
  value_ne : l.value ≠ ""
  no_feed : '\n' ∉ l.value.toList
  found : ∃ line, (Text.lines text)[c.line]? = some line ∧
    Location.ofScalar? file line c.line c.indent c.column l.value = some l

variable {c : Closing} {file : Path} {text : String} {l : Location}

theorem FoundAs.leaves (h : c.FoundAs file text l) :
  c.Leaves file text l
  := by
  intro r
  obtain ⟨line, hline, hl⟩ := h.found
  have hword : (Reading.isRecordKey c && Reading.isRecordWord l.value) = false := by
    rw [← Bool.not_eq_true]
    intro hword
    apply h.no_record
    simpa [BeginsRecord, Reading.isRecordWord, h.value_eq] using hword
  simp [Reading.step, Reading.locate, Value.asText, h.kind_eq, h.value_eq, hword, h.value_ne,
    h.no_feed, hline, hl]

/-- What a node leaves is exact, if the blanks of its line have been counted. -/
theorem FoundAs.exactIn (h : c.FoundAs file text l)
    (hindent : c.indent = (Text.indentations text)[c.line]?.getD 0) :
  l.ExactIn file text
  := by
  obtain ⟨line, hline, hl⟩ := h.found
  apply Location.exactIn_of_ofScalar? hline _ h.value_ne h.no_feed hl
  rw [hindent, Text.indentations_eq, Array.getElem?_map, hline]
  rfl

/-- A scalar that stands where its node begins is found there. -/
theorem StandsVerbatim.exists_ofScalar? {value : String} (h : c.StandsVerbatim text value)
    (file : Path) :
  ∃ line l, (Text.lines text)[c.line]? = some line ∧
    Location.ofScalar? file line c.line c.indent c.column value = some l ∧
    l.value = value ∧ l.line = c.line ∧ l.startCol = c.column
  := by
  obtain ⟨before, lead, tail, ending, after, hat, hcolumn⟩ := h.stands
  let line : Text.Line := ⟨lead ++ (value.toList ++ tail), Text.byteSize before⟩
  have hline : (Text.lines text)[c.line]? = some line := by
    apply Text.getElem?_lines_iff.mpr
    exact ⟨before, ending, after, hat, rfl⟩
  have hfind : line.find? value.toList c.column = some c.column := by
    rw [← hcolumn]
    apply Text.Line.find?_eq_column rfl
  use line
  rw [Location.ofScalar?, hfind]
  refine ⟨_, hline, rfl, rfl, rfl, rfl⟩

/-- A scalar that stands where its node begins leaves its location there, unless it begins a
record. -/
theorem StandsVerbatim.exists_foundAs {value : String} (h : c.StandsVerbatim text value)
    (hrecord : ¬ c.BeginsRecord) (file : Path) :
  ∃ l, c.FoundAs file text l ∧ l.value = value ∧ l.line = c.line ∧ l.startCol = c.column
  := by
  obtain ⟨line, l, hline, hl, rfl, hnumber, hcolumn⟩ := h.exists_ofScalar? file
  obtain ⟨_, _, _, _, _, hat, _⟩ := h.stands
  have hfeed : '\n' ∉ l.value.toList := by
    intro hmem
    apply hat.no_feed
    simp [hmem]
  refine ⟨l, ?_, rfl, hnumber, hcolumn⟩
  exact ⟨h.kind_eq, h.value_eq, hrecord, h.value_ne, hfeed, line, hline, hl⟩

end Yaml.Closing

namespace Reading

variable {file : Path} {text : String} {c : Yaml.Closing} {r : Reading}

/-- What reading the node `c` can make of `r`: the locations collected are cleared, kept, added to,
or given to a record. -/
inductive Outcome (file : Path) (text : String) (c : Yaml.Closing) (r s : Reading) : Prop where
  | cleared (hl : s.locations = []) (hj : s.jobs = r.jobs) (ht : s.templates = r.templates)
  | kept (hl : s.locations = r.locations) (hj : s.jobs = r.jobs) (ht : s.templates = r.templates)
  | added (l : Location) (hfound : c.FoundAs file text l) (hl : s.locations = l :: r.locations)
      (hj : s.jobs = r.jobs) (ht : s.templates = r.templates)
  | job (job : Job) (hfile : job.file = file)
      (htaken : job.locations = Location.collapse r.locations.reverse)
      (hl : s.locations = []) (hj : s.jobs = job :: r.jobs) (ht : s.templates = r.templates)
  | template (t : Template) (hfile : t.file = file)
      (htaken : t.locations = Location.collapse r.locations.reverse)
      (hl : s.locations = []) (hj : s.jobs = r.jobs) (ht : s.templates = t :: r.templates)

theorem closeRecord_outcome (file : Path) (text : String) (c : Yaml.Closing) (r : Reading)
    (record : Yaml.Value) :
  Outcome file text c r (r.closeRecord file record)
  := by
  unfold closeRecord
  split
  · next body _ =>
    -- a diagnostic is noted or not, which touches neither locations nor records
    obtain ⟨taken, htaken⟩ : ∃ taken, r.takeLocations = taken := ⟨_, rfl⟩
    rw [htaken]
    dsimp only
    split <;> cases htaken <;> exact .job _ rfl rfl rfl rfl rfl
  · split
    · exact .template _ rfl rfl rfl rfl rfl
    · exact .kept rfl rfl rfl

theorem locate_outcome {value : String} (hkind : c.kind = .scalar)
    (hvalue : c.value = .scalar value) (hrecord : ¬ c.BeginsRecord) (hne : value ≠ "")
    (file : Path) (text : String) (r : Reading) :
  Outcome file text c r (r.locate file (Text.lines text) c value)
  := by
  unfold locate
  split
  · exact .kept rfl rfl rfl
  · next hfeed =>
    split
    · exact .kept rfl rfl rfl
    · next line hline =>
      split
      · next l hl =>
        obtain ⟨_, _, heq⟩ := Option.map_eq_some_iff.mp hl
        obtain rfl : l.value = value := by
          rw [← heq]
        have hfound : c.FoundAs file text l :=
          ⟨hkind, hvalue, hrecord, hne, by simpa using hfeed, line, hline, hl⟩
        exact .added l hfound rfl rfl rfl
      · exact .kept rfl rfl rfl

theorem step_outcome (file : Path) (text : String) (c : Yaml.Closing) (r : Reading) :
  Outcome file text c r (r.step file (Text.lines text) c)
  := by
  unfold step
  split
  · next hkind =>
    cases hvalue : c.value with
    | scalar value =>
        simp only [Yaml.Value.asText]
        split
        · exact .cleared rfl rfl rfl
        · next hword =>
          split
          · exact .kept rfl rfl rfl
          · next hne =>
            apply locate_outcome hkind hvalue
            · intro hrecord
              apply hword
              simpa [Yaml.Closing.BeginsRecord, isRecordWord, hvalue] using hrecord
            · simpa using hne
    | _ => exact .kept rfl rfl rfl
  · split
    · apply closeRecord_outcome
    · exact .kept rfl rfl rfl
  · exact .kept rfl rfl rfl

/-- All records of a reading stand in a file, and all its locations, those collected and those of
its records, have a property. -/
structure All (file : Path) (p : Location → Prop) (r : Reading) : Prop where
  locations : ∀ l ∈ r.locations, p l
  jobs : ∀ job ∈ r.jobs, job.file = file ∧ ∀ l ∈ job.locations, p l
  templates : ∀ t ∈ r.templates, t.file = file ∧ ∀ l ∈ t.locations, p l

variable {p : Location → Prop}

theorem All.collapse (h : r.All file p) :
  ∀ l ∈ Location.collapse r.locations.reverse, p l
  := by
  intro l hl
  apply h.locations
  apply List.mem_reverse.mp (Location.mem_of_mem_collapse hl)

/-- A step keeps a property of all locations that the node it reads can leave. -/
theorem All.step (h : r.All file p) (hc : ∀ l, c.FoundAs file text l → p l) :
  (r.step file (Text.lines text) c).All file p
  := by
  cases step_outcome file text c r with
  | cleared hl hj ht =>
      constructor
      · simp [hl]
      · rw [hj]
        apply h.jobs
      · rw [ht]
        apply h.templates
  | kept hl hj ht =>
      constructor
      · rw [hl]
        apply h.locations
      · rw [hj]
        apply h.jobs
      · rw [ht]
        apply h.templates
  | added l hfound hl hj ht =>
      constructor
      · rw [hl, List.forall_mem_cons]
        exact ⟨hc l hfound, h.locations⟩
      · rw [hj]
        apply h.jobs
      · rw [ht]
        apply h.templates
  | job job hfile htaken hl hj ht =>
      constructor
      · simp [hl]
      · rw [hj, List.forall_mem_cons, htaken]
        exact ⟨⟨hfile, h.collapse⟩, h.jobs⟩
      · rw [ht]
        apply h.templates
  | template t hfile htaken hl hj ht =>
      constructor
      · simp [hl]
      · rw [hj]
        apply h.jobs
      · rw [ht, List.forall_mem_cons, htaken]
        exact ⟨⟨hfile, h.collapse⟩, h.templates⟩

/-- Reading nodes keeps a property of all locations that they can leave. -/
theorem All.foldl_step {cs : List Yaml.Closing} (hcs : ∀ c ∈ cs, ∀ l, c.FoundAs file text l → p l)
    (h : r.All file p) :
  (cs.foldl (Reading.step file (Text.lines text)) r).All file p
  := by
  induction cs generalizing r with
  | nil => exact h
  | cons c cs ih =>
      rw [List.forall_mem_cons] at hcs
      apply ih hcs.2 (h.step hcs.1)

theorem All.empty (file : Path) (p : Location → Prop) :
  Reading.empty.All file p
  := by
  constructor <;> exact fun _ h => nomatch h

end Reading

/-! ### Documents -/

namespace Document

/-- The finished nodes of a text. -/
def nodes (sealedTags : List String) (text : String) : List Yaml.Closing :=
  Yaml.closings text sealedTags (Yaml.EventStream.ofText text).events

/-- A location belongs to a record of a document. -/
def HasLocation (d : Document) (l : Location) : Prop :=
  (∃ job ∈ d.jobs, l ∈ job.locations) ∨ (∃ t ∈ d.templates, l ∈ t.locations)

/-- The records of a text are those read from its nodes, or none. -/
theorem parse_cases (sealedTags : List String) (file : Path) (text : String) :
  (parse sealedTags file text).1 = empty file ∨
  ∃ r : Reading,
    r = (nodes sealedTags text).foldl (Reading.step file (Text.lines text)) Reading.empty ∧
    (parse sealedTags file text).1 = ⟨file, r.jobs.reverse, r.templates.reverse⟩
  := by
  unfold parse nodes
  generalize Yaml.EventStream.ofText text = stream
  cases hfault : stream.fault with
  | none =>
      right
      refine ⟨_, rfl, ?_⟩
      simp only [hfault]
  | some fault =>
      left
      simp only [hfault]

/-- The records of a text stand in its file, and all their locations have been left by its nodes. -/
theorem parse_all (sealedTags : List String) (file : Path) (text : String) :
  (∀ job ∈ (parse sealedTags file text).1.jobs, job.file = file ∧
    ∀ l ∈ job.locations, ∃ c ∈ nodes sealedTags text, c.FoundAs file text l) ∧
  (∀ t ∈ (parse sealedTags file text).1.templates, t.file = file ∧
    ∀ l ∈ t.locations, ∃ c ∈ nodes sealedTags text, c.FoundAs file text l)
  := by
  obtain hnone | ⟨r, hr, hsome⟩ := parse_cases sealedTags file text
  · rw [hnone]
    exact ⟨fun _ h => (nomatch h), fun _ h => (nomatch h)⟩
  · have hall : r.All file fun l => ∃ c ∈ nodes sealedTags text, c.FoundAs file text l := by
      rw [hr]
      apply Reading.All.foldl_step _ (Reading.All.empty _ _)
      exact fun c hc l hfound => ⟨c, hc, hfound⟩
    rw [hsome]
    constructor
    · intro job hjob
      apply hall.jobs job (List.mem_reverse.mp hjob)
    · intro t ht
      apply hall.templates t (List.mem_reverse.mp ht)

theorem exists_foundAs_of_hasLocation {sealedTags : List String} {file : Path} {text : String}
    {l : Location} (h : (parse sealedTags file text).1.HasLocation l) :
  ∃ c ∈ nodes sealedTags text, c.FoundAs file text l
  := by
  obtain ⟨hjobs, htemplates⟩ := parse_all sealedTags file text
  obtain ⟨job, hjob, hl⟩ | ⟨t, ht, hl⟩ := h
  · apply (hjobs job hjob).2 l hl
  · apply (htemplates t ht).2 l hl

/-- The locations of the records of a text are exact. -/
theorem exactIn_of_hasLocation {sealedTags : List String} {file : Path} {text : String}
    {l : Location} (h : (parse sealedTags file text).1.HasLocation l) :
  l.ExactIn file text
  := by
  obtain ⟨c, hc, hfound⟩ := exists_foundAs_of_hasLocation h
  apply hfound.exactIn (Yaml.Assembly.indent_of_mem_closings hc)

end Document

end JobIndex
