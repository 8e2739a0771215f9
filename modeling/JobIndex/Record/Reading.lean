import JobIndex.Diagnostic
import JobIndex.Record.Document
import JobIndex.Yaml.Closing
import JobIndex.Yaml.Event.Grammar

/-!
# Reading the records of a file

A record is an item of a document's sequence: a mapping with a key `job` or `project-template`. The
closings of a text are read in order. Scalars that stand on their line as they are written leave a
location; the key of a record clears the locations collected so far, and the end of its mapping
turns those that follow into the locations of the record.
-/

namespace JobIndex

/-! ### Values as attributes -/

mutual

/-- The attribute that a value stands for; null stands for none. -/
def Attribute.ofValue? : Yaml.Value → Option Attribute
  | .null => none
  | .scalar text => some (.scalar text)
  | .sequence items => some (.group (attributesOfItems 0 items))
  | .mapping entries => some (.group (attributesOfEntries entries))

/-- The attributes of items, of which the first has number `i`. -/
def attributesOfItems (i : Nat) : List Yaml.Value → List (String × Attribute)
  | [] => []
  | v :: items =>
    match Attribute.ofValue? v with
    | some a => (toString i, a) :: attributesOfItems (i + 1) items
    | none => attributesOfItems (i + 1) items

/-- The attributes of the entries of a mapping. -/
def attributesOfEntries : List (String × Yaml.Value) → List (String × Attribute)
  | [] => []
  | (key, v) :: entries =>
    match Attribute.ofValue? v with
    | some a => (key, a) :: attributesOfEntries entries
    | none => attributesOfEntries entries

end

/-- The attributes of the body of a record, none if it is no collection. -/
def Attributes.ofValue (v : Yaml.Value) : Attributes :=
  match Attribute.ofValue? v with
  | some (.group entries) => entries
  | _ => []

/-! ### Locations of scalars -/

/-- The location of a scalar that stands on a line at the column where its node begins, or after
it, or anywhere. -/
def Location.ofScalar? (file : Path) (line : Text.Line) (number indentation column : Nat)
    (value : String) : Option Location :=
  (line.find? value.toList column).map fun startCol =>
    let startByte := line.start + Text.byteSize (line.content.take startCol)
    { value
      file
      line := number
      indentation
      startCol
      endCol := startCol + value.toList.length
      startByte
      endByte := startByte + Text.byteSize value.toList }

/-! ### Records -/

/-- The state of reading records; all lists are in reverse. -/
structure Reading where
  locations : List Location
  jobs : List Job
  templates : List Template
  diagnostics : List Diagnostic

namespace Reading

/-- Nothing has been read. -/
def empty : Reading where
  locations := []
  jobs := []
  templates := []
  diagnostics := []

/-- Notes a diagnostic. -/
def report (r : Reading) (d : Diagnostic) : Reading :=
  { r with diagnostics := d :: r.diagnostics }

/-- Reads a scalar: one that spans lines has no location, any other has one if it stands on its
line. -/
def locate (file : Path) (lines : Array Text.Line) (r : Reading) (c : Yaml.Closing)
    (value : String) : Reading :=
  if value.toList.contains '\n' then
    r.report (.unlocatedScalar file c.line value)
  else
    match lines[c.line]? with
    | none => r
    | some line =>
      match Location.ofScalar? file line c.line c.indent c.column value with
      | some l => { r with locations := l :: r.locations }
      | none => r

/-- Whether a key introduces a record. -/
def isRecordWord (text : String) : Bool :=
  text == "job" || text == "project-template"

/-- Whether a node is a key of an item of a document's sequence. -/
def isRecordKey (c : Yaml.Closing) : Bool :=
  c.depth == 2 && c.isKey && c.parent? == some .mapping

/-- Whether a node is an item of a document's sequence. -/
def isRecord (c : Yaml.Closing) : Bool :=
  c.depth == 1 && c.parent? == some .sequence

/-- The locations of a record that ends. -/
def takeLocations (r : Reading) : List Location × Reading :=
  (Location.collapse r.locations.reverse, { r with locations := [] })

/-- Ends an item of a document's sequence. -/
def closeRecord (file : Path) (r : Reading) (record : Yaml.Value) : Reading :=
  match record.get? "job" with
  | some body =>
    let (locations, r) := r.takeLocations
    let job : Job := ⟨file, Attributes.ofValue body, locations⟩
    let r := if job.name?.isNone then r.report (.missingJobName file) else r
    { r with jobs := job :: r.jobs }
  | none =>
    match record.get? "project-template" with
    | some body =>
      let (locations, r) := r.takeLocations
      { r with
        templates := Template.ofAttributes file (Attributes.ofValue body) locations :: r.templates }
    | none => r

/-- Reads a finished node. -/
def step (file : Path) (lines : Array Text.Line) (r : Reading) (c : Yaml.Closing) : Reading :=
  match c.kind with
  | .scalar =>
    match c.value.asText with
    | none => r
    | some text =>
      if isRecordKey c && isRecordWord text then { r with locations := [] }
      else if text == "" then r
      else r.locate file lines c text
  | .mapping => if isRecord c then r.closeRecord file c.value else r
  | .sequence => r

end Reading

/-- The records of a text and what there is to say about it. A text that is no stream of documents
has no records. -/
def Document.parse (sealedTags : List String) (file : Path) (text : String) :
    Document × List Diagnostic :=
  let stream := Yaml.EventStream.ofText text
  let closings := Yaml.closings text sealedTags stream.events
  let r := closings.foldl (Reading.step file (Text.lines text)) Reading.empty
  match stream.fault with
  | none => (⟨file, r.jobs.reverse, r.templates.reverse⟩, r.diagnostics.reverse)
  | some fault =>
    (Document.empty file, (r.report (.unparseableDocument file fault.message)).diagnostics.reverse)

/-- The tags that are sealed unless the configuration says otherwise. -/
def defaultSealedTags : List String :=
  ["!encrypted/pkcs1-oaep"]

end JobIndex
