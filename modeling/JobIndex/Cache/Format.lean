import JobIndex.Record.Document
import JobIndex.Text.Utf8

/-!
# The format of the cache

The bytes in which the records of files are stored. Numbers have a fixed width and their lowest byte
first; a text is its number of bytes and then those; a list is its length and then its items; a
record is its fields one after another. Each kind of value has a writer, which gives bytes, and a
reader, which takes them from the front.
-/

namespace JobIndex.Cache

/-- The records of a file as they are stored. -/
structure Entry where
  /-- The modification time of the file, in milliseconds since the epoch. -/
  modified : Int64
  document : Document
deriving Repr

/-- What a cache file holds. -/
structure Contents where
  /-- The version of the format. -/
  schema : Nat
  /-- The version of the program that wrote the file. -/
  tool : String
  entries : List (Path × Entry)
deriving Repr

/-! ### Writers -/

/-- A number in so many bytes. -/
def writeNat : Nat → Nat → List UInt8
  | 0, _ => []
  | width + 1, n => Text.byte (n % 256) :: writeNat width (n / 256)

/-- A number that fills a word. -/
def writeWord (n : Nat) : List UInt8 :=
  writeNat 8 n

/-- A text. -/
def writeText (text : String) : List UInt8 :=
  let bytes := Text.encode text
  writeWord bytes.length ++ bytes

/-- A list, of which each item is written by `item`. -/
def writeList {α : Type} (item : α → List UInt8) (items : List α) : List UInt8 :=
  writeWord items.length ++ items.flatMap item

/-- A path, by its spelling. -/
def writePath (path : Path) : List UInt8 :=
  writeText path.spelling

/-- A modification time. -/
def writeTime (time : Int64) : List UInt8 :=
  writeWord time.toUInt64.toNat

mutual

/-- An attribute: which kind it is, and the value or the entries. -/
def writeAttribute : Attribute → List UInt8
  | .scalar value => writeNat 4 0 ++ writeText value
  | .group entries => writeNat 4 1 ++ writeWord entries.length ++ writeAttributeEntries entries

/-- The entries of a group one after another. -/
def writeAttributeEntries : List (String × Attribute) → List UInt8
  | [] => []
  | (key, a) :: entries => writeText key ++ writeAttribute a ++ writeAttributeEntries entries

end

/-- The attributes of a record. -/
def writeAttributes (entries : Attributes) : List UInt8 :=
  writeWord entries.length ++ writeAttributeEntries entries

/-- A location. -/
def writeLocation (l : Location) : List UInt8 :=
  writeText l.value ++ writePath l.file ++ writeWord l.line ++ writeWord l.indentation
    ++ writeWord l.startCol ++ writeWord l.endCol ++ writeWord l.startByte ++ writeWord l.endByte

/-- A job. -/
def writeJob (job : Job) : List UInt8 :=
  writePath job.file ++ writeAttributes job.attributes ++ writeList writeLocation job.locations

/-- A template. -/
def writeTemplate (t : Template) : List UInt8 :=
  writePath t.file ++ writeAttributes t.attributes ++ writeList writeText t.references
    ++ writeList writeLocation t.locations

/-- The records of a file. -/
def writeDocument (d : Document) : List UInt8 :=
  writePath d.file ++ writeList writeJob d.jobs ++ writeList writeTemplate d.templates

/-- An entry with its path. -/
def writeEntry (e : Path × Entry) : List UInt8 :=
  writePath e.1 ++ writeTime e.2.modified ++ writeDocument e.2.document

/-- A cache file. -/
def writeContents (c : Contents) : List UInt8 :=
  writeNat 4 c.schema ++ writeText c.tool ++ writeList writeEntry c.entries

/-! ### Readers -/

/-- What is wrong with bytes that are no cache file. -/
inductive FormatError where
  /-- The bytes end in a number. -/
  | shortNumber
  /-- The bytes end in a text. -/
  | shortText
  /-- A text is not in UTF-8. -/
  | badText (fault : Text.Utf8Fault)
  /-- An attribute of no known kind. -/
  | badKind (kind : Nat)
deriving Repr

/-- The words for what is wrong with bytes that are no cache file. -/
def FormatError.message : FormatError → String
  | .shortNumber => "io error: unexpected end of file"
  | .shortText => "io error: "
  | .badText fault => "string is not valid utf8: " ++ fault.message
  | .badKind kind =>
    "invalid value: integer `" ++ toString kind ++ "`, expected variant index 0 <= i < 2"

/-- A reader takes a value from the front of bytes. -/
abbrev Reader := StateT (List UInt8) (Except FormatError)

/-- A number in so many bytes at the front of bytes, and what follows. -/
def splitNat : Nat → List UInt8 → Except FormatError (Nat × List UInt8)
  | 0, bytes => .ok (0, bytes)
  | _ + 1, [] => .error .shortNumber
  | width + 1, b :: bytes =>
    match splitNat width bytes with
    | .error e => .error e
    | .ok (n, rest) => .ok (b.toNat + 256 * n, rest)

/-- A number in so many bytes. -/
def readNat (width : Nat) : Reader Nat :=
  splitNat width

/-- A number that fills a word. -/
def readWord : Reader Nat :=
  readNat 8

/-- The first bytes of bytes, and what follows. -/
def splitBytes (length : Nat) (bytes : List UInt8) : Except FormatError (List UInt8 × List UInt8) :=
  let taken := bytes.take length
  if taken.length == length then .ok (taken, bytes.drop length) else .error .shortText

/-- So many bytes. -/
def readBytes (length : Nat) : Reader (List UInt8) :=
  splitBytes length

/-- A text. -/
def readText : Reader String := do
  let length ← readWord
  let bytes ← readBytes length
  match Text.decode bytes with
  | .ok text => return text
  | .error fault => throw (.badText fault)

/-- So many items, each read by `item`. -/
def readTimes {α : Type} (item : Reader α) : Nat → Reader (List α)
  | 0 => return []
  | n + 1 => do
    let a ← item
    let rest ← readTimes item n
    return a :: rest

/-- A list, of which each item is read by `item`. -/
def readList {α : Type} (item : Reader α) : Reader (List α) := do
  let length ← readWord
  readTimes item length

/-- A path, by its spelling. -/
def readPath : Reader Path := do
  let spelling ← readText
  return ⟨spelling⟩

/-- A modification time. -/
def readTime : Reader Int64 := do
  let word ← readWord
  return (UInt64.ofNat word).toInt64

/-- An attribute with groups nested at most `depth` deep. -/
def readAttribute : Nat → Reader Attribute
  | 0 => throw .shortNumber
  | depth + 1 => do
    match ← readNat 4 with
    | 0 =>
      let value ← readText
      return .scalar value
    | 1 =>
      let entries ← readList do
        let key ← readText
        let a ← readAttribute depth
        return (key, a)
      return .group entries
    | kind => throw (.badKind kind)

/-- The attributes of a record. -/
def readAttributes (depth : Nat) : Reader Attributes :=
  readList do
    let key ← readText
    let a ← readAttribute depth
    return (key, a)

/-- A location. -/
def readLocation : Reader Location := do
  let value ← readText
  let file ← readPath
  let line ← readWord
  let indentation ← readWord
  let startCol ← readWord
  let endCol ← readWord
  let startByte ← readWord
  let endByte ← readWord
  return { value, file, line, indentation, startCol, endCol, startByte, endByte }

/-- A job. -/
def readJob (depth : Nat) : Reader Job := do
  let file ← readPath
  let attributes ← readAttributes depth
  let locations ← readList readLocation
  return { file, attributes, locations }

/-- A template. -/
def readTemplate (depth : Nat) : Reader Template := do
  let file ← readPath
  let attributes ← readAttributes depth
  let references ← readList readText
  let locations ← readList readLocation
  return { file, attributes, references, locations }

/-- The records of a file. -/
def readDocument (depth : Nat) : Reader Document := do
  let file ← readPath
  let jobs ← readList (readJob depth)
  let templates ← readList (readTemplate depth)
  return { file, jobs, templates }

/-- An entry with its path. -/
def readEntry (depth : Nat) : Reader (Path × Entry) := do
  let path ← readPath
  let modified ← readTime
  let document ← readDocument depth
  return (path, { modified, document })

/-- What a cache file holds; attributes are nested at most `depth` deep. -/
def readContents (depth : Nat) : Reader Contents := do
  let schema ← readNat 4
  let tool ← readText
  let entries ← readList (readEntry depth)
  return { schema, tool, entries }

/-- What the bytes of a cache file hold. Bytes after the end are passed over. A group takes bytes of
its own, so that there are fewer levels of them than bytes. -/
def parseContents (bytes : List UInt8) : Except FormatError Contents :=
  ((readContents (bytes.length + 1)).run bytes).map Prod.fst

end JobIndex.Cache
