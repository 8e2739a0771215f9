import JobIndex.Json.Reader
import JobIndex.Record.Reading
import JobIndex.Workspace.FileTree

/-!
# Configuration

Which files are indexed, and how. A configuration is an object in JSON whose fields may all be left
out; unknown fields are passed over. It may also be a list of the fields in order, of which the last
ones may be left out.
-/

namespace JobIndex

/-- Which files are indexed, and how. -/
structure IndexConfig where
  /-- What the path of a file has to match. -/
  filePatterns : List String
  /-- What the path of a file must not match. -/
  excludePatterns : List String
  /-- The tags of nodes that are not looked into. -/
  sealedTags : List String
  useCache : Bool
  /-- The directory of the cache, read from the root of the workspace. -/
  cacheDir : Path
  /-- The largest number of bytes of a file that is indexed. -/
  maxFileSize : Nat
  /-- How long to wait for further changes. -/
  debounceMillis : Nat
deriving Repr, BEq

namespace IndexConfig

/-- The directory of the cache and the configuration, unless told otherwise. -/
def defaultCacheDir : Path :=
  ⟨".zuul-index"⟩

/-- The configuration without any settings. -/
def default : IndexConfig where
  filePatterns :=
    ["**/zuul.d/*.yaml", "**/zuul.d/*.yml", "**/zuul.yaml", "**/.zuul.yaml", "**/.zuul.d/*.yaml"]
  excludePatterns := []
  sealedTags := defaultSealedTags
  useCache := true
  cacheDir := defaultCacheDir
  maxFileSize := 2 * 1024 * 1024
  debounceMillis := 200

/-- The directory of the cache for a workspace. -/
def cacheDirIn (config : IndexConfig) (root : Path) : Path :=
  root.join config.cacheDir

/-! ### Reading -/

/-- The settings that have been read. -/
structure Settings where
  filePatterns : Option (List String)
  excludePatterns : Option (List String)
  sealedTags : Option (List String)
  useCache : Option Bool
  cacheDir : Option Path
  maxFileSize : Option Nat
  debounceMillis : Option Nat

namespace Settings

/-- No settings. -/
def none : Settings where
  filePatterns := .none
  excludePatterns := .none
  sealedTags := .none
  useCache := .none
  cacheDir := .none
  maxFileSize := .none
  debounceMillis := .none

/-- The configuration with some settings. -/
def config (s : Settings) : IndexConfig where
  filePatterns := s.filePatterns.getD default.filePatterns
  excludePatterns := s.excludePatterns.getD default.excludePatterns
  sealedTags := s.sealedTags.getD default.sealedTags
  useCache := s.useCache.getD default.useCache
  cacheDir := s.cacheDir.getD default.cacheDir
  maxFileSize := s.maxFileSize.getD default.maxFileSize
  debounceMillis := s.debounceMillis.getD default.debounceMillis

end Settings

open Json (Reader)

/-- A list of texts. -/
def readTexts : Reader (List String) :=
  Json.list (Json.text "a string")

/-- A path. -/
def readPath : Reader Path := do
  return ⟨← Json.text "path string"⟩

/-- The value of a field that has not been read before. -/
def readOnce {α : Type} (key : String) (old : Option α) (reader : Reader α) :
    Reader (Option α) := do
  if old.isSome then
    Json.repeated key
  else
    Json.colon
    return some (← reader)

/-- Reads what follows a key. -/
def readSetting (s : Settings) (key : String) : Reader Settings := do
  match key with
  | "file-patterns" =>
    return { s with filePatterns := ← readOnce key s.filePatterns readTexts }
  | "exclude-patterns" =>
    return { s with excludePatterns := ← readOnce key s.excludePatterns readTexts }
  | "opaque-tags" =>
    return { s with sealedTags := ← readOnce key s.sealedTags readTexts }
  | "use-cache" =>
    return { s with useCache := ← readOnce key s.useCache Json.boolean }
  | "cache-dir" =>
    return { s with cacheDir := ← readOnce key s.cacheDir readPath }
  | "max-file-size" =>
    return { s with maxFileSize := ← readOnce key s.maxFileSize Json.word }
  | "debounce-ms" =>
    return { s with debounceMillis := ← readOnce key s.debounceMillis Json.word }
  | _ =>
    Json.colon
    Json.skip
    return s

/-- The settings of an object after its brace, at most `bound` of them. -/
def readSettings : Nat → Bool → Settings → Reader Settings
  | 0, _, s => return s
  | bound + 1, first, s => do
    match ← Json.key? first with
    | none => return s
    | some key =>
      let s ← readSetting s key
      readSettings bound false s

/-- The next item of a list of settings, if it is not left out. -/
def readItem {α : Type} (first : Bool) (reader : Reader α) : Reader (Option α) := do
  if ← Json.listHasNext first then return some (← reader) else return none

/-- The settings of a list after its bracket. -/
def readSettingList : Reader Settings := do
  let filePatterns ← readItem true readTexts
  let excludePatterns ← readItem filePatterns.isNone readTexts
  let sealedTags ← readItem filePatterns.isNone readTexts
  let useCache ← readItem filePatterns.isNone Json.boolean
  let cacheDir ← readItem filePatterns.isNone readPath
  let maxFileSize ← readItem filePatterns.isNone Json.word
  let debounceMillis ← readItem filePatterns.isNone Json.word
  return { filePatterns, excludePatterns, sealedTags, useCache, cacheDir, maxFileSize,
           debounceMillis }

/-- A configuration. -/
def reader : Reader IndexConfig := do
  let b ← Json.valueStart
  if b == Json.code '[' then
    Json.advance
    let s ← readSettingList
    Json.listEnd
    return s.config
  else if b == Json.code '\x7b' then
    Json.advance
    let s ← readSettings (← Json.remaining) true Settings.none
    Json.objectEnd
    return s.config
  else Json.mismatch "struct IndexConfig" b

/-- The configuration that bytes stand for. -/
def parse (bytes : List UInt8) : Except Json.Fault IndexConfig :=
  Json.parse reader bytes

/-! ### Files -/

/-- Why there is no configuration. -/
inductive Error where
  | unreadable (file : Path) (cause : IoError)
  | malformed (file : Path) (cause : Json.Fault)
deriving Repr

namespace Error

/-- What failed. -/
def message : Error → String
  | .unreadable file _ => "Failed to read config: " ++ file.spelling
  | .malformed file _ => "Failed to parse config: " ++ file.spelling

/-- What failed and why. -/
def fullMessage : Error → String
  | .unreadable file cause => (unreadable file cause).message ++ ": " ++ cause.message
  | .malformed file cause => (malformed file cause).message ++ ": " ++ cause.message

end Error

/-- The configuration in a file. -/
def load (t : FileTree) (file : Path) : Except Error IndexConfig :=
  match t.contentOf file with
  | .error e => .error (.unreadable file e)
  | .ok bytes =>
    match parse bytes with
    | .error e => .error (.malformed file e)
    | .ok config => .ok config

/-- The file of the configuration of a workspace. -/
def fileIn (root : Path) : Path :=
  (root.join defaultCacheDir).child "config.json"

/-- The configuration of a workspace, the default one if there is no file. -/
def discover (t : FileTree) (root : Path) : Except Error IndexConfig :=
  if t.has (fileIn root) then load t (fileIn root) else .ok default

end IndexConfig

end JobIndex
