import JobIndex.Yaml.Fault

/-!
# Tokens

The words of the document text: indicators, scalars, and the marks that open and close block
collections where indentation changes.
-/

namespace JobIndex.Yaml

/-- How a scalar is written. -/
inductive Style where
  | plain
  | singleQuoted
  | doubleQuoted
  | literal
  | folded
deriving Repr, DecidableEq

/-- What a token is. -/
inductive TokenKind where
  | streamStart
  | streamEnd
  | versionDirective
  | tagDirective (handle stem : String)
  | documentStart
  | documentEnd
  | blockSequenceStart
  | blockMappingStart
  | blockEnd
  | flowSequenceStart
  | flowSequenceEnd
  | flowMappingStart
  | flowMappingEnd
  | blockEntry
  | flowEntry
  | key
  | value
  | reference (name : String)
  | anchor (name : String)
  | tag (handle suffix : String)
  | scalar (style : Style) (text : String)
deriving Repr, DecidableEq

/-- A token and where it stands. -/
structure Token where
  mark : Mark
  kind : TokenKind
deriving Repr, DecidableEq

/-- The tokens of a text up to its end or up to the fault that stopped the reading. -/
structure TokenStream where
  tokens : List Token
  fault : Option Fault
deriving Repr, DecidableEq

end JobIndex.Yaml
