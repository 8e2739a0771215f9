/-!
# Positions in the text and the faults found there

A `Mark` is a position; a `Fault` is the reason why a text is no stream of documents, with the
position that is blamed for it. `Fault.message` is the one place where reasons become words.
-/

namespace JobIndex.Yaml

/-- A position: `index` characters from the start of the text, on the `line`-th line counted
from one, `col` characters from the start of that line. -/
structure Mark where
  index : Nat
  line : Nat
  col : Nat
deriving Repr, DecidableEq, Inhabited

/-- Why a text is no stream of documents. -/
inductive Cause where
  | keyUnfinished
  | keyExpected
  | indentation
  | afterDocumentEnd
  | character (c : Char)
  | tabIndentation
  | tabAfterKey
  | blankExpected
  | commentNotSeparated
  | valueNotAllowed
  | keyNotAllowed
  | entryNotAllowed
  | entryInFlow
  | entryBlank
  | valueBlank
  | valuePlacement
  | anchorIndentation
  | flowIndentation
  | quotedIndentation
  | quotedTrailing
  | quotedTab
  | plainDash
  | plainTab
  | blockIndentation
  | blockTab
  | blockHeader
  | blockIndicatorZero
  | quotedDocument
  | quotedUnclosed
  | escapeUnknown
  | escapeDigits
  | escapeCode
  | anchorName
  | directiveName
  | directiveCharacter
  | directiveEnd
  | versionNumber
  | versionDigit
  | versionLong
  | versionRepeated
  | tagDirectiveBlank
  | tagDirectivePrefix
  | tagDirectiveHandle
  | tagBang
  | tagEnd
  | tagVerbatimEnd
  | tagUri
  | tagOctet
  | tagLeadingOctet
  | tagTrailingOctet
  | tagCodepoint
  | tagHandle
  | documentStart
  | directiveWithoutEnd
  | anchorUnknown
  | nodeContent
  | blockMappingKey
  | blockSequenceEntry
  | flowMappingEntry
  | flowSequenceEntry
  | nesting
  | endOfTokens
deriving Repr, DecidableEq

/-- The words for a cause. -/
def Cause.message : Cause → String
  | .keyUnfinished => "simple key expect ':'"
  | .keyExpected => "simple key expected"
  | .indentation => "invalid indentation"
  | .afterDocumentEnd => "invalid content after document end marker"
  | .character c => "unexpected character: `" ++ c.toString ++ "'"
  | .tabIndentation => "tabs disallowed within this context (block indentation)"
  | .tabAfterKey => "tabs disallowed in this context"
  | .blankExpected => "expected whitespace"
  | .commentNotSeparated => "comments must be separated from other tokens by whitespace"
  | .valueNotAllowed => "mapping values are not allowed in this context"
  | .keyNotAllowed => "mapping keys are not allowed in this context"
  | .entryNotAllowed => "block sequence entries are not allowed in this context"
  | .entryInFlow => "\"-\" is only valid inside a block"
  | .entryBlank => "'-' must be followed by a valid YAML whitespace"
  | .valueBlank => "':' must be followed by a valid YAML whitespace"
  | .valuePlacement => "illegal placement of ':' indicator"
  | .anchorIndentation => "invalid indentation for anchor"
  | .flowIndentation => "invalid indentation in flow construct"
  | .quotedIndentation => "invalid indentation in quoted scalar"
  | .quotedTrailing => "invalid trailing content after double-quoted scalar"
  | .quotedTab => "tab cannot be used as indentation"
  | .plainDash => "plain scalar cannot start with '-' followed by ,[]\x7b\x7d"
  | .plainTab => "while scanning a plain scalar, found a tab"
  | .blockIndentation => "wrongly indented line in block scalar"
  | .blockTab => "a block scalar content cannot start with a tab"
  | .blockHeader => "while scanning a block scalar, did not find expected comment or line break"
  | .blockIndicatorZero =>
    "while scanning a block scalar, found an indentation indicator equal to 0"
  | .quotedDocument => "while scanning a quoted scalar, found unexpected document indicator"
  | .quotedUnclosed => "while scanning a quoted scalar, found unexpected end of stream"
  | .escapeUnknown => "while parsing a quoted scalar, found unknown escape character"
  | .escapeDigits => "while parsing a quoted scalar, did not find expected hexadecimal number"
  | .escapeCode => "while parsing a quoted scalar, found invalid Unicode character escape code"
  | .anchorName =>
    "while scanning an anchor or alias, did not find expected alphabetic or numeric character"
  | .directiveName => "while scanning a directive, could not find expected directive name"
  | .directiveCharacter =>
    "while scanning a directive, found unexpected non-alphabetical character"
  | .directiveEnd => "while scanning a directive, did not find expected comment or line break"
  | .versionNumber => "while scanning a YAML directive, did not find expected version number"
  | .versionDigit =>
    "while scanning a YAML directive, did not find expected digit or '.' character"
  | .versionLong => "while scanning a YAML directive, found extremely long version number"
  | .versionRepeated => "duplicate version directive"
  | .tagDirectiveBlank => "while scanning TAG, did not find expected whitespace or line break"
  | .tagDirectivePrefix => "invalid global tag character"
  | .tagDirectiveHandle => "while parsing a tag directive, did not find expected '!'"
  | .tagBang => "while scanning a tag, did not find expected '!'"
  | .tagEnd => "while scanning a tag, did not find expected whitespace or line break"
  | .tagVerbatimEnd => "while scanning a verbatim tag, did not find the expected '>'"
  | .tagUri => "while parsing a tag, did not find expected tag URI"
  | .tagOctet => "while parsing a tag, did not find URI escaped octet"
  | .tagLeadingOctet => "while parsing a tag, found an incorrect leading UTF-8 octet"
  | .tagTrailingOctet => "while parsing a tag, found an incorrect trailing UTF-8 octet"
  | .tagCodepoint => "while parsing a tag, found an invalid UTF-8 codepoint"
  | .tagHandle => "the handle wasn't declared"
  | .documentStart => "did not find expected <document start>"
  | .directiveWithoutEnd => "missing explicit document end marker before directive"
  | .anchorUnknown => "while parsing node, found unknown anchor"
  | .nodeContent => "while parsing a node, did not find expected node content"
  | .blockMappingKey => "while parsing a block mapping, did not find expected key"
  | .blockSequenceEntry =>
    "while parsing a block collection, did not find expected '-' indicator"
  | .flowMappingEntry => "while parsing a flow mapping, did not find expected ',' or '\x7d'"
  | .flowSequenceEntry => "while parsing a flow sequence, expected ',' or ']'"
  | .nesting => "recursion limit exceeded"
  | .endOfTokens => "unexpected eof"

/-- A cause and the position blamed for it. -/
structure Fault where
  mark : Mark
  cause : Cause
deriving Repr, DecidableEq

/-- The words for a fault, in which columns count from one. -/
def Fault.message (fault : Fault) : String :=
  fault.cause.message ++ " at byte " ++ toString fault.mark.index ++ " line "
    ++ toString fault.mark.line ++ " column " ++ toString (fault.mark.col + 1)

end JobIndex.Yaml
