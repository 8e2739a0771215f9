/-!
# Character classes of the document text

The classes that the token rules speak of. The character with code zero marks the end of the
text, wherever it stands, and only the line feed and the carriage return break a line; all
classes are sets of ASCII characters or their complements.
-/

namespace JobIndex.Yaml

/-- The character that ends the text. -/
def isEnd (c : Char) : Bool :=
  c == '\x00'

/-- The characters that break a line. -/
def isBreak (c : Char) : Bool :=
  c == '\n' || c == '\r'

/-- A line break or the end of the text. -/
def isBreakOrEnd (c : Char) : Bool :=
  isBreak c || isEnd c

/-- A space or a tab. -/
def isBlank (c : Char) : Bool :=
  c == ' ' || c == '\t'

/-- A blank, a line break or the end of the text. -/
def isSpaceOrEnd (c : Char) : Bool :=
  isBlank c || isBreakOrEnd c

/-- The decimal digits. -/
def isDigit (c : Char) : Bool :=
  '0' ≤ c && c ≤ '9'

/-- Letters, digits, the underscore and the hyphen. -/
def isWord (c : Char) : Bool :=
  isDigit c || ('a' ≤ c && c ≤ 'z') || ('A' ≤ c && c ≤ 'Z') || c == '_' || c == '-'

/-- The hexadecimal digits. -/
def isHex (c : Char) : Bool :=
  isDigit c || ('a' ≤ c && c ≤ 'f') || ('A' ≤ c && c ≤ 'F')

/-- The value of a hexadecimal digit. -/
def hexValue (c : Char) : Nat :=
  if isDigit c then c.toNat - '0'.toNat
  else if 'a' ≤ c && c ≤ 'f' then c.toNat - 'a'.toNat + 10
  else c.toNat - 'A'.toNat + 10

/-- The indicators of flow collections. -/
def isFlow (c : Char) : Bool :=
  c == ',' || c == '[' || c == ']' || c == '\x7b' || c == '\x7d'

/-- The characters of an anchor name: no space, no flow indicator, no byte order mark. -/
def isAnchorChar (c : Char) : Bool :=
  !isSpaceOrEnd c && !isFlow c && c != '\uFEFF'

/-- The characters of a tag written in full. -/
def isUriChar (c : Char) : Bool :=
  isWord c || "#;/?:@&=+$,.!~*\x27()[]%".toList.contains c

/-- The characters of a tag written in short, which flow indicators and `!` end. -/
def isTagChar (c : Char) : Bool :=
  isUriChar c && !isFlow c && c != '!'

end JobIndex.Yaml
