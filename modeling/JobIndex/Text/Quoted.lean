import JobIndex.Text.Shape

/-!
# Quoted text

A text between double quotes, in which quotes, backslashes and the characters that have no shape are
written as escapes.
-/

namespace JobIndex.Text

/-- A number in hexadecimal digits. -/
def hexDigits (n : Nat) : String :=
  String.ofList (Nat.toDigits 16 n)

/-- A character as it stands in quoted text. -/
def quoteChar (c : Char) : String :=
  match c with
  | '\x00' => "\\0"
  | '\t' => "\\t"
  | '\r' => "\\r"
  | '\n' => "\\n"
  | '\\' => "\\\\"
  | '\x22' => "\\\x22"
  | c =>
    if c < ' ' || c == '\x7f' || ('\x7f' < c && isShapeless c) then
      "\\u\x7b" ++ hexDigits c.toNat ++ "\x7d"
    else
      c.toString

/-- A text in quotes. -/
def quoted (text : String) : String :=
  "\x22" ++ String.join (text.toList.map quoteChar) ++ "\x22"

end JobIndex.Text
