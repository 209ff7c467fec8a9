import ImpLower.Text.Extender
import ImpLower.Text.Hidden

/-!
# Quoted text

Names in messages and character and string constants are written between delimiters. The delimiter
itself, the backslash and a few controls get a backslash form; whatever cannot be read on its own is
written as its code point in hexadecimal.
-/

namespace ImpLower.Text

/-- Hexadecimal digits of `n`, lower case, without leading zeros. -/
def hex (n : Nat) : String :=
  String.ofList (Nat.toDigits 16 n)

/-- One character between delimiters of the given kind. -/
def escape (delimiter c : Char) : String :=
  if c = '\x00' then "\\0"
  else if c = '\t' then "\\t"
  else if c = '\r' then "\\r"
  else if c = '\n' then "\\n"
  else if c = '\\' then "\\\\"
  else if c = delimiter then String.ofList ['\\', c]
  else if isExtender c || isHidden c then "\\u\x7b" ++ hex c.toNat ++ "\x7d"
  else String.singleton c

def quoted (s : String) : String :=
  "\"" ++ String.join (s.toList.map (escape '"')) ++ "\""

def quotedChar (c : Char) : String :=
  "\x27" ++ escape '\x27' c ++ "\x27"

end ImpLower.Text
