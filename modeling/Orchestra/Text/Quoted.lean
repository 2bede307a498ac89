import Orchestra.Text.Hidden

/-!
# Quoted texts

A text is shown between double quotes, with the quote and the backslash escaped, the usual letters
for the common controls, and a braced hexadecimal code for every other hidden character.
-/

namespace Orchestra.Text

/-- The hexadecimal digits of a number, in lower case. -/
def hex (n : Nat) : String :=
  String.ofList (Nat.toDigits 16 n)

/-- The hexadecimal code between braces that stands for a hidden character. -/
def codeEscape (c : Char) : String :=
  "\\u\x7b" ++ hex c.toNat ++ "\x7d"

/-- One character inside quotes. -/
def quotedChar (c : Char) : String :=
  if c = '"' then "\\\""
  else if c = '\\' then "\\\\"
  else if c = '\t' then "\\t"
  else if c = '\n' then "\\n"
  else if c = '\r' then "\\r"
  else if c.toNat = 0 then "\\0"
  else if isHidden c then codeEscape c
  else c.toString

/-- The text between quotes, with its escapes. -/
def quoted (s : String) : String :=
  "\"" ++ String.join (s.toList.map quotedChar) ++ "\""

end Orchestra.Text
