import Orchestra.Decimal.Format
import Orchestra.Json.Value
import Orchestra.Text.Quoted

/-!
# Written JSON

Values are written without spaces, objects in key order, doubles with the fewest digits that read
back, and in texts only what must be escaped is escaped. A second printer shows a value with the
name of its kind, for debugging.
-/

namespace Orchestra.Json

/-- Doubles are positional from `0.00001` up to sixteen digits before the point. -/
def numberLayout : Decimal.Layout := ⟨-4, 16, "null", "null"⟩

/-- The written form of a number. -/
def numberText : Number → String
  | .int n => Decimal.intText n
  | .real x => numberLayout.text x

/-- The written form of a double that may be no real number. -/
def doubleText (x : Double) : String :=
  if x.isFinite then numberLayout.text x else "null"

/-- Four hexadecimal digits. -/
def hex4 (n : Nat) : String :=
  let digits := Text.hex n
  Decimal.zeros (4 - digits.length) ++ digits

/-- One character inside a JSON string. -/
def escapedChar (c : Char) : String :=
  if c = '"' then "\\\""
  else if c = '\\' then "\\\\"
  else if c = '\n' then "\\n"
  else if c = '\r' then "\\r"
  else if c = '\t' then "\\t"
  else if c.toNat = 8 then "\\b"
  else if c.toNat = 12 then "\\f"
  else if c.toNat < 0x20 then "\\u" ++ hex4 c.toNat
  else c.toString

/-- The written form of a text. -/
def stringText (s : String) : String :=
  "\"" ++ String.join (s.toList.map escapedChar) ++ "\""

/-- The written form of an array with the given written items. -/
def arrayText (items : List String) : String :=
  "[" ++ ",".intercalate items ++ "]"

/-- The written form of an object with the given keys and written values. -/
def objectText (entries : List (String × String)) : String :=
  "\x7b" ++ ",".intercalate (entries.map fun (k, v) => stringText k ++ ":" ++ v) ++ "\x7d"

mutual

/-- The written form of a value. -/
def text : Json → String
  | null => "null"
  | bool true => "true"
  | bool false => "false"
  | num n => numberText n
  | str s => stringText s
  | arr items => arrayText (itemTexts items)
  | obj entries => objectText (entryTexts entries)

/-- The written forms of the items of an array. -/
def itemTexts : List Json → List String
  | [] => []
  | v :: rest => text v :: itemTexts rest

/-- The written forms of the values of an object, with their keys. -/
def entryTexts : List (String × Json) → List (String × String)
  | [] => []
  | (k, v) :: rest => (k, text v) :: entryTexts rest

end

mutual

/-- The value with the name of its kind. -/
def debugText : Json → String
  | null => "Null"
  | bool true => "Bool(true)"
  | bool false => "Bool(false)"
  | num n => "Number(" ++ numberText n ++ ")"
  | str s => "String(" ++ Text.quoted s ++ ")"
  | arr items => "Array [" ++ ", ".intercalate (itemDebugTexts items) ++ "]"
  | obj entries => "Object \x7b" ++ ", ".intercalate (entryDebugTexts entries) ++ "\x7d"

/-- The debug texts of the items of an array. -/
def itemDebugTexts : List Json → List String
  | [] => []
  | v :: rest => debugText v :: itemDebugTexts rest

/-- The debug texts of the entries of an object. -/
def entryDebugTexts : List (String × Json) → List String
  | [] => []
  | (k, v) :: rest => (Text.quoted k ++ ": " ++ debugText v) :: entryDebugTexts rest

end

end Orchestra.Json
