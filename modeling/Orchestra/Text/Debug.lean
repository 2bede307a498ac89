import Orchestra.Decimal.Format

/-!
# Debug texts

The shapes in which values show themselves for debugging: records with their fields, optional
values, lists and doubles. A record that hides some of its fields says so with two dots.
-/

namespace Orchestra.Text

/-- Doubles are positional from `0.0001` up to sixteen digits before the point. -/
def debugLayout : Decimal.Layout := ⟨-3, 16, "NaN", "inf"⟩

/-- A double. -/
def debugDouble (x : Double) : String :=
  debugLayout.text x

/-- A truth value. -/
def debugBool (b : Bool) : String :=
  if b then "true" else "false"

/-- An optional value, given the text of the value. -/
def debugOption : Option String → String
  | none => "None"
  | some text => "Some(" ++ text ++ ")"

/-- A list, given the texts of its items. -/
def debugList (items : List String) : String :=
  "[" ++ ", ".intercalate items ++ "]"

/-- A value that wraps others, given their texts. -/
def debugTuple (name : String) (items : List String) : String :=
  name ++ "(" ++ ", ".intercalate items ++ ")"

/-- Fields with the texts of their values. -/
def debugFields (fields : List (String × String)) : List String :=
  fields.map fun (key, value) => key ++ ": " ++ value

/-- A record that shows all its fields. -/
def debugRecord (name : String) (fields : List (String × String)) : String :=
  name ++ " \x7b " ++ ", ".intercalate (debugFields fields) ++ " \x7d"

/-- A record that hides some of its fields. -/
def debugOpenRecord (name : String) (fields : List (String × String)) : String :=
  name ++ " \x7b " ++ ", ".intercalate (debugFields fields ++ [".."]) ++ " \x7d"

end Orchestra.Text
