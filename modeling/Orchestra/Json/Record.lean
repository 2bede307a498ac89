import Orchestra.Json.Reading

/-!
# Records in JSON

A record is written as an object, in which unknown members are skipped unread and a known member may
occur once, or as an array of its fields in declared order. Fields are looked up first and then read
by readers for words, texts, doubles and lists.
-/

namespace Orchestra.Json

/-- Puts the members with known keys into their places. -/
def fillFields (names : List String) :
    List (Content × Document) → List (Option Document) → Option (List (Option Document))
  | [], fields => some fields
  | (key, d) :: rest, fields =>
    match key with
    | none => none
    | some k =>
      match names.findIdx? (· == k) with
      | none => fillFields names rest fields
      | some i =>
        match fields[i]? with
        | some none => fillFields names rest (fields.set i (some d))
        | _ => none

/-- The fields of a record inside `depth` containers, absent ones as `none`. -/
def fields? (depth : Nat) (names : List String) : Document → Option (List (Option Document))
  | .object members =>
    if depth < nestingLimit then
      fillFields names members (List.replicate names.length none)
    else none
  | .array items =>
    if depth < nestingLimit && items.length ≤ names.length then
      some (items.map some ++ List.replicate (names.length - items.length) none)
    else none
  | _ => none

/-- An unsigned 64-bit word. -/
def word? : Document → Option Nat
  | .number l =>
    match l.int? with
    | some n => if fitsUnsigned n then some n.toNat else none
    | none => none
  | _ => none

/-- A signed 64-bit word. -/
def signed? : Document → Option Int
  | .number l =>
    match l.int? with
    | some n => if fitsSigned n then some n else none
    | none => none
  | _ => none

/-- A double, also when it is written as an integer. -/
def real? [FloatReader] : Document → Option Double
  | .number l => l.number?.map Number.toDouble
  | _ => none

/-- A text. -/
def textOf? : Document → Option String
  | .string c => c
  | _ => none

/-- A list inside `depth` containers, read item by item. -/
def list? {α : Type} (depth : Nat) (item : Document → Option α) : Document → Option (List α)
  | .array items => if depth < nestingLimit then items.mapM item else none
  | _ => none

/-- A field that must be present. -/
def required {α : Type} (read : Document → Option α) (field : Option Document) : Option α :=
  field.bind read

/-- A field with a default. -/
def optional {α : Type} (read : Document → Option α) (absent : α) : Option Document → Option α
  | some d => read d
  | none => some absent

end Orchestra.Json
