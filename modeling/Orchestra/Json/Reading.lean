import Orchestra.Decimal.Scaling
import Orchestra.Json.Document
import Orchestra.Json.Value

/-!
# The value of a document

A document has a value if its strings name characters, its numbers are in range and its containers
are nested less than `nestingLimit` deep. A plain integer literal is an integer where a 64-bit type
holds it; `-0` and everything else is a double. Of a repeated key the last value counts.

How a literal is read as a double is left to a reader. The one that is used if no other is given is
quick and does not always find the nearest double.
-/

namespace Orchestra.Json

/-- The depth at which a further container is refused. -/
def nestingLimit : Nat := 127

/-- The integer that a literal denotes, if a 64-bit type holds it. -/
def Literal.int? (l : Literal) : Option Int :=
  if l.plain && !l.negative && fitsUnsigned l.digits then some l.digits
  else if l.plain && l.negative && l.digits != 0 && fitsSigned (-(l.digits : Int)) then
    some (-(l.digits : Int))
  else none

/-- How literals are read as doubles, if they are in range. -/
class FloatReader where
  read : Literal → Option Double

/-- The reader that scales the leading digits by a power of ten. -/
instance : FloatReader where
  read l := Decimal.scaled? l.negative l.digits l.scale

section FloatReader

variable [FloatReader]

/-- The number that a literal denotes, if it is in range. -/
def Literal.number? (l : Literal) : Option Number :=
  match l.int? with
  | some n => some (.int n)
  | none => (FloatReader.read l).map .real

mutual

/-- The value of a document inside `depth` containers. -/
def ofDocument? (depth : Nat) : Document → Option Json
  | .null => some .null
  | .bool b => some (.bool b)
  | .number l => l.number?.map .num
  | .string c => c.map .str
  | .array items =>
    if depth < nestingLimit then (ofItems? (depth + 1) items).map .arr else none
  | .object members =>
    if depth < nestingLimit then
      (ofMembers? (depth + 1) members).map fun pairs => .obj (Keyed.ofPairs pairs)
    else none

/-- The values of the items of an array. -/
def ofItems? (depth : Nat) : List Document → Option (List Json)
  | [] => some []
  | d :: rest =>
    match ofDocument? depth d, ofItems? depth rest with
    | some v, some vs => some (v :: vs)
    | _, _ => none

/-- The keys and values of the members of an object, in source order. -/
def ofMembers? (depth : Nat) : List (Content × Document) → Option (List (String × Json))
  | [] => some []
  | (key, d) :: rest =>
    match key, ofDocument? depth d, ofMembers? depth rest with
    | some k, some v, some vs => some ((k, v) :: vs)
    | _, _, _ => none

end

/-- The value that a text denotes. -/
def ofText? (text : String) : Option Json :=
  (Document.ofText? text).bind (ofDocument? 0)

end FloatReader

end Orchestra.Json
