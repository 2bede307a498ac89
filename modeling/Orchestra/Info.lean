import Orchestra.Json.Value

/-!
# Metadata

Metadata attached to states and samples: texts to JSON values in key order. It never affects a
result, and merging is additive, so that concurrent children can be reconciled in declared order:
numbers are summed, arrays concatenated, objects merged key by key, and any other collision keeps
the value already present.
-/

namespace Orchestra

/-- Ordered key and value metadata. -/
structure Info where
  entries : Keyed Json
deriving Repr, Inhabited

mutual

/-- What becomes of a value when another is merged into it. -/
def Json.merge (left : Json) : Json → Json
  | .null => left
  | .bool _ => left
  | .str _ => left
  | .num b =>
    match left with
    | .num a => .num ((a.add? b).getD a)
    | _ => left
  | .arr bs =>
    match left with
    | .arr as => .arr (as ++ bs)
    | _ => left
  | .obj bs =>
    match left with
    | .obj as => .obj (Json.mergeEntries as bs)
    | _ => left

/-- Merges entries one after the other into those already present. -/
def Json.mergeEntries (left : List (String × Json)) : List (String × Json) → List (String × Json)
  | [] => left
  | (key, value) :: rest =>
    Json.mergeEntries
      (Keyed.alter key (fun
        | some present => Json.merge present value
        | none => value) left)
      rest

end

namespace Info

/-- No metadata. -/
def empty : Info := ⟨[]⟩

/-- The value under a key. -/
def get? (info : Info) (key : String) : Option Json :=
  Keyed.find? key info.entries

/-- Stores a value under a key. -/
def insert (info : Info) (key : String) (value : Json) : Info :=
  ⟨Keyed.insert key value info.entries⟩

/-- Removes a key. -/
def erase (info : Info) (key : String) : Info :=
  ⟨Keyed.erase key info.entries⟩

/-- The array that grows out of what was stored: nothing becomes an empty array, and a value that is
no array is wrapped. -/
def asItems : Option Json → List Json
  | none => []
  | some (.arr items) => items
  | some other => [other]

/-- Appends a value to the array under a key. -/
def push (info : Info) (key : String) (value : Json) : Info :=
  ⟨Keyed.alter key (fun present => .arr (asItems present ++ [value])) info.entries⟩

/-- The number of entries. -/
def size (info : Info) : Nat :=
  info.entries.length

/-- Whether there are no entries. -/
def isEmpty (info : Info) : Bool :=
  info.entries.isEmpty

/-- The keys in order. -/
def keys (info : Info) : List String :=
  Keyed.keys info.entries

/-- Metadata from pairs, later pairs replacing earlier ones. -/
def ofPairs (pairs : List (String × Json)) : Info :=
  ⟨Keyed.ofPairs pairs⟩

/-- Merges the second metadata into the first. -/
def merge (left right : Info) : Info :=
  ⟨Json.mergeEntries left.entries right.entries⟩

/-- Equality of metadata, comparing doubles numerically. -/
def same (a b : Info) : Bool :=
  Json.sameEntries a.entries b.entries

/-- The metadata as a JSON object. -/
def toJson (info : Info) : Json :=
  .obj info.entries

end Info

end Orchestra
