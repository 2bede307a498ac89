/-!
# TOML tables

What a TOML document says, as far as settings can tell: texts, integers, other scalars, arrays,
tables and arrays of tables. Tables grow by paths of keys, and a table remembers how it came about,
because a table may be defined once only and dotted keys may extend only what dotted keys made.
-/

namespace Orchestra.Toml

/-- How a table came about. -/
structure Origin where
  /-- Made on the way to another table, so that it may still be defined. -/
  implicit : Bool
  /-- Made by dotted keys. -/
  dotted : Bool
  /-- Written between braces. -/
  braced : Bool
deriving DecidableEq, Repr

/-- A value or a table. -/
inductive Item where
  | text (s : String)
  | integer (n : Int)
  | scalar
  | array (items : List Item)
  | table (origin : Origin) (entries : List (String × Item))
  | tables (elements : List (Origin × List (String × Item)))
deriving Inhabited

/-- A table under construction. -/
structure Table where
  origin : Origin
  entries : List (String × Item)

namespace Table

/-- The item under a key. -/
def find? (t : Table) (key : String) : Option Item :=
  t.entries.lookup key

/-- Stores an item under a key that may be taken. -/
def store (t : Table) (key : String) (item : Item) : Table :=
  if t.entries.any fun e => e.1 == key then
    { t with entries := t.entries.map fun e => if e.1 == key then (key, item) else e }
  else { t with entries := t.entries ++ [(key, item)] }

/-- The table without a key. -/
def remove (t : Table) (key : String) : Table :=
  { t with entries := t.entries.filter fun e => e.1 != key }

/-- Whether a path may lead through a table: braces stay closed to paths from outside, and dotted
keys may only enter tables that are not defined yet. -/
def admits (braced dotted : Bool) (origin : Origin) : Bool :=
  origin.braced == braced && (!dotted || origin.implicit)

/-- Changes the table at the end of a path, making the tables on the way that are missing. -/
def descend (braced dotted : Bool) (change : Table → Option Table) :
    List String → Table → Option Table
  | [], t => change t
  | key :: path, t =>
    match t.find? key with
    | none =>
      (descend braced dotted change path ⟨⟨true, dotted, braced⟩, []⟩).map fun child =>
        t.store key (.table child.origin child.entries)
    | some (.table origin entries) =>
      if admits braced dotted origin then
        (descend braced dotted change path ⟨origin, entries⟩).map fun child =>
          t.store key (.table child.origin child.entries)
      else none
    | some (.tables elements) =>
      match elements.getLast? with
      | none => none
      | some (origin, entries) =>
        (descend braced dotted change path ⟨origin, entries⟩).map fun child =>
          t.store key (.tables (elements.dropLast ++ [(child.origin, child.entries)]))
    | some _ => none

/-- Adds a key with its value at the end of a path of dotted keys. -/
def assign (t : Table) (braced : Bool) (path : List String) (key : String) (value : Item) :
    Option Table :=
  descend braced (!path.isEmpty)
    (fun last =>
      if last.origin.dotted == path.isEmpty || (last.find? key).isSome then none
      else some (last.store key value))
    path t

/-- Opens the table of a header: what a path implied is kept, and a table defined before is
refused. The answer is the document without that table, and the table. -/
def openTable (document : Table) (path : List String) (key : String) : Option (Table × Table) :=
  let fresh : Table := ⟨⟨false, false, false⟩, []⟩
  match descend false false some path document with
  | none => none
  | some document =>
    let found := (descendEntry path key document)
    match found with
    | none => some (document, fresh)
    | some (.table origin entries) =>
      if origin.implicit && !origin.dotted && !origin.braced then
        (descend false false (fun last => some (last.remove key)) path document).map fun rest =>
          (rest, ⟨fresh.origin, entries⟩)
      else none
    | some _ => none
where
  /-- The item at the end of a path. -/
  descendEntry : List String → String → Table → Option Item
    | [], key, t => t.find? key
    | step :: path, key, t =>
      match t.find? step with
      | some (.table origin entries) => descendEntry path key ⟨origin, entries⟩
      | some (.tables elements) =>
        match elements.getLast? with
        | some (origin, entries) => descendEntry path key ⟨origin, entries⟩
        | none => none
      | _ => none

/-- Puts a finished table of a header back into the document. -/
def closeTable (document : Table) (path : List String) (key : String) (finished : Table) :
    Option Table :=
  descend false false
    (fun last => some (last.store key (.table finished.origin finished.entries))) path document

/-- Opens a further element of an array of tables, which must not be anything else already. -/
def openElement (document : Table) (path : List String) (key : String) : Option Table :=
  descend false false
    (fun last =>
      match last.find? key with
      | none => some (last.store key (.tables []))
      | some (.tables _) => some last
      | some _ => none)
    path document

/-- Appends a finished element to an array of tables. -/
def closeElement (document : Table) (path : List String) (key : String) (finished : Table) :
    Option Table :=
  descend false false
    (fun last =>
      match last.find? key with
      | some (.tables elements) =>
        some (last.store key (.tables (elements ++ [(finished.origin, finished.entries)])))
      | _ => none)
    path document

end Table

end Orchestra.Toml
