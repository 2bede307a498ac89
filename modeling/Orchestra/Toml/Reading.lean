import Orchestra.Toml.Item
import Orchestra.Toml.Scalar

/-!
# Reading TOML

A document is a sequence of lines: comments, headers of tables and arrays of tables, and keys with
values. Values nest at most `nestingLimit` deep, and so do the tables that a key leads through.
-/

namespace Orchestra.Toml

/-- The depth at which a further array, table or key part is refused. -/
def nestingLimit : Nat := 80

/-- Whether a character may stand in a bare key. -/
def isBare (c : Char) : Bool :=
  isDigit c || ('a' ≤ c && c ≤ 'z') || ('A' ≤ c && c ≤ 'Z') || c = '-' || c = '_'

/-- One part of a key. -/
def keyPart? : Reader String
  | '"' :: rest => line? '"' (rest.length + 1) [] rest
  | '\'' :: rest => line? '\'' (rest.length + 1) [] rest
  | cs =>
    match cs.takeWhile isBare with
    | [] => none
    | part => some (String.ofList part, cs.dropWhile isBare)

/-- The parts of a dotted key with blanks around them; those read before are in reverse. -/
def keyParts? : Nat → List String → Reader (List String)
  | 0, _, _ => none
  | fuel + 1, before, cs =>
    match keyPart? (skipSpace cs) with
    | none => none
    | some (part, rest) =>
      match skipSpace rest with
      | '.' :: rest => keyParts? fuel (part :: before) rest
      | rest => some ((part :: before).reverse, rest)

/-- A dotted key: the path to its last part, and that part. -/
def key? (cs : List Char) : Option ((List String × String) × List Char) :=
  match keyParts? (cs.length + 1) [] cs with
  | some (parts, rest) =>
    match parts.getLast? with
    | some last =>
      if parts.length < nestingLimit then some ((parts.dropLast, last), rest) else none
    | none => none
  | none => none

/-- A comment, up to but without the end of its line. -/
def skipComment : List Char → List Char
  | '#' :: rest => rest.dropWhile isPlain
  | rest => rest

/-- Drops blanks, comments and line endings. -/
def skipGaps : Nat → List Char → List Char
  | 0, cs => cs
  | fuel + 1, cs =>
    let cs := skipComment (skipSpace cs)
    match newline? cs with
    | some rest => skipGaps fuel rest
    | none => cs

/-- The end of a line after a header or a value: blanks, a comment, and a line ending or the end of
the document. -/
def endOfLine? (cs : List Char) : Option (List Char) :=
  match skipComment (skipSpace cs) with
  | [] => some []
  | rest => newline? rest

/-- A value written with a leading sign or digit. -/
def numeric? (cs : List Char) : Option (Item × List Char) :=
  if looksDated cs then (dateTime? cs).map fun rest => (.scalar, rest)
  else
    match specialFloat? cs with
    | some rest => some (.scalar, rest)
    | none =>
      match float? cs with
      | some rest => some (.scalar, rest)
      | none =>
        -- a number with a fraction or an exponent that is no float is no integer either
        match integer? cs with
        | some (n, rest) => some (.integer n, rest)
        | none => none

mutual

/-- A value inside `depth` arrays and tables. -/
def value? : Nat → Nat → List Char → Option (Item × List Char)
  | 0, _, _ => none
  | fuel + 1, depth, cs =>
    match cs with
    | '"' :: _ => (string? cs).map fun (s, rest) => (.text s, rest)
    | '\'' :: _ => (string? cs).map fun (s, rest) => (.text s, rest)
    | '[' :: rest =>
      if depth + 1 < nestingLimit then elements? fuel (depth + 1) [] rest else none
    | '\x7b' :: rest =>
      if depth + 1 < nestingLimit then
        match skipSpace rest with
        | '\x7d' :: rest => some (.table ⟨false, false, true⟩ [], rest)
        | rest => pairs? fuel (depth + 1) ⟨⟨false, false, true⟩, []⟩ rest
      else none
    | 't' :: 'r' :: 'u' :: 'e' :: rest => some (.scalar, rest)
    | 'f' :: 'a' :: 'l' :: 's' :: 'e' :: rest => some (.scalar, rest)
    | 'i' :: 'n' :: 'f' :: rest => some (.scalar, rest)
    | 'n' :: 'a' :: 'n' :: rest => some (.scalar, rest)
    | c :: _ => if c = '+' || c = '-' || isDigit c then numeric? cs else none
    | [] => none

/-- The elements of an array up to its closing bracket; those read before are in reverse. -/
def elements? : Nat → Nat → List Item → List Char → Option (Item × List Char)
  | 0, _, _, _ => none
  | fuel + 1, depth, before, cs =>
    match skipGaps (cs.length + 1) cs with
    | ']' :: rest => some (.array before.reverse, rest)
    | cs =>
      match value? fuel depth cs with
      | none => none
      | some (item, rest) =>
        match skipGaps (rest.length + 1) rest with
        | ']' :: rest => some (.array (item :: before).reverse, rest)
        | ',' :: rest => elements? fuel depth (item :: before) rest
        | _ => none

/-- The pairs of a braced table up to its closing brace, added to those read before. -/
def pairs? : Nat → Nat → Table → List Char → Option (Item × List Char)
  | 0, _, _, _ => none
  | fuel + 1, depth, table, cs =>
    match key? cs with
    | none => none
    | some ((path, key), rest) =>
      match rest with
      | '=' :: rest =>
        match value? fuel depth (skipSpace rest) with
        | none => none
        | some (item, rest) =>
          match table.assign true path key item with
          | none => none
          | some table =>
            match skipSpace rest with
            | '\x7d' :: rest => some (.table table.origin table.entries, rest)
            | ',' :: rest => pairs? fuel depth table rest
            | _ => none
      | _ => none

end

/-- Where the keys of the current section go. -/
inductive Section where
  | root
  | table (path : List String) (key : String)
  | element (path : List String) (key : String)

/-- A document being read: what is finished, the current section and its table. -/
structure Progress where
  document : Table
  place : Section
  current : Table

namespace Progress

/-- A table that is defined and empty. -/
def freshTable : Table := ⟨⟨false, false, false⟩, []⟩

/-- Nothing read yet. -/
def start : Progress := ⟨freshTable, .root, freshTable⟩

/-- The document with the current section put into its place. -/
def finish (p : Progress) : Option Table :=
  match p.place with
  | .root => some p.current
  | .table path key => p.document.closeTable path key p.current
  | .element path key => p.document.closeElement path key p.current

/-- Begins the section of a table header. -/
def beginTable (p : Progress) (path : List String) (key : String) : Option Progress := do
  let document ← p.finish
  let (document, table) ← document.openTable path key
  some ⟨document, .table path key, table⟩

/-- Begins the section of a header of an array of tables. -/
def beginElement (p : Progress) (path : List String) (key : String) : Option Progress := do
  let document ← p.finish
  let document ← document.openElement path key
  some ⟨document, .element path key, freshTable⟩

/-- Adds a key with its value to the current section. -/
def assign (p : Progress) (path : List String) (key : String) (item : Item) : Option Progress :=
  (p.current.assign false path key item).map fun current => { p with current }

end Progress

/-- Reads the lines of a document one after the other. -/
def lines : Nat → Progress → List Char → Option Table
  | 0, _, _ => none
  | fuel + 1, p, cs =>
    match skipSpace cs with
    | [] => p.finish
    | '#' :: rest =>
      match endOfLine? ('#' :: rest) with
      | some rest => lines fuel p rest
      | none => none
    | '[' :: '[' :: rest =>
      match key? rest with
      | some ((path, key), ']' :: ']' :: rest) =>
        match endOfLine? rest, p.beginElement path key with
        | some rest, some p => lines fuel p rest
        | _, _ => none
      | _ => none
    | '[' :: rest =>
      match key? rest with
      | some ((path, key), ']' :: rest) =>
        match endOfLine? rest, p.beginTable path key with
        | some rest, some p => lines fuel p rest
        | _, _ => none
      | _ => none
    | cs =>
      match newline? cs with
      | some rest => lines fuel p rest
      | none =>
        match key? cs with
        | some ((path, key), '=' :: rest) =>
          match value? (2 * rest.length + 2) 0 (skipSpace rest) with
          | some (item, rest) =>
            match endOfLine? rest, p.assign path key item with
            | some rest, some p => lines fuel p rest
            | _, _ => none
          | none => none
        | _ => none

/-- The table that a document denotes, if it is well formed. A byte order mark is skipped. -/
def ofText? (text : String) : Option Table :=
  let cs := text.toList
  let cs := if cs.head? = some '\ufeff' then cs.drop 1 else cs
  lines (cs.length + 1) .start cs

end Orchestra.Toml
