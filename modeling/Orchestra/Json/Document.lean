/-!
# JSON texts as written

A document keeps what a JSON text says before any meaning is given to it: numbers as decimals,
members in source order with repetitions, and strings whose escapes may name no character. Reading a
document checks the grammar only, so parts of it can be skipped without being understood.
-/

namespace Orchestra.Json

/-- A number literal `± digits * 10 ^ scale`, and whether it was written as a plain integer. -/
structure Literal where
  negative : Bool
  digits : Nat
  scale : Int
  plain : Bool
deriving DecidableEq, Repr

/-- The content of a string literal, absent when an escape in it names no character. -/
abbrev Content := Option String

/-- A JSON text as written. -/
inductive Document where
  | null
  | bool (b : Bool)
  | number (l : Literal)
  | string (c : Content)
  | array (items : List Document)
  | object (members : List (Content × Document))
deriving Repr, Inhabited

namespace Document

/-- Whether a character is JSON white space. -/
def isSpace (c : Char) : Bool :=
  c = ' ' || c = '\n' || c = '\t' || c = '\r'

/-- The text after leading white space. -/
def skipSpace (cs : List Char) : List Char :=
  cs.dropWhile isSpace

/-- The value of a decimal digit. -/
def digit? (c : Char) : Option Nat :=
  if '0' ≤ c && c ≤ '9' then some (c.toNat - 48) else none

/-- The value of a hexadecimal digit. -/
def hexDigit? (c : Char) : Option Nat :=
  if '0' ≤ c && c ≤ '9' then some (c.toNat - 48)
  else if 'a' ≤ c && c ≤ 'f' then some (c.toNat - 87)
  else if 'A' ≤ c && c ≤ 'F' then some (c.toNat - 55)
  else none

/-- The number written with four hexadecimal digits at the start of a text. -/
def hex4? : List Char → Option (Nat × List Char)
  | a :: b :: c :: d :: rest => do
    let a ← hexDigit? a
    let b ← hexDigit? b
    let c ← hexDigit? c
    let d ← hexDigit? d
    some (((a * 16 + b) * 16 + c) * 16 + d, rest)
  | _ => none

/-- A run of digits: the value accumulated so far and the number of digits read. -/
def digits : List Char → Nat → Nat → Nat × Nat × List Char
  | [], value, count => (value, count, [])
  | c :: rest, value, count =>
    match digit? c with
    | some d => digits rest (value * 10 + d) (count + 1)
    | none => (value, count, c :: rest)

/-- The exponent part of a number literal, zero if there is none. -/
def exponentPart? (cs : List Char) : Option (Int × Bool × List Char) :=
  match cs with
  | c :: rest =>
    if c = 'e' || c = 'E' then
      let (negative, rest) :=
        match rest with
        | '+' :: rest => (false, rest)
        | '-' :: rest => (true, rest)
        | rest => (false, rest)
      match digits rest 0 0 with
      | (_, 0, _) => none
      | (value, _, rest) => some (if negative then -(value : Int) else value, true, rest)
    else some (0, false, c :: rest)
  | [] => some (0, false, [])

/-- The number literal that follows a sign. -/
def unsigned? (negative : Bool) (cs : List Char) : Option (Literal × List Char) :=
  match digits cs 0 0 with
  | (_, 0, _) => none
  | (whole, count, rest) =>
    if cs.head? = some '0' && 1 < count then none
    else
      let fraction : Option (Nat × Nat × Bool × List Char) :=
        match rest with
        | '.' :: rest =>
          match digits rest whole 0 with
          | (_, 0, _) => none
          | (value, places, rest) => some (value, places, true, rest)
        | rest => some (whole, 0, false, rest)
      match fraction with
      | none => none
      | some (value, places, pointed, rest) =>
        match exponentPart? rest with
        | none => none
        | some (exponent, scaled, rest) =>
          some (⟨negative, value, exponent - places, !pointed && !scaled⟩, rest)

/-- The character of a one-letter escape. -/
def escape? (c : Char) : Option Char :=
  if c = '"' || c = '\\' || c = '/' then some c
  else if c = 'b' then some (Char.ofNat 8)
  else if c = 'f' then some (Char.ofNat 12)
  else if c = 'n' then some '\n'
  else if c = 'r' then some '\r'
  else if c = 't' then some '\t'
  else none

/-- The second half of a surrogate pair at the start of a text. -/
def lowSurrogate? : List Char → Option (Nat × List Char)
  | '\\' :: 'u' :: rest =>
    match hex4? rest with
    | some (n, rest) => if 0xdc00 ≤ n && n ≤ 0xdfff then some (n - 0xdc00, rest) else none
    | none => none
  | _ => none

/-- The character that a numeric escape names, with what follows it; half a surrogate pair names
none. -/
def codeEscape (n : Nat) (rest : List Char) : Option Char × List Char :=
  if 0xd800 ≤ n && n ≤ 0xdbff then
    match lowSurrogate? rest with
    | some (low, rest) => (some (Char.ofNat (0x10000 + (n - 0xd800) * 1024 + low)), rest)
    | none => (none, rest)
  else if 0xdc00 ≤ n && n ≤ 0xdfff then (none, rest)
  else (some (Char.ofNat n), rest)

/-- One more character of a string's content, which is given in reverse. -/
def extend (content : Option (List Char)) (c : Option Char) : Option (List Char) :=
  match content, c with
  | some cs, some c => some (c :: cs)
  | _, _ => none

/-- The rest of a string literal after its opening quote. -/
def stringBody? : Nat → List Char → Option (List Char) → Option (Content × List Char)
  | 0, _, _ => none
  | _ + 1, [], _ => none
  | fuel + 1, c :: rest, content =>
    if c = '"' then some (content.map fun cs => String.ofList cs.reverse, rest)
    else if c = '\\' then
      match rest with
      | 'u' :: rest =>
        match hex4? rest with
        | some (n, rest) =>
          let (named, rest) := codeEscape n rest
          stringBody? fuel rest (extend content named)
        | none => none
      | e :: rest =>
        match escape? e with
        | some named => stringBody? fuel rest (extend content (some named))
        | none => none
      | [] => none
    else if c.toNat < 0x20 then none
    else stringBody? fuel rest (extend content (some c))

/-- A string literal. -/
def string? (cs : List Char) : Option (Content × List Char) :=
  match cs with
  | '"' :: rest => stringBody? (rest.length + 1) rest (some [])
  | _ => none

mutual

/-- A value at the start of a text, after white space. -/
def value? : Nat → List Char → Option (Document × List Char)
  | 0, _ => none
  | fuel + 1, cs =>
    match skipSpace cs with
    | 'n' :: 'u' :: 'l' :: 'l' :: rest => some (.null, rest)
    | 't' :: 'r' :: 'u' :: 'e' :: rest => some (.bool true, rest)
    | 'f' :: 'a' :: 'l' :: 's' :: 'e' :: rest => some (.bool false, rest)
    | '[' :: rest =>
      match skipSpace rest with
      | ']' :: rest => some (.array [], rest)
      | rest => (items? fuel rest []).map fun (items, rest) => (.array items, rest)
    | '\x7b' :: rest =>
      match skipSpace rest with
      | '\x7d' :: rest => some (.object [], rest)
      | rest => (members? fuel rest []).map fun (members, rest) => (.object members, rest)
    | '"' :: rest => (string? ('"' :: rest)).map fun (c, rest) => (.string c, rest)
    | '-' :: rest => (unsigned? true rest).map fun (l, rest) => (.number l, rest)
    | rest => (unsigned? false rest).map fun (l, rest) => (.number l, rest)

/-- The items of an array up to its closing bracket; those read before are given in reverse. -/
def items? : Nat → List Char → List Document → Option (List Document × List Char)
  | 0, _, _ => none
  | fuel + 1, cs, before =>
    match value? fuel cs with
    | none => none
    | some (item, rest) =>
      match skipSpace rest with
      | ']' :: rest => some ((item :: before).reverse, rest)
      | ',' :: rest => items? fuel rest (item :: before)
      | _ => none

/-- The members of an object up to its closing brace; those read before are given in reverse. -/
def members? : Nat → List Char → List (Content × Document) →
    Option (List (Content × Document) × List Char)
  | 0, _, _ => none
  | fuel + 1, cs, before =>
    match string? (skipSpace cs) with
    | none => none
    | some (key, rest) =>
      match skipSpace rest with
      | ':' :: rest =>
        match value? fuel rest with
        | none => none
        | some (item, rest) =>
          match skipSpace rest with
          | '\x7d' :: rest => some (((key, item) :: before).reverse, rest)
          | ',' :: rest => members? fuel rest ((key, item) :: before)
          | _ => none
      | _ => none

end

/-- The document that a whole text is, if it is one. -/
def ofText? (text : String) : Option Document :=
  let cs := text.toList
  match value? (2 * cs.length + 2) cs with
  | some (d, rest) => if (skipSpace rest).isEmpty then some d else none
  | none => none

end Document

end Orchestra.Json
