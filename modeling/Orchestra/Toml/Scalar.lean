import Orchestra.Decimal.Reading

/-!
# TOML scalars

Strings in their four notations, numbers with signs and underscores, and dates and times. Each
reader takes the characters from where the value starts and answers the value with what follows it.
-/

namespace Orchestra.Toml

/-- A reader: the value at the start of a text and the rest of the text. -/
abbrev Reader (α : Type) := List Char → Option (α × List Char)

/-- Blanks within a line. -/
def isSpace (c : Char) : Bool :=
  c = ' ' || c = '\t'

/-- Drops blanks within a line. -/
def skipSpace (cs : List Char) : List Char :=
  cs.dropWhile isSpace

/-- Drops one line ending. -/
def newline? : List Char → Option (List Char)
  | '\n' :: rest => some rest
  | '\r' :: '\n' :: rest => some rest
  | _ => none

/-- Whether a character may stand in a comment or, quotes and backslashes apart, in a string. -/
def isPlain (c : Char) : Bool :=
  c = '\t' || (0x20 ≤ c.toNat && c.toNat ≤ 0x7e) || 0x80 ≤ c.toNat

/-- Whether a character is a decimal digit. -/
def isDigit (c : Char) : Bool :=
  '0' ≤ c && c ≤ '9'

/-- The value of a hexadecimal digit. -/
def hexValue? (c : Char) : Option Nat :=
  if '0' ≤ c && c ≤ '9' then some (c.toNat - 48)
  else if 'a' ≤ c && c ≤ 'f' then some (c.toNat - 87)
  else if 'A' ≤ c && c ≤ 'F' then some (c.toNat - 55)
  else none

/-- The number written with exactly `count` hexadecimal digits. -/
def hexDigits? : Nat → Nat → Reader Nat
  | 0, value, rest => some (value, rest)
  | _ + 1, _, [] => none
  | count + 1, value, c :: rest =>
    match hexValue? c with
    | some d => hexDigits? count (value * 16 + d) rest
    | none => none

/-- A character with the given code point. -/
def scalarChar? (n : Nat) : Option Char :=
  if n < 0xd800 || (0xdfff < n && n < 0x110000) then some (Char.ofNat n) else none

/-- The character of an escape after its backslash. -/
def escape? : Reader Char
  | 'b' :: rest => some (Char.ofNat 8, rest)
  | 't' :: rest => some ('\t', rest)
  | 'n' :: rest => some ('\n', rest)
  | 'f' :: rest => some (Char.ofNat 12, rest)
  | 'r' :: rest => some ('\r', rest)
  | '"' :: rest => some ('"', rest)
  | '\\' :: rest => some ('\\', rest)
  | 'u' :: rest => do
    let (n, rest) ← hexDigits? 4 0 rest
    let c ← scalarChar? n
    some (c, rest)
  | 'U' :: rest => do
    let (n, rest) ← hexDigits? 8 0 rest
    let c ← scalarChar? n
    some (c, rest)
  | _ => none

/-- The text given in reverse. -/
def reversed (cs : List Char) : String :=
  String.ofList cs.reverse

/-- The rest of a one-line string after its opening quote; the content so far is in reverse. -/
def line? (quote : Char) : Nat → List Char → Reader String
  | 0, _, _ => none
  | _ + 1, _, [] => none
  | fuel + 1, content, c :: rest =>
    if c = quote then some (reversed content, rest)
    else if c = '\\' && quote = '"' then
      match escape? rest with
      | some (e, rest) => line? quote fuel (e :: content) rest
      | none => none
    else if isPlain c then line? quote fuel (c :: content) rest
    else none

/-- Drops blanks and line endings. -/
def skipLines : Nat → List Char → List Char
  | 0, cs => cs
  | fuel + 1, cs =>
    match newline? (skipSpace cs) with
    | some rest => skipLines fuel rest
    | none => skipSpace cs

/-- The number of quotes at the start of a text. -/
def quoteCount (quote : Char) (cs : List Char) : Nat :=
  (cs.takeWhile (· = quote)).length

/-- The rest of a string of several lines after its opening quotes. -/
def lines? (quote : Char) : Nat → List Char → Reader String
  | 0, _, _ => none
  | _ + 1, _, [] => none
  | fuel + 1, content, c :: rest =>
    if c = quote then
      let run := quoteCount quote (c :: rest)
      if 3 ≤ run then
        let kept := min (run - 3) 2
        some (reversed (List.replicate kept quote ++ content), (c :: rest).drop (kept + 3))
      else lines? quote fuel (c :: content) rest
    else if c = '\\' && quote = '"' then
      match newline? (skipSpace rest) with
      | some rest => lines? quote fuel content (skipLines (rest.length + 1) rest)
      | none =>
        match escape? rest with
        | some (e, rest) => lines? quote fuel (e :: content) rest
        | none => none
    else
      match newline? (c :: rest) with
      | some rest => lines? quote fuel ('\n' :: content) rest
      | none => if isPlain c then lines? quote fuel (c :: content) rest else none

/-- A string in one of the four notations. -/
def string? : Reader String
  | '"' :: '"' :: '"' :: rest =>
    let rest := (newline? rest).getD rest
    lines? '"' (rest.length + 1) [] rest
  | '\'' :: '\'' :: '\'' :: rest =>
    let rest := (newline? rest).getD rest
    lines? '\'' (rest.length + 1) [] rest
  | '"' :: rest => line? '"' (rest.length + 1) [] rest
  | '\'' :: rest => line? '\'' (rest.length + 1) [] rest
  | _ => none

/-- Digits with single underscores between them, after a first digit was read. -/
def moreDigits? (digit? : Char → Option Nat) : Nat → List Nat → Reader (List Nat)
  | 0, _, _ => none
  | fuel + 1, before, cs =>
    match cs with
    | '_' :: c :: rest =>
      match digit? c with
      | some d => moreDigits? digit? fuel (d :: before) rest
      | none => none
    | ['_'] => none
    | c :: rest =>
      match digit? c with
      | some d => moreDigits? digit? fuel (d :: before) rest
      | none => some (before.reverse, c :: rest)
    | [] => some (before.reverse, [])

/-- A nonempty run of digits with single underscores between them. -/
def digits? (digit? : Char → Option Nat) : Reader (List Nat)
  | c :: rest =>
    match digit? c with
    | some d => moreDigits? digit? (rest.length + 1) [d] rest
    | none => none
  | [] => none

/-- The value of a decimal digit. -/
def decimalValue? (c : Char) : Option Nat :=
  if isDigit c then some (c.toNat - 48) else none

/-- The number that digits write in a base. -/
def inBase (base : Nat) (digits : List Nat) : Nat :=
  digits.foldl (fun n d => n * base + d) 0

/-- An optional sign: whether it is a minus, and the rest. -/
def sign (cs : List Char) : Bool × List Char :=
  match cs with
  | '-' :: rest => (true, rest)
  | '+' :: rest => (false, rest)
  | rest => (false, rest)

/-- A decimal integer without its sign, which has no leading zero. -/
def wholePart? : Reader (List Nat)
  | '0' :: rest => some ([0], rest)
  | cs => digits? decimalValue? cs

/-- The exponent of a float. -/
def exponent? : Reader Int
  | c :: rest =>
    if c = 'e' || c = 'E' then do
      let (negative, rest) := sign rest
      let (ds, rest) ← digits? decimalValue? rest
      let n := inBase 10 ds
      some (if negative then -(n : Int) else n, rest)
    else none
  | [] => none

/-- A float whose value is not too large. -/
def float? (cs : List Char) : Option (List Char) := do
  let (negative, rest) := sign cs
  let (whole, rest) ← wholePart? rest
  let finish (digits : List Nat) (exponent : Int) (rest : List Char) : Option (List Char) :=
    if negative || (Decimal.toDouble? false (inBase 10 digits) exponent).isSome then some rest
    else none
  match rest with
  | '.' :: rest =>
    let (places, rest) ← digits? decimalValue? rest
    let digits := whole ++ places
    match rest with
    | 'e' :: _ | 'E' :: _ =>
      let (e, rest) ← exponent? rest
      finish digits (e - places.length) rest
    | rest => finish digits (-(places.length : Int)) rest
  | rest =>
    let (e, rest) ← exponent? rest
    finish whole e rest

/-- An infinity or a NaN. -/
def specialFloat? (cs : List Char) : Option (List Char) :=
  match (sign cs).2 with
  | 'i' :: 'n' :: 'f' :: rest => some rest
  | 'n' :: 'a' :: 'n' :: rest => some rest
  | _ => none

/-- A digit below the base. -/
def digitBelow? (base : Nat) (c : Char) : Option Nat :=
  match hexValue? c with
  | some d => if d < base then some d else none
  | none => none

/-- A signed 64-bit integer in one of the four bases. -/
def integer? (cs : List Char) : Option (Int × List Char) :=
  let based (base : Nat) (rest : List Char) : Option (Int × List Char) := do
    let (ds, rest) ← digits? (digitBelow? base) rest
    let n := inBase base ds
    if n < 0x8000000000000000 then some ((n : Int), rest) else none
  match cs with
  | '0' :: 'x' :: rest => based 16 rest
  | '0' :: 'o' :: rest => based 8 rest
  | '0' :: 'b' :: rest => based 2 rest
  | cs => do
    let (negative, rest) := sign cs
    let (ds, rest) ← wholePart? rest
    let n : Int := inBase 10 ds
    let n := if negative then -n else n
    if -0x8000000000000000 ≤ n && n < 0x8000000000000000 then some (n, rest) else none

/-- A number of exactly `count` digits within bounds. -/
def field? (count low high : Nat) (cs : List Char) : Option (Nat × List Char) :=
  let ds := cs.take count
  if ds.length = count && ds.all isDigit then
    let n := inBase 10 (ds.map fun c => c.toNat - 48)
    if low ≤ n && n ≤ high then some (n, cs.drop count) else none
  else none

/-- The number of days of a month. -/
def monthDays (year month : Nat) : Nat :=
  if month = 2 then
    if year % 4 = 0 && (year % 100 != 0 || year % 400 = 0) then 29 else 28
  else if month = 4 || month = 6 || month = 9 || month = 11 then 30
  else 31

/-- Drops a given character. -/
def expect? (c : Char) : List Char → Option (List Char)
  | d :: rest => if d = c then some rest else none
  | [] => none

/-- A time of day. -/
def time? (cs : List Char) : Option (List Char) := do
  let (_, rest) ← field? 2 0 23 cs
  let rest ← expect? ':' rest
  let (_, rest) ← field? 2 0 59 rest
  let rest ← expect? ':' rest
  let (_, rest) ← field? 2 0 60 rest
  match rest with
  | '.' :: rest =>
    if (rest.head?.map isDigit).getD false then some (rest.dropWhile isDigit) else none
  | rest => some rest

/-- The offset of a time zone. -/
def offset? (cs : List Char) : Option (List Char) :=
  let numeric (rest : List Char) : Option (List Char) := do
    let (_, rest) ← field? 2 0 23 rest
    let rest ← expect? ':' rest
    let (_, rest) ← field? 2 0 59 rest
    some rest
  match cs with
  | 'Z' :: rest => some rest
  | 'z' :: rest => some rest
  | '+' :: rest => numeric rest
  | '-' :: rest => numeric rest
  | rest => some rest

/-- A date. -/
def date? (cs : List Char) : Option (List Char) := do
  let (year, rest) ← field? 4 0 9999 cs
  let rest ← expect? '-' rest
  let (month, rest) ← field? 2 1 12 rest
  let rest ← expect? '-' rest
  let (_, rest) ← field? 2 1 (monthDays year month) rest
  some rest

/-- Whether a value starts as a date or a time. -/
def looksDated (cs : List Char) : Bool :=
  let digits := (cs.takeWhile isDigit).length
  let next := (cs.drop digits).head?
  (digits = 4 && next = some '-') || (digits = 2 && next = some ':')

/-- A date, a time, or both with an optional offset. -/
def dateTime? (cs : List Char) : Option (List Char) :=
  if (cs.takeWhile isDigit).length = 2 then time? cs
  else
    match date? cs with
    | none => none
    | some rest =>
      match rest with
      | c :: after =>
        if c = 'T' || c = 't' || (c = ' ' && (after.head?.map isDigit).getD false) then
          match time? after with
          | some rest => offset? rest
          | none => none
        else some rest
      | [] => some []

end Orchestra.Toml
