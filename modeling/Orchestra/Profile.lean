import Orchestra.Duration
import Orchestra.Keyed

/-!
# Execution profiles

Counters of a run by runnable name: completed calls, calls that failed and the time spent. The
report is a table with one line per name, in name order.
-/

namespace Orchestra

/-- The counters of one name. -/
structure ProfileEntry where
  calls : Nat
  errors : Nat
  total : Duration
deriving DecidableEq, Repr

namespace ProfileEntry

/-- No calls yet. -/
def empty : ProfileEntry := ⟨0, 0, .zero⟩

/-- Whether one more call would push the total time out of range. -/
def overflows (e : ProfileEntry) (elapsed : Duration) : Bool :=
  (e.total.add? elapsed).isNone

/-- One more call. A call that pushes the total time out of range has been counted by then, but whether it
has failed is not looked at any more. -/
def record (e : ProfileEntry) (elapsed : Duration) (failed : Bool) : ProfileEntry :=
  match e.total.add? elapsed with
  | some total => ⟨e.calls + 1, if failed then e.errors + 1 else e.errors, total⟩
  | none => { e with calls := e.calls + 1 }

/-- The mean time of a call, rounded down; very large call counts are capped at 32 bits. -/
def mean (e : ProfileEntry) : Duration :=
  if e.calls = 0 then .zero else ⟨e.total.nanos / min e.calls 4294967295⟩

end ProfileEntry

/-- The counters of a run. -/
structure Profile where
  entries : Keyed ProfileEntry
deriving Repr, Inhabited

namespace Profile

/-- A profile in which nothing was recorded. -/
def empty : Profile := ⟨[]⟩

/-- The counters of one name. -/
def get? (p : Profile) (name : String) : Option ProfileEntry :=
  Keyed.find? name p.entries

/-- Records one completed call. -/
def record (p : Profile) (name : String) (elapsed : Duration) (failed : Bool) : Profile :=
  ⟨Keyed.alter name (fun e => (e.getD .empty).record elapsed failed) p.entries⟩

/-- Whether recording the call would push the total time of its name out of range. -/
def overflows (p : Profile) (name : String) (elapsed : Duration) : Bool :=
  ((p.get? name).getD .empty).overflows elapsed

/-- The number of names recorded. -/
def size (p : Profile) : Nat :=
  p.entries.length

/-- Every name with its counters, in name order. -/
def snapshot (p : Profile) : List (String × ProfileEntry) :=
  p.entries

/-- `s` followed by blanks up to the given number of characters. -/
def padEnd (width : Nat) (s : String) : String :=
  s ++ String.ofList (List.replicate (width - s.length) ' ')

/-- `s` after blanks up to the given number of characters. -/
def padStart (width : Nat) (s : String) : String :=
  String.ofList (List.replicate (width - s.length) ' ') ++ s

/-- Milliseconds of a span with three places. -/
def millisText (d : Duration) : String :=
  Decimal.fixed 3 (d.toSeconds.mul (Double.ofInt 1000))

/-- One line of the report. -/
def row (width : Nat) (name calls errors total mean : String) : String :=
  "  ".intercalate [padEnd width name, padStart 8 calls, padStart 8 errors, padStart 12 total,
    padStart 12 mean] ++ "\n"

/-- The width of the name column: the longest name in bytes, and at least the heading. -/
def nameWidth (p : Profile) : Nat :=
  p.entries.foldl (fun width (name, _) => max width name.utf8ByteSize) 8

/-- The counters as a table. -/
def report (p : Profile) : String :=
  let width := p.nameWidth
  let lines := p.entries.map fun (name, e) =>
    row width name (toString e.calls) (toString e.errors) (millisText e.total) (millisText e.mean)
  String.join (row width "runnable" "calls" "errors" "total_ms" "mean_ms" :: lines)

end Profile

end Orchestra
