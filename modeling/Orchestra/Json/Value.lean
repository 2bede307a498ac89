import Orchestra.Double.Arithmetic
import Orchestra.Keyed

/-!
# JSON values

Numbers are integers of the signed or unsigned 64-bit range, or finite doubles; objects hold their
entries in key order. Adding two numbers stays exact where a 64-bit type holds both and the sum, and
falls back to doubles where no such type holds both.
-/

namespace Orchestra

/-- A JSON number. -/
inductive Number where
  | int (n : Int)
  | real (x : Double)
deriving DecidableEq, Repr, Inhabited

/-- Whether an integer fits a signed 64-bit word. -/
def fitsSigned (n : Int) : Bool :=
  -0x8000000000000000 ≤ n && n < 0x8000000000000000

/-- Whether an integer fits an unsigned 64-bit word. -/
def fitsUnsigned (n : Int) : Bool :=
  0 ≤ n && n < 0x10000000000000000

namespace Number

/-- The number as a double. -/
def toDouble : Number → Double
  | int n => Double.ofInt n
  | real x => x

/-- The number of a double; a word that is no real number has none. -/
def ofDouble? (x : Double) : Option Number :=
  if x.isFinite then some (real x) else none

/-- The sum of two doubles as a number, if it is finite. -/
def realSum? (a b : Number) : Option Number :=
  ofDouble? (a.toDouble.add b.toDouble)

/-- The sum of two numbers, if it can be represented: two signed words add as signed words, two
unsigned ones as unsigned words, and anything else as doubles. -/
def add? (a b : Number) : Option Number :=
  match a, b with
  | int m, int n =>
    if fitsSigned m && fitsSigned n then
      if fitsSigned (m + n) then some (int (m + n)) else none
    else if fitsUnsigned m && fitsUnsigned n then
      if fitsUnsigned (m + n) then some (int (m + n)) else none
    else realSum? a b
  | _, _ => realSum? a b

/-- Equality of numbers: integers and doubles differ, doubles compare numerically. -/
def same : Number → Number → Bool
  | int m, int n => m = n
  | real x, real y => x.numericEq y
  | _, _ => false

end Number

/-- A JSON value. -/
inductive Json where
  | null
  | bool (b : Bool)
  | num (n : Number)
  | str (s : String)
  | arr (items : List Json)
  | obj (entries : List (String × Json))
deriving Repr, Inhabited

namespace Json

/-- A natural number as a JSON value. -/
def ofNat (n : Nat) : Json :=
  .num (.int n)

/-- A double as a JSON value; a word that is no real number becomes `null`. -/
def ofDouble (x : Double) : Json :=
  match Number.ofDouble? x with
  | some n => .num n
  | none => .null

/-- The text held, if the value is one. -/
def text? : Json → Option String
  | str s => some s
  | _ => none

/-- The double nearest to the number held, if the value is one. -/
def double? : Json → Option Double
  | num n => some n.toDouble
  | _ => none

/-- The integer held, if the value is one. -/
def int? : Json → Option Int
  | num (.int n) => some n
  | _ => none

/-- The value under a key, if the value is an object with that key. -/
def field? (key : String) : Json → Option Json
  | obj entries => Keyed.find? key entries
  | _ => none

mutual

/-- Equality of values, comparing doubles numerically. -/
def same : Json → Json → Bool
  | null, null => true
  | bool a, bool b => a == b
  | num a, num b => a.same b
  | str a, str b => a == b
  | arr a, arr b => sameItems a b
  | obj a, obj b => sameEntries a b
  | _, _ => false

/-- Equality of lists of values, item by item. -/
def sameItems : List Json → List Json → Bool
  | [], [] => true
  | a :: as, b :: bs => same a b && sameItems as bs
  | _, _ => false

/-- Equality of entries in order. -/
def sameEntries : List (String × Json) → List (String × Json) → Bool
  | [], [] => true
  | (k, a) :: as, (l, b) :: bs => k == l && same a b && sameEntries as bs
  | _, _ => false

end

end Json

end Orchestra
