import Orchestra.Double.Arithmetic

/-!
# The fewest digits that read back

A finite double denotes an interval of rationals that round to it. For one, two, … seventeen digits
the two neighbours of the value on that decimal grid are tested; the first grid with a hit wins, of
two hits the nearer, and of two equally near ones the even digit string.
-/

namespace Orchestra.Decimal

/-- A positive decimal number `digits * 10 ^ exponent`. -/
structure Digits where
  digits : Nat
  exponent : Int
deriving DecidableEq, Repr

/-- The rational value of a finite double with the bounds of its rounding interval, all over one
denominator. -/
structure Interval where
  value : Nat
  lower : Nat
  upper : Nat
  den : Nat
  closed : Bool

/-- The rationals that round to a finite nonzero double; the gap below a power of two is half as
wide as the gap above it. -/
def interval (x : Double) : Interval :=
  let m := x.significand
  let scale := x.exponent - 2
  let up := Nat.pow 2 scale.toNat
  let narrow := m = 0x10000000000000 && 1 < x.exponentField
  { value := 4 * m * up
    lower := (4 * m - if narrow then 1 else 2) * up
    upper := (4 * m + 2) * up
    den := Nat.pow 2 (-scale).toNat
    closed := m % 2 = 0 }

/-- Whether `n * 10 ^ g` lies in the interval. -/
def Interval.holds (i : Interval) (n : Nat) (g : Int) : Bool :=
  let point := n * Nat.pow 10 g.toNat * i.den
  let unit := Nat.pow 10 (-g).toNat
  if i.closed then i.lower * unit ≤ point && point ≤ i.upper * unit
  else i.lower * unit < point && point < i.upper * unit

/-- The distance from `n * 10 ^ g` to the value, in a unit that depends on `g` only. -/
def Interval.distance (i : Interval) (n : Nat) (g : Int) : Nat :=
  let point := n * Nat.pow 10 g.toNat * i.den
  let value := i.value * Nat.pow 10 (-g).toNat
  (point - value) + (value - point)

/-- The multiple of `10 ^ g` just at or below the value. -/
def Interval.floor (i : Interval) (g : Int) : Nat :=
  i.value * Nat.pow 10 (-g).toNat / (i.den * Nat.pow 10 g.toNat)

/-- The better of the two grid points around the value that lies in the interval, if one does. -/
def Interval.onGrid? (i : Interval) (g : Int) : Option Digits :=
  let n := i.floor g
  match n != 0 && i.holds n g, i.holds (n + 1) g with
  | true, true =>
    let near := i.distance n g
    let far := i.distance (n + 1) g
    some ⟨if near < far || (near = far && n % 2 = 0) then n else n + 1, g⟩
  | true, false => some ⟨n, g⟩
  | false, true => some ⟨n + 1, g⟩
  | false, false => none

/-- Whether the value is below `10 ^ k`. -/
def Interval.below (i : Interval) (k : Int) : Bool :=
  i.value * Nat.pow 10 (-k).toNat < i.den * Nat.pow 10 k.toNat

/-- The least `k` from `start` upwards with the value below `10 ^ k`. -/
def Interval.width (i : Interval) : Nat → Int → Int
  | 0, k => k
  | fuel + 1, k => if i.below k then k else i.width fuel (k + 1)

/-- The number of digits before the decimal point, negative for leading zeros after it. -/
def Interval.point (i : Interval) : Int :=
  let estimate := ((i.value.log2 : Int) - (i.den.log2 : Int)) * 30103 / 100000
  i.width 6 (estimate - 1)

/-- Tries grids of ever more digits. -/
def Interval.search (i : Interval) (point : Int) : Nat → Nat → Digits
  | 0, count => ⟨i.floor (point - count), point - count⟩
  | fuel + 1, count =>
    match i.onGrid? (point - count) with
    | some d => d
    | none => i.search point fuel (count + 1)

/-- Moves trailing zeros of the digits into the exponent. -/
def Digits.trim : Nat → Digits → Digits
  | 0, d => d
  | fuel + 1, d =>
    if d.digits % 10 = 0 then Digits.trim fuel ⟨d.digits / 10, d.exponent + 1⟩ else d

/-- The fewest digits that read back as the given finite nonzero double. -/
def shortest (x : Double) : Digits :=
  let i := interval x
  Digits.trim 20 (i.search i.point 17 1)

end Orchestra.Decimal
