import Orchestra.Double

/-!
# Rounding and arithmetic of doubles

Every operation is computed on exact rationals and rounded once, to the nearest word with ties to
the even significand, so nothing here depends on the machine. An operation on a NaN keeps the first
NaN operand, made quiet, and an invalid operation gives `Double.invalid`.
-/

namespace Orchestra.Double

/-- The integer part and the remainder of `num / den / 2 ^ e`, with the divisor it refers to. -/
def scaledQuotient (num den : Nat) (e : Int) : Nat × Nat × Nat :=
  let num := num * Nat.pow 2 (-e).toNat
  let den := den * Nat.pow 2 e.toNat
  (num / den, num % den, den)

/-- A quotient rounded to the nearest integer, a tie going to the even one. -/
def roundHalfEven (quotient rest den : Nat) : Nat :=
  if 2 * rest > den || (2 * rest = den && quotient % 2 = 1) then quotient + 1 else quotient

/-- The nearest word to the positive rational `num / den`, without its sign. -/
def magnitudeOfRatio (num den : Nat) : Nat :=
  let estimate : Int := (num.log2 : Int) - (den.log2 : Int)
  let e := max (-1074) (estimate - 53)
  let e := if 0x20000000000000 ≤ (scaledQuotient num den e).1 then e + 1 else e
  let (q, r, d) := scaledQuotient num den e
  let m := roundHalfEven q r d
  let field := (e + 1074).toNat * 0x10000000000000 + m
  min field infinityMagnitude

/-- The nearest word to `± num / den`; a zero numerator gives the zero of that sign. -/
def ofRatio (negative : Bool) (num den : Nat) : Double :=
  if num = 0 then signedZero negative
  else
    let word := magnitudeOfRatio num den
    ⟨(if negative then 0x8000000000000000 + word else word).toUInt64⟩

/-- The nearest word to an integer. -/
def ofInt (n : Int) : Double :=
  ofRatio (n < 0) n.natAbs 1

/-- The exact value of a finite word as an integer multiple of `2 ^ base`, for a `base` at most its
exponent. -/
def scaledValue (x : Double) (base : Int) : Int :=
  let m : Nat := x.significand * Nat.pow 2 (x.exponent - base).toNat
  if x.isNegative then -(m : Int) else m

/-- The nearest word to `n * 2 ^ base`, for a nonzero `n`. -/
def ofScaled (n : Int) (base : Int) : Double :=
  ofRatio (n < 0) (n.natAbs * Nat.pow 2 base.toNat) (Nat.pow 2 (-base).toNat)

/-- A NaN with its quiet bit set. -/
def quiet (x : Double) : Double :=
  ⟨x.bits ||| 0x0008000000000000⟩

/-- The sum of two words. -/
def add (x y : Double) : Double :=
  if x.isNaN then x.quiet
  else if y.isNaN then y.quiet
  else if !x.isFinite then
    if y.isFinite || x.isNegative == y.isNegative then x else invalid
  else if !y.isFinite then y
  else
    let base := min x.exponent y.exponent
    let total := x.scaledValue base + y.scaledValue base
    if total = 0 then signedZero (x.isNegative && y.isNegative) else ofScaled total base

/-- The difference of two words. -/
def sub (x y : Double) : Double :=
  if y.isNaN then (if x.isNaN then x.quiet else y.quiet) else x.add y.neg

/-- The product of two words. -/
def mul (x y : Double) : Double :=
  let negative := x.isNegative != y.isNegative
  if x.isNaN then x.quiet
  else if y.isNaN then y.quiet
  else if !x.isFinite || !y.isFinite then
    if x.isZero || y.isZero then invalid else signedInfinity negative
  else if x.isZero || y.isZero then signedZero negative
  else
    let m := x.significand * y.significand
    ofScaled (if negative then -(m : Int) else m) (x.exponent + y.exponent)

/-- The quotient of two words. -/
def div (x y : Double) : Double :=
  let negative := x.isNegative != y.isNegative
  if x.isNaN then x.quiet
  else if y.isNaN then y.quiet
  else if !x.isFinite then if y.isFinite then signedInfinity negative else invalid
  else if !y.isFinite then signedZero negative
  else if y.isZero then if x.isZero then invalid else signedInfinity negative
  else if x.isZero then signedZero negative
  else
    let shift := x.exponent - y.exponent
    ofRatio negative (x.significand * Nat.pow 2 shift.toNat) (y.significand * Nat.pow 2 (-shift).toNat)

end Orchestra.Double
