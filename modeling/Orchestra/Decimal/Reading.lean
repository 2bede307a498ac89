import Orchestra.Double.Arithmetic

/-!
# Reading a decimal as a double

A decimal `± digits * 10 ^ exponent` is read as the nearest double. Exponents far outside the range
of doubles are decided without building the power, and a decimal too large for any finite double
is refused.
-/

namespace Orchestra.Decimal

/-- The nearest double to a decimal, or nothing if it is beyond the largest finite one. -/
def toDouble? (negative : Bool) (digits : Nat) (exponent : Int) : Option Double :=
  if digits = 0 then some (Double.signedZero negative)
  else
    let size : Int := (digits.log2 : Int) * 30103 / 100000 + exponent
    if 310 < size then none
    else if size < -330 then some (Double.signedZero negative)
    else
      let x := Double.ofRatio negative (digits * Nat.pow 10 exponent.toNat)
        (Nat.pow 10 (-exponent).toNat)
      if x.isFinite then some x else none

end Orchestra.Decimal
