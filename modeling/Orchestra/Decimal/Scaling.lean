import Orchestra.Decimal.Reading

/-!
# Scaling by powers of ten

A quick way to read a decimal is to round its leading digits to a double and to scale this by a power of
ten. Each step rounds, so this is not always the nearest double.
-/

namespace Orchestra.Decimal

/-- The largest power of ten that is scaled by at once. -/
def maxPower : Nat := 308

/-- The nearest double to a power of ten. -/
def powerOfTen (n : Nat) : Double :=
  Double.ofRatio false (Nat.pow 10 n) 1

/-- The leading digits that an unsigned word holds, and how many digits come after them. There are no
more digits than the first argument. -/
def leading : Nat → Nat → Nat × Nat
  | 0, digits => (digits, 0)
  | fuel + 1, digits =>
    if digits < UInt64.size then (digits, 0)
    else
      let (kept, dropped) := leading fuel (digits / 10)
      (kept, dropped + 1)

/-- A double times a power of ten, if that is finite. Divisors beyond the largest power are taken in
steps: two of them make a zero of every word. -/
def scale? : Nat → Double → Int → Option Double
  | steps, x, exponent =>
    if exponent.natAbs ≤ maxPower then
      if 0 ≤ exponent then
        let y := x.mul (powerOfTen exponent.toNat)
        if y.isFinite then some y else none
      else some (x.div (powerOfTen (-exponent).toNat))
    else if x.isZero then some x
    else if 0 ≤ exponent then none
    else
      match steps with
      | 0 => some x
      | steps + 1 => scale? steps (x.div (powerOfTen maxPower)) (exponent + maxPower)

/-- The double that a decimal is scaled to, or nothing if it is beyond the largest finite one. -/
def scaled? (negative : Bool) (digits : Nat) (exponent : Int) : Option Double :=
  let (kept, dropped) := leading digits.log2 digits
  (scale? 2 (Double.ofInt kept) (exponent + dropped)).map fun x => if negative then x.neg else x

/-- For 0.9385958677423489 this is the word before the nearest one. -/
example : scaled? false 9385958677423489 (-16) = some ⟨4606629339545708275⟩ ∧
    toDouble? false 9385958677423489 (-16) = some ⟨4606629339545708276⟩ := by
  decide +kernel

end Orchestra.Decimal
