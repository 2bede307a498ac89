import Orchestra.Decimal.Shortest

/-!
# Written forms of numbers

A layout says where positional notation begins; numbers outside its range are written with one
digit before the point and an exponent. `fixed` writes a double with a given number of places,
rounded on its exact value.
-/

namespace Orchestra.Decimal

/-- The decimal digits of a natural number. -/
def digitsText (n : Nat) : String :=
  toString n

/-- The text of an integer. -/
def intText (n : Int) : String :=
  if n < 0 then "-" ++ digitsText n.natAbs else digitsText n.natAbs

/-- How a double is laid out: the least position of the decimal point that is still written
positionally, and the texts of the words that are no numbers. -/
structure Layout where
  leastPoint : Int
  greatestPoint : Int
  nan : String
  infinite : String

/-- `count` copies of the digit zero. -/
def zeros (count : Nat) : String :=
  String.ofList (List.replicate count '0')

/-- Positional notation: at least one digit on each side of the point. -/
def positional (digits : String) (point : Int) : String :=
  let count : Int := digits.length
  if point ≤ 0 then "0." ++ zeros (-point).toNat ++ digits
  else if count ≤ point then digits ++ zeros (point - count).toNat ++ ".0"
  else
    let cs := digits.toList
    String.ofList (cs.take point.toNat) ++ "." ++ String.ofList (cs.drop point.toNat)

/-- Exponent notation: one digit, then the rest after a point if there is a rest. -/
def scientific (digits : String) (point : Int) : String :=
  let cs := digits.toList
  let rest := String.ofList (cs.drop 1)
  let mantissa := String.ofList (cs.take 1) ++ if rest.isEmpty then "" else "." ++ rest
  mantissa ++ "e" ++ intText (point - 1)

/-- The unsigned text of a decimal number. -/
def Layout.digits (l : Layout) (d : Digits) : String :=
  let text := digitsText d.digits
  let point := (text.length : Int) + d.exponent
  if l.leastPoint ≤ point && point ≤ l.greatestPoint then positional text point
  else scientific text point

/-- The text of a double under a layout. -/
def Layout.text (l : Layout) (x : Double) : String :=
  if x.isNaN then l.nan
  else
    let sign := if x.isNegative then "-" else ""
    if !x.isFinite then sign ++ l.infinite
    else if x.isZero then sign ++ "0.0"
    else sign ++ l.digits (shortest x)

/-- A nonnegative finite double with exactly `places` digits after the point, a tie going to the
even digit. -/
def fixed (places : Nat) (x : Double) : String :=
  let num := x.significand * Nat.pow 2 x.exponent.toNat * Nat.pow 10 places
  let den := Nat.pow 2 (-x.exponent).toNat
  let n := Double.roundHalfEven (num / den) (num % den) den
  let text := digitsText n
  let text := zeros (places + 1 - text.length) ++ text
  let cs := text.toList
  let whole := cs.length - places
  let sign := if x.isNegative then "-" else ""
  sign ++ String.ofList (cs.take whole) ++
    if places = 0 then "" else "." ++ String.ofList (cs.drop whole)

end Orchestra.Decimal
