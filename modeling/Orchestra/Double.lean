/-!
# Double-precision words

A quality value is a 64-bit word in the binary64 layout: a sign bit, eleven exponent bits and
fifty-two fraction bits. Words are kept as they are, so two quiet NaNs with different payloads stay
different, and they are compared by `rank`, a total order in which `-NaN < -∞ < -0 < +0 < +∞ < NaN`.
-/

namespace Orchestra

/-- A binary64 word. -/
structure Double where
  bits : UInt64
deriving DecidableEq, Repr, Inhabited

namespace Double

/-- The word without its sign bit, as a number. -/
def magnitude (x : Double) : Nat :=
  x.bits.toNat % 0x8000000000000000

/-- Whether the sign bit is set, which also holds of `-0` and of a NaN with that sign. -/
def isNegative (x : Double) : Bool :=
  0x8000000000000000 ≤ x.bits.toNat

/-- The magnitude of infinity: all exponent bits set and no fraction bit. -/
def infinityMagnitude : Nat := 0x7ff0000000000000

/-- Positive infinity, the key of a state without samples. -/
def infinity : Double := ⟨0x7ff0000000000000⟩

/-- The quiet NaN that an invalid operation produces. -/
def invalid : Double := ⟨0xfff8000000000000⟩

/-- Positive zero. -/
def zero : Double := ⟨0⟩

/-- The zero with the given sign. -/
def signedZero (negative : Bool) : Double :=
  if negative then ⟨0x8000000000000000⟩ else ⟨0⟩

/-- The infinity with the given sign. -/
def signedInfinity (negative : Bool) : Double :=
  if negative then ⟨0xfff0000000000000⟩ else ⟨0x7ff0000000000000⟩

/-- Whether the word is a NaN of either sign. -/
def isNaN (x : Double) : Bool :=
  infinityMagnitude < x.magnitude

/-- Whether the word denotes a real number. -/
def isFinite (x : Double) : Bool :=
  x.magnitude < infinityMagnitude

/-- Whether the word is a zero of either sign. -/
def isZero (x : Double) : Bool :=
  x.magnitude = 0

/-- The position of a word in the total order; different words have different ranks. -/
def rank (x : Double) : Int :=
  if x.isNegative then -(x.magnitude : Int) - 1 else (x.magnitude : Int)

/-- Strictly earlier in the total order. -/
def below (x y : Double) : Bool :=
  x.rank < y.rank

/-- Numeric comparison: false when an operand is a NaN, and the two zeros are equal. -/
def numericLE (x y : Double) : Bool :=
  !x.isNaN && !y.isNaN && (x.rank ≤ y.rank || (x.isZero && y.isZero))

/-- Numeric equality: a NaN differs from itself, and the two zeros are equal. -/
def numericEq (x y : Double) : Bool :=
  !x.isNaN && !y.isNaN && (x == y || (x.isZero && y.isZero))

/-- The word with its sign bit flipped. -/
def neg (x : Double) : Double :=
  ⟨x.bits ^^^ 0x8000000000000000⟩

/-- The fraction bits. -/
def fraction (x : Double) : Nat :=
  x.magnitude % 0x10000000000000

/-- The exponent bits. -/
def exponentField (x : Double) : Nat :=
  x.magnitude / 0x10000000000000

/-- A finite word denotes, up to sign, `significand * 2 ^ exponent`. -/
def significand (x : Double) : Nat :=
  if x.exponentField = 0 then x.fraction else 0x10000000000000 + x.fraction

/-- The exponent of two that scales the significand of a finite word. -/
def exponent (x : Double) : Int :=
  if x.exponentField = 0 then -1074 else (x.exponentField : Int) - 1075

/-- The rank of a word whose sign bit is set is negative. -/
theorem rank_of_isNegative {x : Double} (h : x.isNegative = true) :
    x.rank = -(x.magnitude : Int) - 1 := by
  rw [rank, if_pos h]

/-- The rank of a word whose sign bit is not set is its magnitude. -/
theorem rank_of_not_isNegative {x : Double} (h : ¬x.isNegative = true) :
    x.rank = (x.magnitude : Int) := by
  rw [rank, if_neg h]

/-- Words of equal rank are equal. -/
theorem rank_injective {x y : Double} (h : x.rank = y.rank) : x = y := by
  obtain ⟨a⟩ := x
  obtain ⟨b⟩ := y
  have ha := a.toNat_lt
  have hb := b.toNat_lt
  congr 1
  apply UInt64.toNat_inj.1
  by_cases h1 : (⟨a⟩ : Double).isNegative = true <;>
    by_cases h2 : (⟨b⟩ : Double).isNegative = true
  · rw [rank_of_isNegative h1, rank_of_isNegative h2] at h
    simp only [isNegative, magnitude, decide_eq_true_eq] at h h1 h2
    omega
  · rw [rank_of_isNegative h1, rank_of_not_isNegative h2] at h
    omega
  · rw [rank_of_not_isNegative h1, rank_of_isNegative h2] at h
    omega
  · rw [rank_of_not_isNegative h1, rank_of_not_isNegative h2] at h
    simp only [isNegative, magnitude, decide_eq_true_eq] at h h1 h2
    omega

end Double

end Orchestra
