import Orchestra.Decimal.Reading
import Orchestra.Proofs.Decimal.Shortest

/-!
# Words are read back from their digits

A decimal of not too many digits that is rounded to a word is read as this word. That holds in particular of
the fewest digits of a word and of every other way to write the same number.
-/

namespace Orchestra.Decimal

open Double

variable {x : Double} {digits : ℕ} {exponent : ℤ}

/-- The number of digits that is estimated for a number of so many bits. -/
def size (digits : ℕ) : ℕ :=
  digits.log2 * 30103 / 100000

/-- Decimals that are too large or too small to be rounded to finite words other than zero. -/
theorem extremes : ∀ bits < 61, 2 ^ 1024 ≤ 2 ^ bits * 10 ^ (311 - bits * 30103 / 100000) ∧
    2 ^ (bits + 1) * 2 ^ 1075 ≤ 10 ^ (331 + bits * 30103 / 100000) := by
  decide +kernel

theorem log2_lt (hdigits : digits < 2 ^ 61) : digits.log2 < 61 := by
  rcases eq_or_ne digits 0 with rfl | hzero
  · decide
  · exact (Nat.log2_lt hzero).mpr hdigits

/-- A decimal that is rounded to a finite word is not too large, -/
theorem size_le (hdigits₀ : digits ≠ 0) (hdigits : digits < 2 ^ 61)
    (htop : (digits * 10 ^ exponent : ℚ) < 2 ^ (1024 : ℤ)) : size digits + exponent ≤ 310 := by
  by_contra hlarge
  have hextreme := (extremes _ (log2_lt hdigits)).1
  have hbits := log2_lt hdigits
  have hlog : (2 : ℚ) ^ digits.log2 ≤ digits := by exact_mod_cast Nat.log2_self_le hdigits₀
  have hexponent : (10 : ℚ) ^ (311 - size digits) ≤ 10 ^ exponent := by
    rw [← zpow_natCast]
    refine zpow_le_zpow_right₀ (by norm_num) ?_
    unfold size at hlarge ⊢
    omega
  have hcast : (2 : ℚ) ^ (1024 : ℤ) ≤ 2 ^ digits.log2 * 10 ^ (311 - size digits) := by
    exact_mod_cast hextreme
  refine absurd htop (not_lt.mpr (hcast.trans ?_))
  gcongr

/-- and one that is rounded to a word other than zero is not too small. -/
theorem le_size (hdigits : digits < 2 ^ 61)
    (hleast : (2 : ℚ) ^ (-1075 : ℤ) ≤ digits * 10 ^ exponent) : -330 ≤ size digits + exponent := by
  by_contra hsmall
  have hextreme := (extremes _ (log2_lt hdigits)).2
  have hlog : (digits : ℚ) < 2 ^ (digits.log2 + 1) := by exact_mod_cast Nat.lt_log2_self
  have hexponent : (10 : ℚ) ^ exponent ≤ (10 ^ (331 + size digits))⁻¹ := by
    rw [← zpow_natCast, ← zpow_neg]
    refine zpow_le_zpow_right₀ (by norm_num) ?_
    push_cast
    omega
  have hcast : (2 : ℚ) ^ (digits.log2 + 1) * 2 ^ 1075 ≤ 10 ^ (331 + size digits) := by
    exact_mod_cast hextreme
  refine absurd hleast (not_le.mpr ?_)
  calc (digits * 10 ^ exponent : ℚ)
    _ < 2 ^ (digits.log2 + 1) * (10 ^ (331 + size digits))⁻¹ :=
      mul_lt_mul hlog hexponent (by positivity) (by positivity)
    _ ≤ (2 ^ 1075)⁻¹ := by
      rw [mul_inv_le_iff₀ (by positivity), inv_mul_eq_div, le_div_iff₀ (by positivity)]
      exact hcast
    _ = 2 ^ (-1075 : ℤ) := by rw [zpow_neg]; rfl

/-- What is rounded to a finite word other than zero is at least half of the least such word. -/
theorem half_le_of_near (hfinite : x.isFinite = true) (hzero : x.significand ≠ 0)
    (hnear : x.Near (digits * 10 ^ exponent)) : (2 : ℚ) ^ (-1075 : ℤ) ≤ digits * 10 ^ exponent := by
  obtain ⟨hleast, hgap, -⟩ := modulus_bounds hfinite hzero
  have hless : (2 : ℚ) ^ (-1075 : ℤ) = 2 ^ (-1074 : ℤ) / 2 := by
    rw [show (-1075 : ℤ) = -1074 - 1 by rfl, zpow_sub_one₀ two_ne_zero, div_eq_mul_inv]
  have := hnear.lower
  linarith

/-- It has a digit. -/
theorem digits_ne_zero_of_near (hfinite : x.isFinite = true) (hzero : x.significand ≠ 0)
    (hnear : x.Near (digits * 10 ^ exponent)) : digits ≠ 0 := by
  rintro rfl
  have hhalf := half_le_of_near hfinite hzero hnear
  rw [Nat.cast_zero, zero_mul] at hhalf
  exact absurd hhalf (not_le.mpr (by positivity))

/-- A decimal of not too many digits that is rounded to a finite word other than zero is read as this
word. -/
theorem toDouble?_of_near (hfinite : x.isFinite = true) (hzero : x.significand ≠ 0)
    (hdigits : digits < 2 ^ 61) (hnear : x.Near (digits * 10 ^ exponent)) :
    toDouble? x.isNegative digits exponent = some x := by
  have htop := (modulus_bounds hfinite hzero).2.2
  have hhalf := half_le_of_near hfinite hzero hnear
  have hdigits₀ := digits_ne_zero_of_near hfinite hzero hnear
  have hlarge := size_le hdigits₀ hdigits (hnear.upper.trans_lt htop)
  have hsmall := le_size hdigits hhalf
  have hratio : ((digits * Nat.pow 10 exponent.toNat : ℕ) / (Nat.pow 10 (-exponent).toNat : ℕ) : ℚ) =
      digits * 10 ^ exponent := by
    have hpow (k : ℕ) : ((Nat.pow 10 k : ℕ) : ℚ) = 10 ^ k := by exact_mod_cast rfl
    rw [← pow_toNat_div (by norm_num) exponent, ← mul_div_assoc, Nat.cast_mul, hpow, hpow]
  have hword : ofRatio x.isNegative (digits * Nat.pow 10 exponent.toNat) (Nat.pow 10 (-exponent).toNat) =
      x := by
    refine ofRatio_of_near hfinite ?_ (Nat.pow_pos (by decide)) (hratio ▸ hnear)
    exact Nat.mul_ne_zero hdigits₀ (Nat.pow_pos (by decide)).ne'
  unfold size at hlarge hsmall
  unfold toDouble?
  dsimp only
  rw [if_neg hdigits₀, if_neg (by omega), if_neg (by omega), hword, if_pos hfinite]

theorem isZero_iff : x.isZero = true ↔ x.significand = 0 := by
  have hdivide := Nat.div_add_mod x.magnitude 0x10000000000000
  unfold isZero significand fraction exponentField
  rw [decide_eq_true_eq]
  constructor
  · intro hmagnitude
    rw [hmagnitude]
    rfl
  · intro hzero
    split at hzero <;> omega

/-- A zero is one of the two words with no other bit than the sign, -/
theorem signedZero_of_significand (hzero : x.significand = 0) : signedZero x.isNegative = x := by
  have hbits := x.toNat_bits
  rw [decide_eq_true_eq.mp (isZero_iff.mpr hzero)] at hbits
  cases hnegative : x.isNegative <;> rw [hnegative] at hbits
  · exact congrArg Double.mk (UInt64.toNat_inj.mp hbits.symm)
  · exact congrArg Double.mk (UInt64.toNat_inj.mp hbits.symm)

/-- which is read from a decimal without digits. -/
theorem toDouble?_of_significand (hzero : x.significand = 0) (exponent : ℤ) :
    toDouble? x.isNegative 0 exponent = some x := by
  rw [toDouble?, if_pos rfl, signedZero_of_significand hzero]

end Orchestra.Decimal
