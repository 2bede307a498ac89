import Mathlib.Algebra.Group.Nat.Defs
import Orchestra.Json.Value

/-!
# Sums of doubles that stay finite

The size of a ratio bounds the exponent of the word that it is rounded to. So integers of at most 64 bits
are far from infinity as doubles, and so are sums of two of them, which do not depend on the order.
-/

namespace Orchestra

namespace Double

variable {x y : Double} {num den j k : Nat} {n : Int} {negative : Bool}

/-! ### Rounding a ratio -/

/-- The quotient that is rounded has at most 54 bits. -/
theorem scaledQuotient_lt {e : Int} (he : (num.log2 : Int) - j - 53 ≤ e) :
    (scaledQuotient num (2 ^ j) e).1 < 2 ^ 54 := by
  have hden : 0 < 2 ^ j * 2 ^ e.toNat := Nat.mul_pos (Nat.two_pow_pos j) (Nat.two_pow_pos _)
  have hnum : num < 2 ^ (num.log2 + 1) := Nat.lt_log2_self
  change num * 2 ^ (-e).toNat / (2 ^ j * 2 ^ e.toNat) < 2 ^ 54
  rw [Nat.div_lt_iff_lt_mul hden]
  calc num * 2 ^ (-e).toNat
    _ < 2 ^ (num.log2 + 1) * 2 ^ (-e).toNat :=
      Nat.mul_lt_mul_of_pos_right hnum (Nat.two_pow_pos _)
    _ = 2 ^ (num.log2 + 1 + (-e).toNat) := (Nat.pow_add ..).symm
    _ ≤ 2 ^ (54 + (j + e.toNat)) := Nat.pow_le_pow_right (by decide) (by omega)
    _ = 2 ^ 54 * (2 ^ j * 2 ^ e.toNat) := by rw [Nat.pow_add, Nat.pow_add]

theorem roundHalfEven_le (quotient rest den : Nat) :
    roundHalfEven quotient rest den ≤ quotient + 1 := by
  rw [roundHalfEven]
  split
  · exact Nat.le_refl _
  · exact Nat.le_succ _

/-- The exponent bits of a rounded ratio below `2 ^ k` are at most `k + 1079`. -/
theorem magnitudeOfRatio_le (hnum : num ≠ 0) (h : num < 2 ^ (j + k)) :
    magnitudeOfRatio num (2 ^ j) ≤ (k + 1079) * 0x10000000000000 := by
  have hlog : num.log2 < j + k := (Nat.log2_lt hnum).mpr h
  simp only [magnitudeOfRatio, Nat.log2_two_pow]
  generalize hbase : max (-1074) ((num.log2 : Int) - j - 53) = base
  generalize hexp : (if 0x20000000000000 ≤ (scaledQuotient num (2 ^ j) base).1 then base + 1
    else base) = e
  have hlow : (num.log2 : Int) - j - 53 ≤ e := by
    split at hexp <;> omega
  have hhigh : (e + 1074).toNat ≤ k + 1075 := by
    split at hexp <;> omega
  have hquotient := scaledQuotient_lt hlow
  generalize scaledQuotient num (2 ^ j) e = parts at hquotient
  obtain ⟨quotient, rest, den⟩ := parts
  have hround := roundHalfEven_le quotient rest den
  refine Nat.le_trans (Nat.min_le_left _ _) ?_
  dsimp only
  omega

theorem magnitude_ofRatio (hnum : num ≠ 0) :
    (ofRatio negative num den).magnitude = magnitudeOfRatio num den := by
  have hle : magnitudeOfRatio num den ≤ 0x7ff0000000000000 := Nat.min_le_right _ _
  rw [ofRatio, if_neg hnum, magnitude]
  cases negative <;> simp [Nat.toUInt64, UInt64.toNat_ofNat'] <;> omega

/-- A rounded ratio below `2 ^ k` is no infinity unless `k` is large, -/
theorem isFinite_ofRatio (h : num < 2 ^ (j + k)) (hk : k < 968) :
    (ofRatio negative num (2 ^ j)).isFinite = true := by
  by_cases hnum : num = 0
  · rw [ofRatio, if_pos hnum]
    cases negative <;> rfl
  · have hle := magnitudeOfRatio_le hnum h
    rw [isFinite, magnitude_ofRatio hnum, infinityMagnitude, decide_eq_true_eq]
    omega

/-- and scaled by no more than its size. -/
theorem exponent_ofRatio_le (h : num < 2 ^ (j + k)) :
    (ofRatio negative num (2 ^ j)).exponent ≤ k + 4 := by
  by_cases hnum : num = 0
  · rw [ofRatio, if_pos hnum]
    have hzero : (signedZero negative).exponent = -1074 := by cases negative <;> rfl
    omega
  · have hle := magnitudeOfRatio_le hnum h
    rw [exponent, exponentField, magnitude_ofRatio hnum]
    split <;> omega

/-! ### Sums -/

theorem significand_lt (x : Double) : x.significand < 2 ^ 53 := by
  rw [significand, fraction]
  split <;> omega

/-- The exact value is as large as the significand and the exponent allow. -/
theorem natAbs_scaledValue_le {bound base : Int} (h : x.exponent ≤ bound) :
    (x.scaledValue base).natAbs ≤ 2 ^ 53 * 2 ^ (bound - base).toNat := by
  have habs : (x.scaledValue base).natAbs = x.significand * 2 ^ (x.exponent - base).toNat := by
    rw [scaledValue]
    split
    · exact Int.natAbs_neg _
    · rfl
  rw [habs]
  exact Nat.mul_le_mul (Nat.le_of_lt x.significand_lt)
    (Nat.pow_le_pow_right (by decide) (by omega))

theorem isNaN_eq_false (h : x.isFinite = true) : x.isNaN = false := by
  rw [isFinite, decide_eq_true_eq] at h
  rw [isNaN, decide_eq_false_iff_not]
  omega

/-- A sum of doubles that are not too large is finite, -/
theorem isFinite_add {bound : Int} (hx : x.isFinite = true) (hy : y.isFinite = true)
    (hxbound : x.exponent ≤ bound) (hybound : y.exponent ≤ bound) (hbound : bound < 900) :
    (x.add y).isFinite = true := by
  simp only [add, isNaN_eq_false hx, isNaN_eq_false hy, hx, hy, Bool.not_true,
    Bool.false_eq_true, if_false]
  generalize hbase : min x.exponent y.exponent = base
  split
  · cases x.isNegative <;> cases y.isNegative <;> rfl
  · have hxvalue : (x.scaledValue base).natAbs ≤ 2 ^ 53 * 2 ^ (bound - base).toNat :=
      natAbs_scaledValue_le hxbound
    have hyvalue : (y.scaledValue base).natAbs ≤ 2 ^ 53 * 2 ^ (bound - base).toNat :=
      natAbs_scaledValue_le hybound
    have htotal : (x.scaledValue base + y.scaledValue base).natAbs ≤
        2 ^ 54 * 2 ^ (bound - base).toNat := by
      omega
    refine isFinite_ofRatio (k := (bound + 55).toNat) ?_ (by omega)
    calc (x.scaledValue base + y.scaledValue base).natAbs * 2 ^ base.toNat
      _ ≤ 2 ^ 54 * 2 ^ (bound - base).toNat * 2 ^ base.toNat := Nat.mul_le_mul_right _ htotal
      _ = 2 ^ (54 + (bound - base).toNat + base.toNat) := by rw [Nat.pow_add, Nat.pow_add]
      _ < 2 ^ ((-base).toNat + (bound + 55).toNat) :=
        Nat.pow_lt_pow_right (by decide) (by omega)

/-- and does not depend on the order. -/
theorem add_comm_of_isFinite (hx : x.isFinite = true) (hy : y.isFinite = true) :
    x.add y = y.add x := by
  simp only [add, isNaN_eq_false hx, isNaN_eq_false hy, hx, hy, Bool.not_true,
    Bool.false_eq_true, if_false]
  rw [Int.min_comm, Int.add_comm, Bool.and_comm]

end Double

namespace Number

/-- The sum as doubles of two integers of at most 64 bits is a number, the same in either order. -/
theorem exists_realSum? {a b : Int} (ha : a.natAbs < 2 ^ 64) (hb : b.natAbs < 2 ^ 64) :
    ∃ x, realSum? (int a) (int b) = some (real x) ∧ realSum? (int b) (int a) = some (real x) := by
  have hfinite {n : Int} (hn : n.natAbs < 2 ^ 64) : (Double.ofInt n).isFinite = true :=
    Double.isFinite_ofRatio (j := 0) (k := 64) (by omega) (by decide)
  have hexponent {n : Int} (hn : n.natAbs < 2 ^ 64) : (Double.ofInt n).exponent ≤ 68 :=
    Double.exponent_ofRatio_le (j := 0) (k := 64) (by omega)
  have hsum : ((Double.ofInt a).add (Double.ofInt b)).isFinite = true :=
    Double.isFinite_add (hfinite ha) (hfinite hb) (hexponent ha) (hexponent hb) (by decide)
  refine ⟨(Double.ofInt a).add (Double.ofInt b), if_pos hsum, ?_⟩
  rw [realSum?, toDouble, toDouble, Double.add_comm_of_isFinite (hfinite hb) (hfinite ha)]
  exact if_pos hsum

end Number

end Orchestra
