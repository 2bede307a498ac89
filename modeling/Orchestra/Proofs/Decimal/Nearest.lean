import Mathlib.Algebra.Order.Field.Power
import Mathlib.Algebra.Order.Field.Rat
import Mathlib.Tactic.FieldSimp
import Mathlib.Tactic.Linarith
import Mathlib.Tactic.NormNum
import Mathlib.Tactic.Positivity
import Mathlib.Tactic.Ring
import Orchestra.Decimal.Shortest
import Orchestra.Proofs.Rounding

/-!
# The word that a ratio is rounded to

A finite word with significand `m` and exponent `e` stands for `m * 2 ^ e`, and the ratios that are rounded
to it are those at most half a gap away, where the gap below a power of two is half as wide. The ends belong
to it if the significand is even. Ratios are taken as rational numbers here, in which scaling by powers of
two is no matter of numerators and denominators.
-/

namespace Orchestra

variable {b : ℚ} {e e' : ℤ}

/-- A power with an integer exponent, as a ratio of powers with natural ones. -/
theorem pow_toNat_div (hb : b ≠ 0) (e : ℤ) : b ^ e.toNat / b ^ (-e).toNat = b ^ e := by
  rw [div_eq_iff (pow_ne_zero _ hb), ← zpow_natCast, ← zpow_natCast, ← zpow_add₀ hb]
  congr 1
  omega

namespace Double

variable {num den quotient rest n : ℕ} {r y y' : ℚ}

/-! ### Rounding to an integer -/

/-- The quotient and the remainder of a ratio that is scaled by a power of two. -/
theorem scaledQuotient_spec (num : ℕ) (hden : 0 < den) (e : ℤ) :
    ∃ quotient rest unit, scaledQuotient num den e = (quotient, rest, unit) ∧ 0 < unit ∧ rest < unit ∧
      (num / den : ℚ) = (quotient + rest / unit) * 2 ^ e := by
  have hunit : 0 < den * Nat.pow 2 e.toNat := Nat.mul_pos hden (Nat.two_pow_pos _)
  refine ⟨_, _, _, rfl, hunit, Nat.mod_lt _ hunit, ?_⟩
  generalize hscaled : num * Nat.pow 2 (-e).toNat = scaled
  generalize hunit' : den * Nat.pow 2 e.toNat = unit at hunit
  have hunit₀ : (unit : ℚ) ≠ 0 := by positivity
  have hden₀ : (den : ℚ) ≠ 0 := by positivity
  have hdivide : (scaled : ℚ) = unit * (scaled / unit : ℕ) + (scaled % unit : ℕ) := by
    exact_mod_cast (Nat.div_add_mod scaled unit).symm
  have hratio : ((scaled / unit : ℕ) + (scaled % unit : ℕ) / unit : ℚ) = scaled / unit := by
    rw [hdivide]
    field_simp
  have hscaled' : (scaled : ℚ) = num * 2 ^ (-e).toNat := by exact_mod_cast hscaled.symm
  have hunit'' : (unit : ℚ) = den * 2 ^ e.toNat := by exact_mod_cast hunit'.symm
  rw [hratio, hscaled', hunit'', ← pow_toNat_div two_ne_zero e]
  field_simp

/-- Whether a remainder is more than one half. -/
theorem lt_two_mul_iff {unit : ℕ} (hunit : 0 < unit) : unit < 2 * rest ↔ 1 / 2 < (rest / unit : ℚ) := by
  have hunit' : (0 : ℚ) < unit := by exact_mod_cast hunit
  rw [div_lt_div_iff₀ two_pos hunit', one_mul, mul_comm (rest : ℚ)]
  exact_mod_cast Iff.rfl

/-- Whether a remainder is one half. -/
theorem two_mul_eq_iff {unit : ℕ} (hunit : 0 < unit) : 2 * rest = unit ↔ (rest / unit : ℚ) = 1 / 2 := by
  have hunit' : (unit : ℚ) ≠ 0 := by positivity
  rw [div_eq_div_iff hunit' two_ne_zero, one_mul, mul_comm (rest : ℚ)]
  exact_mod_cast Iff.rfl

/-- An integer that is nearer than one half is what is rounded to, or one half away and even. -/
theorem roundHalfEven_eq {unit : ℕ} (hrest : rest < unit)
    (hnear : |(quotient + rest / unit : ℚ) - n| < 1 / 2 ∨
      |(quotient + rest / unit : ℚ) - n| = 1 / 2 ∧ n % 2 = 0) :
    roundHalfEven quotient rest unit = n := by
  have hunit : 0 < unit := Nat.zero_lt_of_lt hrest
  have hmore : unit < 2 * rest ↔ _ := lt_two_mul_iff hunit
  have htie : 2 * rest = unit ↔ _ := two_mul_eq_iff hunit
  have hpart₁ : (rest / unit : ℚ) < 1 := by
    rw [div_lt_one (by exact_mod_cast hunit)]
    exact_mod_cast hrest
  have hpart₀ : (0 : ℚ) ≤ rest / unit := by positivity
  generalize (rest / unit : ℚ) = part at hnear hmore htie hpart₀ hpart₁
  obtain ⟨hlow, hhigh⟩ := abs_le.mp (hnear.elim le_of_lt fun h => h.1.le)
  have hn : n = quotient ∨ n = quotient + 1 := by
    have hfrom : (quotient : ℚ) < (n + 1 : ℕ) := by push_cast; linarith
    have hto : (n : ℚ) < (quotient + 2 : ℕ) := by push_cast; linarith
    have hfrom' : quotient < n + 1 := by exact_mod_cast hfrom
    have hto' : n < quotient + 2 := by exact_mod_cast hto
    omega
  unfold roundHalfEven
  simp only [gt_iff_lt, hmore, htie, Bool.or_eq_true, Bool.and_eq_true, decide_eq_true_eq]
  rcases hn with rfl | rfl
  · -- it is rounded down
    rw [add_sub_cancel_left, abs_of_nonneg hpart₀] at hnear
    refine if_neg ?_
    rcases hnear with hlt | ⟨heq, heven⟩
    · rintro (hgt | ⟨heq, -⟩) <;> linarith
    · rintro (hgt | ⟨-, hodd⟩)
      · linarith
      · omega
  · -- it is rounded up
    have habs : |(quotient + part : ℚ) - (quotient + 1 : ℕ)| = 1 - part := by
      rw [show (quotient + part : ℚ) - (quotient + 1 : ℕ) = -(1 - part) by push_cast; ring, abs_neg]
      exact abs_of_pos (by linarith)
    rw [habs] at hnear
    refine if_pos ?_
    rcases hnear with hlt | ⟨heq, heven⟩
    · exact .inl (by linarith)
    · exact .inr ⟨by linarith, by omega⟩

/-! ### The exponent of the rounded word -/

/-- A ratio has its leading bit where the difference of the sizes says, or one place below. -/
theorem two_zpow_log2 (hnum : num ≠ 0) (hden : den ≠ 0) :
    (2 : ℚ) ^ ((num.log2 : ℤ) - den.log2 - 1) < num / den ∧
      (num / den : ℚ) < 2 ^ ((num.log2 : ℤ) - den.log2 + 1) := by
  have hnum₀ : (2 : ℚ) ^ (num.log2 : ℤ) ≤ num := by exact_mod_cast Nat.log2_self_le hnum
  have hnum₁ : (num : ℚ) < 2 ^ ((num.log2 : ℤ) + 1) := by exact_mod_cast Nat.lt_log2_self (n := num)
  have hden₀ : (2 : ℚ) ^ (den.log2 : ℤ) ≤ den := by exact_mod_cast Nat.log2_self_le hden
  have hden₁ : (den : ℚ) < 2 ^ ((den.log2 : ℤ) + 1) := by exact_mod_cast Nat.lt_log2_self (n := den)
  have hden₂ : (0 : ℚ) < den := by positivity
  constructor
  · rw [lt_div_iff₀ hden₂]
    calc (2 : ℚ) ^ ((num.log2 : ℤ) - den.log2 - 1) * den
      _ < 2 ^ ((num.log2 : ℤ) - den.log2 - 1) * 2 ^ ((den.log2 : ℤ) + 1) := by gcongr
      _ = 2 ^ (num.log2 : ℤ) := by
        rw [← zpow_add₀ two_ne_zero]
        congr 1
        ring
      _ ≤ num := hnum₀
  · rw [div_lt_iff₀ hden₂]
    calc (num : ℚ)
      _ < 2 ^ ((num.log2 : ℤ) + 1) := hnum₁
      _ = 2 ^ ((num.log2 : ℤ) - den.log2 + 1) * 2 ^ (den.log2 : ℤ) := by
        rw [← zpow_add₀ two_ne_zero]
        congr 1
        ring
      _ ≤ 2 ^ ((num.log2 : ℤ) - den.log2 + 1) * den := by gcongr

/-- At this exponent a ratio is rounded to a word: scaled by it the ratio has 53 bits before the point, or
fewer at the least exponent. -/
structure Fits (r : ℚ) (e : ℤ) : Prop where
  least : -1074 ≤ e
  lt : r < 2 ^ 53 * 2 ^ e
  normal : e = -1074 ∨ 2 ^ 52 * 2 ^ e ≤ r

/-- There is only one such exponent. -/
theorem Fits.unique (h : Fits r e) (h' : Fits r e') : e = e' := by
  have hnot {e e' : ℤ} (h : Fits r e) (h' : Fits r e') : ¬ e < e' := by
    intro hlt
    have hle : (2 : ℚ) ^ 52 * 2 ^ e' ≤ r := h'.normal.resolve_left (by have := h.least; omega)
    have hpow : (2 : ℚ) ^ (e + 1) ≤ 2 ^ e' := zpow_le_zpow_right₀ one_le_two hlt
    rw [zpow_add_one₀ two_ne_zero] at hpow
    have := h.lt
    linarith
  exact le_antisymm (not_lt.mp (hnot h' h)) (not_lt.mp (hnot h h'))

/-- The exponent that a ratio is scaled by. -/
def exponentOfRatio (num den : ℕ) : ℤ :=
  let e := max (-1074) ((num.log2 : ℤ) - den.log2 - 53)
  if 0x20000000000000 ≤ (scaledQuotient num den e).1 then e + 1 else e

/-- It is the exponent at which the ratio is rounded to a word. -/
theorem fits_exponentOfRatio (hnum : num ≠ 0) (hden : 0 < den) :
    Fits (num / den) (exponentOfRatio num den) := by
  obtain ⟨hlow, hhigh⟩ := two_zpow_log2 hnum hden.ne'
  unfold exponentOfRatio
  generalize hbase : max (-1074) ((num.log2 : ℤ) - den.log2 - 53) = base
  obtain ⟨quotient, rest, unit, hquotient, hunit, hrest, hratio⟩ :=
    scaledQuotient_spec num hden base
  have hpart₁ : (rest / unit : ℚ) < 1 := by
    rw [div_lt_one (by exact_mod_cast hunit)]
    exact_mod_cast hrest
  have hpart₀ : (0 : ℚ) ≤ rest / unit := by positivity
  have hpos : (0 : ℚ) < 2 ^ base := by positivity
  have hupper : (num / den : ℚ) < 2 ^ 54 * 2 ^ base := by
    refine hhigh.trans_le ?_
    rw [← zpow_natCast, ← zpow_add₀ two_ne_zero]
    exact zpow_le_zpow_right₀ one_le_two (by push_cast; omega)
  dsimp only
  rw [hquotient]
  split
  · next hlarge =>
    have hlarge' : (2 : ℚ) ^ 53 ≤ quotient := by exact_mod_cast hlarge
    refine ⟨by omega, ?_, .inr ?_⟩
    · rw [zpow_add_one₀ two_ne_zero]
      linarith
    · rw [zpow_add_one₀ two_ne_zero, hratio]
      nlinarith
  · next hsmall =>
    have hsmall' : (quotient + 1 : ℚ) ≤ 2 ^ 53 := by
      have : quotient + 1 ≤ 2 ^ 53 := by omega
      exact_mod_cast this
    refine ⟨by omega, ?_, ?_⟩
    · rw [hratio]
      nlinarith
    · rcases eq_or_ne base (-1074) with h | h
      · exact .inl h
      · refine .inr (le_trans ?_ hlow.le)
        rw [← zpow_natCast, ← zpow_add₀ two_ne_zero]
        exact zpow_le_zpow_right₀ one_le_two (by push_cast; omega)

/-- The magnitude of the word that a ratio is rounded to, by its exponent and the nearest significand. -/
theorem magnitudeOfRatio_eq (hnum : num ≠ 0) (hden : 0 < den) (hr : (num / den : ℚ) = y * 2 ^ e)
    (hfits : Fits (num / den) e) (hnear : |y - n| < 1 / 2 ∨ |y - n| = 1 / 2 ∧ n % 2 = 0) :
    magnitudeOfRatio num den =
      min ((e + 1074).toNat * 0x10000000000000 + n) infinityMagnitude := by
  obtain rfl : exponentOfRatio num den = e := (fits_exponentOfRatio hnum hden).unique hfits
  obtain ⟨quotient, rest, unit, hquotient, -, hrest, hratio⟩ :=
    scaledQuotient_spec num hden (exponentOfRatio num den)
  have hy : y = quotient + rest / unit :=
    mul_right_cancel₀ (zpow_ne_zero _ two_ne_zero) (hr.symm.trans hratio)
  have hmagnitude : magnitudeOfRatio num den =
      let scaled := scaledQuotient num den (exponentOfRatio num den)
      min ((exponentOfRatio num den + 1074).toNat * 0x10000000000000 +
        roundHalfEven scaled.1 scaled.2.1 scaled.2.2) infinityMagnitude := rfl
  rw [hmagnitude, hquotient]
  dsimp only
  rw [roundHalfEven_eq hrest (hy ▸ hnear)]

/-! ### The ratios that are rounded to a word -/

/-- The value of a finite word without its sign. -/
def modulus (x : Double) : ℚ :=
  x.significand * 2 ^ x.exponent

/-- The gap below a word is half as wide as the one above it: its significand is the least one that words
of its exponent have, and there are words of lesser exponents. -/
def Narrow (x : Double) : Prop :=
  x.significand = 0x10000000000000 ∧ 1 < x.exponentField

/-- A ratio is rounded to a word. -/
structure Near (x : Double) (r : ℚ) : Prop where
  lower : x.modulus - 2 ^ x.exponent / 2 ≤ r
  narrow : x.Narrow → x.modulus - 2 ^ x.exponent / 4 ≤ r
  upper : r ≤ x.modulus + 2 ^ x.exponent / 2
  strict : x.significand % 2 = 1 →
    x.modulus - 2 ^ x.exponent / 2 < r ∧ r < x.modulus + 2 ^ x.exponent / 2

variable {x : Double}

/-- The magnitude of a word consists of its exponent and its significand. -/
theorem magnitude_eq (x : Double) :
    (x.exponent + 1074).toNat * 0x10000000000000 + x.significand = x.magnitude := by
  have hdivide := Nat.div_add_mod x.magnitude 0x10000000000000
  unfold exponent significand fraction exponentField
  split <;> omega

theorem exponent_ge (x : Double) : -1074 ≤ x.exponent := by
  unfold exponent
  split <;> omega

/-- Words above the least exponent have a leading bit. -/
theorem significand_ge (h : x.exponent ≠ -1074) : 2 ^ 52 ≤ x.significand ∧ 1 < x.exponentField := by
  unfold exponent at h
  unfold significand
  split at h
  · contradiction
  · next hfield =>
    rw [if_neg hfield]
    omega

/-- A ratio near a word that does not lie below its leading bit is rounded at the exponent of the word. -/
theorem magnitudeOfRatio_of_normal (hnum : num ≠ 0) (hden : 0 < den) (hnear : x.Near (num / den))
    (hnormal : x.exponent = -1074 ∨ 2 ^ 52 * 2 ^ x.exponent ≤ (num / den : ℚ)) :
    magnitudeOfRatio num den = min x.magnitude infinityMagnitude := by
  obtain ⟨hlower, -, hupper, hstrict⟩ := hnear
  have hpos : (0 : ℚ) < 2 ^ x.exponent := by positivity
  have hsignificand : (x.significand + 1 : ℚ) ≤ 2 ^ 53 := by exact_mod_cast x.significand_lt
  obtain ⟨y, hy⟩ : ∃ y : ℚ, (num / den : ℚ) = y * 2 ^ x.exponent :=
    ⟨_, (div_mul_cancel₀ _ hpos.ne').symm⟩
  unfold modulus at hlower hupper hstrict
  have hlow : -(1 / 2) ≤ y - x.significand := by
    rw [hy] at hlower
    nlinarith
  have hhigh : y - x.significand ≤ 1 / 2 := by
    rw [hy] at hupper
    nlinarith
  have hfits : Fits (num / den) x.exponent := ⟨x.exponent_ge, by nlinarith, hnormal⟩
  have hround : |y - x.significand| < 1 / 2 ∨ |y - x.significand| = 1 / 2 ∧ x.significand % 2 = 0 := by
    refine (abs_le.mpr ⟨hlow, hhigh⟩).lt_or_eq.imp_right fun heq => ⟨heq, ?_⟩
    refine (Nat.mod_two_eq_zero_or_one _).resolve_right fun hodd => ?_
    obtain ⟨hlow', hhigh'⟩ := hstrict hodd
    rw [hy] at hlow' hhigh'
    refine absurd heq (ne_of_lt (abs_lt.mpr ⟨?_, ?_⟩)) <;> nlinarith
  rw [magnitudeOfRatio_eq hnum hden hy hfits hround, magnitude_eq]

/-- A ratio below the leading bit of a word, and near enough, is rounded up to it from the exponent below. -/
theorem magnitudeOfRatio_of_below (hnum : num ≠ 0) (hden : 0 < den) (hnear : x.Near (num / den))
    (hexponent : x.exponent ≠ -1074) (hbelow : (num / den : ℚ) < 2 ^ 52 * 2 ^ x.exponent) :
    magnitudeOfRatio num den = min x.magnitude infinityMagnitude := by
  obtain ⟨hlower, hnarrow, -, -⟩ := hnear
  have hpos : (0 : ℚ) < 2 ^ x.exponent := by positivity
  have hleast := x.exponent_ge
  obtain ⟨hge, hfield⟩ := significand_ge hexponent
  unfold modulus at hlower hnarrow
  have hsignificand : x.significand = 2 ^ 52 := by
    refine le_antisymm (Nat.lt_succ_iff.mp ?_) hge
    have hlt : (x.significand : ℚ) < (2 ^ 52 + 1 : ℕ) := by
      push_cast
      nlinarith
    exact_mod_cast hlt
  have hlow := hnarrow ⟨hsignificand, hfield⟩
  have htwice : (2 : ℚ) ^ x.exponent = 2 * 2 ^ (x.exponent - 1) := by
    rw [zpow_sub_one₀ two_ne_zero]
    field_simp
  have hpos' : (0 : ℚ) < 2 ^ (x.exponent - 1) := by positivity
  obtain ⟨y, hy⟩ : ∃ y : ℚ, (num / den : ℚ) = y * 2 ^ (x.exponent - 1) :=
    ⟨_, (div_mul_cancel₀ _ hpos'.ne').symm⟩
  rw [hsignificand] at hlow
  push_cast at hlow
  have hfits : Fits (num / den) (x.exponent - 1) :=
    ⟨by omega, by linarith, .inr (by linarith)⟩
  have hround : |y - (2 ^ 53 : ℕ)| < 1 / 2 ∨ |y - (2 ^ 53 : ℕ)| = 1 / 2 ∧ 2 ^ 53 % 2 = 0 := by
    rw [hy] at hlow hbelow
    have hle : |y - (2 ^ 53 : ℕ)| ≤ 1 / 2 := by
      push_cast
      refine abs_le.mpr ⟨?_, ?_⟩ <;> nlinarith
    exact hle.lt_or_eq.imp_right fun heq => ⟨heq, rfl⟩
  have hcarry : (x.exponent - 1 + 1074).toNat * 0x10000000000000 + 2 ^ 53 =
      (x.exponent + 1074).toNat * 0x10000000000000 + 2 ^ 52 := by omega
  rw [magnitudeOfRatio_eq hnum hden hy hfits hround, hcarry, ← magnitude_eq, hsignificand]

/-- A ratio near a finite word is rounded to it. -/
theorem magnitudeOfRatio_of_near (hfinite : x.isFinite = true) (hnum : num ≠ 0) (hden : 0 < den)
    (hnear : x.Near (num / den)) : magnitudeOfRatio num den = x.magnitude := by
  have hmin : min x.magnitude infinityMagnitude = x.magnitude :=
    Nat.min_eq_left (le_of_lt (of_decide_eq_true hfinite))
  rw [← hmin]
  by_cases hnormal : x.exponent = -1074 ∨ 2 ^ 52 * 2 ^ x.exponent ≤ (num / den : ℚ)
  · exact magnitudeOfRatio_of_normal hnum hden hnear hnormal
  · obtain ⟨hexponent, hbelow⟩ := not_or.mp hnormal
    exact magnitudeOfRatio_of_below hnum hden hnear hexponent (not_le.mp hbelow)

/-- A word consists of its sign and its magnitude. -/
theorem toNat_bits (x : Double) :
    x.bits.toNat = if x.isNegative then 0x8000000000000000 + x.magnitude else x.magnitude := by
  have hlt := x.bits.toNat_lt
  unfold isNegative magnitude
  split
  · next hnegative =>
    have hge := of_decide_eq_true hnegative
    omega
  · next hpositive =>
    rw [decide_eq_true_eq] at hpositive
    omega

/-- So the word is read from the ratio with its sign. -/
theorem ofRatio_of_near (hfinite : x.isFinite = true) (hnum : num ≠ 0) (hden : 0 < den)
    (hnear : x.Near (num / den)) : ofRatio x.isNegative num den = x := by
  rw [ofRatio, if_neg hnum, magnitudeOfRatio_of_near hfinite hnum hden hnear]
  dsimp only
  rw [← toNat_bits, Nat.toUInt64, UInt64.ofNat_toNat]

end Double

end Orchestra
