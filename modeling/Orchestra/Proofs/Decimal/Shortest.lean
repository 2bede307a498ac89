import Orchestra.Proofs.Decimal.Nearest

/-!
# The fewest digits lie near the word

The bounds of an interval are the ends of what is rounded to its word, so whatever the search for digits
finds is rounded to the word. It does find something: with seventeen digits the grid is finer than the
interval is wide.
-/

namespace Orchestra.Decimal

open Double

variable {x : Double} {i : Interval} {g j k l p : ℤ} {n fuel count : ℕ} {d : Digits}

/-! ### Intervals as rational numbers -/

namespace Interval

theorem scaled_le (hden : 0 < i.den) (bound : ℕ) :
    bound * Nat.pow 10 (-g).toNat ≤ n * Nat.pow 10 g.toNat * i.den ↔ (bound / i.den : ℚ) ≤ n * 10 ^ g := by
  have hden' : (0 : ℚ) < i.den := by exact_mod_cast hden
  have hunit : (0 : ℚ) < 10 ^ (-g).toNat := by positivity
  rw [← pow_toNat_div (by norm_num) g, ← mul_div_assoc, div_le_div_iff₀ hden' hunit]
  exact_mod_cast Iff.rfl

theorem le_scaled (hden : 0 < i.den) (bound : ℕ) :
    n * Nat.pow 10 g.toNat * i.den ≤ bound * Nat.pow 10 (-g).toNat ↔ (n * 10 ^ g : ℚ) ≤ bound / i.den := by
  have hden' : (0 : ℚ) < i.den := by exact_mod_cast hden
  have hunit : (0 : ℚ) < 10 ^ (-g).toNat := by positivity
  rw [← pow_toNat_div (by norm_num) g, ← mul_div_assoc, div_le_div_iff₀ hunit hden']
  exact_mod_cast Iff.rfl

/-- A decimal in an interval is between its bounds, and at one of them only if they belong to it. -/
theorem bounds_of_holds (hden : 0 < i.den) (h : i.holds n g = true) :
    (i.lower / i.den : ℚ) ≤ n * 10 ^ g ∧ (n * 10 ^ g : ℚ) ≤ i.upper / i.den ∧
      (i.closed = false → (i.lower / i.den : ℚ) < n * 10 ^ g ∧ (n * 10 ^ g : ℚ) < i.upper / i.den) := by
  unfold holds at h
  cases hclosed : i.closed with
  | true =>
    simp only [hclosed, if_true, Bool.and_eq_true, decide_eq_true_eq] at h
    exact ⟨(scaled_le hden _).mp h.1, (le_scaled hden _).mp h.2, nofun⟩
  | false =>
    simp only [hclosed, Bool.false_eq_true, if_false, Bool.and_eq_true, decide_eq_true_eq] at h
    have hlower : (i.lower / i.den : ℚ) < n * 10 ^ g :=
      not_le.mp fun hle => absurd ((le_scaled hden _).mpr hle) (Nat.not_le.mpr h.1)
    have hupper : (n * 10 ^ g : ℚ) < i.upper / i.den :=
      not_le.mp fun hle => absurd ((scaled_le hden _).mpr hle) (Nat.not_le.mpr h.2)
    exact ⟨hlower.le, hupper.le, fun _ => ⟨hlower, hupper⟩⟩

/-- What is between the bounds is in the interval. -/
theorem holds_of_lt (hden : 0 < i.den) (hlower : (i.lower / i.den : ℚ) < n * 10 ^ g)
    (hupper : (n * 10 ^ g : ℚ) < i.upper / i.den) : i.holds n g = true := by
  have hlt : i.lower * Nat.pow 10 (-g).toNat < n * Nat.pow 10 g.toNat * i.den :=
    Nat.not_le.mp fun hle => absurd ((le_scaled hden _).mp hle) (not_le.mpr hlower)
  have hlt' : n * Nat.pow 10 g.toNat * i.den < i.upper * Nat.pow 10 (-g).toNat :=
    Nat.not_le.mp fun hle => absurd ((scaled_le hden _).mp hle) (not_le.mpr hupper)
  unfold holds
  split
  · exact Bool.and_eq_true_iff.mpr ⟨decide_eq_true hlt.le, decide_eq_true hlt'.le⟩
  · exact Bool.and_eq_true_iff.mpr ⟨decide_eq_true hlt, decide_eq_true hlt'⟩

/-- The value in the interval. -/
def middle (i : Interval) : ℚ :=
  i.value / i.den

theorem below_iff (hden : 0 < i.den) : i.below k = true ↔ i.middle < 10 ^ k := by
  have hle := le_scaled (i := i) (g := k) (n := 1) hden i.value
  rw [Nat.one_mul, Nat.cast_one, one_mul, Nat.mul_comm (Nat.pow 10 k.toNat)] at hle
  rw [below, decide_eq_true_eq, ← Nat.not_le, hle, not_le, middle]

/-- The grid points around the value. -/
theorem floor_spec (hden : 0 < i.den) (g : ℤ) :
    i.floor g * 10 ^ g ≤ i.middle ∧ i.middle < (i.floor g + 1 : ℕ) * 10 ^ g := by
  have hunit : 0 < i.den * Nat.pow 10 g.toNat := Nat.mul_pos hden (Nat.pow_pos (by decide))
  have hperm (n : ℕ) : n * Nat.pow 10 g.toNat * i.den = n * (i.den * Nat.pow 10 g.toNat) := by ring
  constructor
  · refine (le_scaled hden i.value).mp ?_
    rw [hperm]
    exact Nat.div_mul_le_self _ _
  · refine not_le.mp fun hle => absurd ((le_scaled hden i.value).mpr hle) (Nat.not_le.mpr ?_)
    rw [hperm, Nat.mul_comm (i.floor g + 1)]
    exact Nat.lt_mul_div_succ _ hunit

/-! ### The search -/

/-- The least power of ten above the value, unless the search has started there. -/
theorem width_spec (h : ∃ j, k ≤ j ∧ j < k + fuel ∧ i.below j = true) :
    i.below (i.width fuel k) = true ∧
      (i.width fuel k = k ∨ i.below (i.width fuel k - 1) = false) := by
  induction fuel generalizing k with
  | zero =>
    obtain ⟨j, hkj, hjk, -⟩ := h
    omega
  | succ fuel ih =>
    rw [width]
    split
    · next hbelow => exact ⟨hbelow, .inl rfl⟩
    · next hnot =>
      obtain ⟨j, hkj, hjk, hbelow⟩ := h
      have hne : j ≠ k := by
        rintro rfl
        exact hnot hbelow
      obtain ⟨hfound, hleast⟩ := ih (k := k + 1) ⟨j, by omega, by omega, hbelow⟩
      refine ⟨hfound, .inr (hleast.elim (fun heq => ?_) id)⟩
      rw [heq, add_sub_cancel_right]
      exact Bool.eq_false_iff.mpr hnot

/-- What is found on a grid is in the interval and not zero. -/
theorem onGrid?_eq_some (h : i.onGrid? g = some d) :
    d.exponent = g ∧ d.digits ≠ 0 ∧ d.digits ≤ i.floor g + 1 ∧ i.holds d.digits g = true := by
  unfold onGrid? at h
  generalize hn : i.floor g = n at h
  dsimp only at h
  split at h
  · next hnear hfar =>
    obtain ⟨hzero, hholds⟩ := Bool.and_eq_true_iff.mp hnear
    cases h
    dsimp only
    split
    · exact ⟨rfl, bne_iff_ne.mp hzero, Nat.le_succ n, hholds⟩
    · exact ⟨rfl, Nat.succ_ne_zero n, Nat.le_refl _, hfar⟩
  · next hnear _ =>
    obtain ⟨hzero, hholds⟩ := Bool.and_eq_true_iff.mp hnear
    cases h
    exact ⟨rfl, bne_iff_ne.mp hzero, Nat.le_succ n, hholds⟩
  · next hfar =>
    cases h
    exact ⟨rfl, Nat.succ_ne_zero n, Nat.le_refl _, hfar⟩
  · contradiction

/-- Something is found on a grid if one of the points around the value is in the interval. -/
theorem isSome_onGrid? (hzero : i.floor g ≠ 0)
    (h : i.holds (i.floor g) g = true ∨ i.holds (i.floor g + 1) g = true) : (i.onGrid? g).isSome := by
  have hzero' : (i.floor g != 0) = true := bne_iff_ne.mpr hzero
  unfold onGrid?
  dsimp only
  rw [hzero', Bool.true_and]
  rcases h with h | h <;> rw [h]
  · cases i.holds (i.floor g + 1) g <;> rfl
  · cases i.holds (i.floor g) g <;> rfl

/-- The search ends at a grid on which something is found, if there is one. -/
theorem search_spec (h : ∃ c, count ≤ c ∧ c < count + fuel ∧ (i.onGrid? (p - c)).isSome) :
    ∃ c, count ≤ c ∧ c < count + fuel ∧ i.onGrid? (p - c) = some (i.search p fuel count) := by
  induction fuel generalizing count with
  | zero =>
    obtain ⟨c, hle, hlt, -⟩ := h
    omega
  | succ fuel ih =>
    rw [search]
    split
    · next hfound => exact ⟨count, Nat.le_refl _, by omega, hfound⟩
    · next hnone =>
      obtain ⟨c, hle, hlt, hsome⟩ := h
      have hne : c ≠ count := by
        rintro rfl
        rw [hnone] at hsome
        contradiction
      obtain ⟨c', hle', hlt', hfound⟩ := ih ⟨c, (by omega : count + 1 ≤ c), by omega, hsome⟩
      exact ⟨c', by omega, by omega, hfound⟩

end Interval

/-- Moving zeros into the exponent does not change the number. -/
theorem Digits.trim_spec (fuel : ℕ) (d : Digits) :
    ((d.trim fuel).digits * 10 ^ (d.trim fuel).exponent : ℚ) = d.digits * 10 ^ d.exponent ∧
      (d.trim fuel).digits ≤ d.digits := by
  induction fuel generalizing d with
  | zero => exact ⟨rfl, Nat.le_refl _⟩
  | succ fuel ih =>
    rw [trim]
    split
    · next hzero =>
      obtain ⟨hvalue, hle⟩ := ih ⟨d.digits / 10, d.exponent + 1⟩
      refine ⟨hvalue.trans ?_, Nat.le_trans hle (Nat.div_le_self _ _)⟩
      have hdigits : (d.digits : ℚ) = (d.digits / 10 : ℕ) * 10 := by
        exact_mod_cast (Nat.div_mul_cancel (Nat.dvd_of_mod_eq_zero hzero)).symm
      rw [zpow_add_one₀ (by norm_num), hdigits]
      ring
    · exact ⟨rfl, Nat.le_refl _⟩

/-! ### The interval of a word -/

/-- The estimate of the number of digits before the point that a number of so many bits has. -/
def estimate (bits : ℤ) : ℤ :=
  bits * 30103 / 100000

/-- For words the estimate is good enough to start the search of a power of ten from there. -/
theorem estimate_spec (hlow : -1075 ≤ l) (hhigh : l ≤ 1075) :
    (10 : ℚ) ^ estimate l ≤ 2 ^ l * 50 ∧ (2 : ℚ) ^ l ≤ 10 ^ estimate l * 5000 := by
  have hlarge : ∀ n < 1076, 10 ^ (n * 30103 / 100000) ≤ 2 ^ n * 50 ∧
      2 ^ n ≤ 10 ^ (n * 30103 / 100000) * 5000 := by decide +kernel
  have hsmall : ∀ n < 1076, 2 ^ n * 1 ≤ 50 * 10 ^ ((n * 30103 + 99999) / 100000) ∧
      10 ^ ((n * 30103 + 99999) / 100000) * 1 ≤ 5000 * 2 ^ n := by decide +kernel
  obtain ⟨n, rfl | rfl⟩ := l.eq_nat_or_neg
  · have hestimate : estimate n = (n * 30103 / 100000 : ℕ) := by
      unfold estimate
      omega
    rw [hestimate, zpow_natCast, zpow_natCast]
    exact_mod_cast hlarge n (by omega)
  · have hestimate : estimate (-n) = -((n * 30103 + 99999) / 100000 : ℕ) := by
      unfold estimate
      omega
    rw [hestimate, zpow_neg, zpow_neg, zpow_natCast, zpow_natCast, inv_mul_eq_div, inv_mul_eq_div,
      inv_eq_one_div, inv_eq_one_div, div_le_div_iff₀ (by positivity) (by positivity),
      div_le_div_iff₀ (by positivity) (by positivity), mul_comm, mul_comm (1 : ℚ)]
    exact_mod_cast hsmall n (by omega)

section Word

theorem den_interval_pos (x : Double) : 0 < (interval x).den :=
  Nat.two_pow_pos _

/-- The numbers in an interval are quarters of the gap. -/
theorem quarters (x : Double) (n : ℕ) :
    ((n * Nat.pow 2 (x.exponent - 2).toNat : ℕ) / (interval x).den : ℚ) = n * 2 ^ x.exponent / 4 := by
  have hden : ((interval x).den : ℚ) = 2 ^ (-(x.exponent - 2)).toNat := by
    exact_mod_cast rfl
  have hpow : ((Nat.pow 2 (x.exponent - 2).toNat : ℕ) : ℚ) = 2 ^ (x.exponent - 2).toNat := by
    exact_mod_cast rfl
  have hquarter : (2 : ℚ) ^ (x.exponent - 2) = 2 ^ x.exponent / 4 := by
    rw [zpow_sub₀ two_ne_zero]
    norm_num
  rw [Nat.cast_mul, hden, hpow, mul_div_assoc, pow_toNat_div two_ne_zero, hquarter, mul_div_assoc]

theorem middle_interval (x : Double) : (interval x).middle = x.modulus := by
  have h := quarters x (4 * x.significand)
  rw [Interval.middle, modulus]
  refine h.trans ?_
  push_cast
  ring

theorem upper_interval (x : Double) :
    ((interval x).upper / (interval x).den : ℚ) = x.modulus + 2 ^ x.exponent / 2 := by
  refine (quarters x (4 * x.significand + 2)).trans ?_
  rw [modulus]
  push_cast
  ring

theorem lower_interval (hzero : x.significand ≠ 0) [Decidable x.Narrow] :
    ((interval x).lower / (interval x).den : ℚ) =
      x.modulus - 2 ^ x.exponent / if x.Narrow then 4 else 2 := by
  have hnarrow : (decide (x.significand = 0x10000000000000) && decide (1 < x.exponentField)) =
      decide x.Narrow := by
    rw [Bool.eq_iff_iff, Bool.and_eq_true, decide_eq_true_eq, decide_eq_true_eq, decide_eq_true_eq, Narrow]
  have hlower : (interval x).lower =
      (4 * x.significand - if x.Narrow then 1 else 2) * Nat.pow 2 (x.exponent - 2).toNat := by
    simp only [interval, hnarrow, decide_eq_true_eq]
  rw [hlower, quarters, modulus]
  split
  · rw [Nat.cast_sub (by omega)]
    push_cast
    ring
  · rw [Nat.cast_sub (by omega)]
    push_cast
    ring

/-- What an interval holds is rounded to its word. -/
theorem near_of_holds (hzero : x.significand ≠ 0) (h : (interval x).holds n g = true) :
    x.Near (n * 10 ^ g) := by
  classical
  have hpos : (0 : ℚ) < 2 ^ x.exponent := by positivity
  obtain ⟨hlower, hupper, hstrict⟩ := Interval.bounds_of_holds (den_interval_pos x) h
  rw [lower_interval hzero] at hlower hstrict
  rw [upper_interval] at hupper hstrict
  refine ⟨?_, fun hnarrow => ?_, hupper, fun hodd => ?_⟩
  · split at hlower <;> linarith
  · rwa [if_pos hnarrow] at hlower
  · have hwide : ¬ x.Narrow := fun hnarrow => by
      have := hnarrow.1
      omega
    rw [if_neg hwide] at hstrict
    exact hstrict (decide_eq_false (by omega))

theorem exponent_le (hfinite : x.isFinite = true) : x.exponent ≤ 971 := by
  have hlt : x.magnitude < 0x7ff0000000000000 := of_decide_eq_true hfinite
  unfold exponent exponentField
  split <;> omega

/-- Finite words that are not zero are at least one gap above zero, and less than half a gap below the
least power of two that is not finite. -/
theorem modulus_bounds (hfinite : x.isFinite = true) (hzero : x.significand ≠ 0) :
    (2 : ℚ) ^ (-1074 : ℤ) ≤ 2 ^ x.exponent ∧ 2 ^ x.exponent ≤ x.modulus ∧
      x.modulus + 2 ^ x.exponent / 2 < 2 ^ (1024 : ℤ) := by
  have hpos : (0 : ℚ) < 2 ^ x.exponent := by positivity
  have hone : (1 : ℚ) ≤ x.significand := by exact_mod_cast Nat.one_le_iff_ne_zero.mpr hzero
  have hlt : (x.significand + 1 : ℚ) ≤ 2 ^ 53 := by exact_mod_cast x.significand_lt
  have htop : (2 : ℚ) ^ 53 * 2 ^ x.exponent ≤ 2 ^ (1024 : ℤ) := by
    rw [← zpow_natCast, ← zpow_add₀ two_ne_zero]
    refine zpow_le_zpow_right₀ one_le_two ?_
    have := exponent_le hfinite
    push_cast
    omega
  have hscaled := mul_le_mul_of_nonneg_right hlt hpos.le
  refine ⟨zpow_le_zpow_right₀ one_le_two x.exponent_ge, le_mul_of_one_le_left hpos.le hone,
    lt_of_lt_of_le ?_ htop⟩
  rw [modulus]
  linarith

/-- The number of digits before the point. -/
theorem point_spec (hfinite : x.isFinite = true) (hzero : x.significand ≠ 0) :
    (10 : ℚ) ^ ((interval x).point - 1) ≤ x.modulus ∧ x.modulus < 10 ^ (interval x).point := by
  obtain ⟨hleast, hgap, htop⟩ := modulus_bounds hfinite hzero
  have hpos : (0 : ℚ) < 2 ^ x.exponent := by positivity
  have hmiddle := middle_interval x
  have hden := den_interval_pos x
  generalize interval x = i at hmiddle hden ⊢
  have hvalue : i.value ≠ 0 := by
    intro h
    rw [Interval.middle, h, Nat.cast_zero, zero_div] at hmiddle
    linarith
  obtain ⟨hlow, hhigh⟩ := two_zpow_log2 hvalue hden.ne'
  generalize hbits : (i.value.log2 : ℤ) - i.den.log2 = bits at hlow hhigh
  rw [← Interval.middle, hmiddle] at hlow hhigh
  have hfrom : -1074 < bits + 1 := (zpow_lt_zpow_iff_right₀ (one_lt_two (α := ℚ))).mp (by linarith)
  have hto : bits - 1 < 1024 := (zpow_lt_zpow_iff_right₀ (one_lt_two (α := ℚ))).mp (by linarith)
  obtain ⟨hbelow, habove⟩ := estimate_spec (l := bits) (by omega) (by omega)
  rw [zpow_sub_one₀ two_ne_zero] at hlow
  rw [zpow_add_one₀ two_ne_zero] at hhigh
  have hpoint : i.point = i.width 6 (estimate bits - 1) := by
    rw [Interval.point, hbits, estimate]
  have hfound : i.below (estimate bits + 4) = true := by
    rw [Interval.below_iff hden, hmiddle, zpow_add₀ (by norm_num)]
    norm_num
    linarith
  have hsearch : ∃ k, estimate bits - 1 ≤ k ∧ k < estimate bits - 1 + (6 : ℕ) ∧ i.below k = true :=
    ⟨estimate bits + 4, by omega, by push_cast; omega, hfound⟩
  obtain ⟨hwidth, hstart⟩ := Interval.width_spec hsearch
  rw [← hpoint] at hwidth hstart
  rw [Interval.below_iff hden, hmiddle] at hwidth
  refine ⟨?_, hwidth⟩
  rcases hstart with heq | hnot
  · rw [heq, sub_sub, zpow_sub₀ (by norm_num)]
    norm_num
    linarith
  · rw [Bool.eq_false_iff, Ne, Interval.below_iff hden, hmiddle, not_lt] at hnot
    exact hnot

/-- With seventeen digits the grid is finer than the interval is wide, so one of the points around the value
is in the interval. -/
theorem isSome_seventeen (hfinite : x.isFinite = true) (hzero : x.significand ≠ 0) :
    ((interval x).onGrid? ((interval x).point - 17)).isSome := by
  classical
  obtain ⟨hlow, hhigh⟩ := point_spec hfinite hzero
  have hpos : (0 : ℚ) < 2 ^ x.exponent := by positivity
  have hden := den_interval_pos x
  obtain ⟨hfloor, hceil⟩ := Interval.floor_spec hden ((interval x).point - 17)
  have hupper := upper_interval x
  have hlower := lower_interval hzero
  rw [middle_interval] at hfloor hceil
  generalize (interval x).point = p at *
  have hstep : (0 : ℚ) < 10 ^ (p - 17) := by positivity
  have hgrid : (10 : ℚ) ^ (p - 1) = 10 ^ 16 * 10 ^ (p - 17) := by
    rw [← zpow_natCast, ← zpow_add₀ (by norm_num)]
    congr 1
    push_cast
    ring
  rw [hgrid] at hlow
  refine Interval.isSome_onGrid? ?_ ?_
  · intro hnone
    rw [hnone] at hceil
    push_cast at hceil
    linarith
  · by_contra hnot
    obtain ⟨hfar, hfar'⟩ := not_or.mp hnot
    have hbelow : ((interval x).floor (p - 17) * 10 ^ (p - 17) : ℚ) ≤
        (interval x).lower / (interval x).den := by
      refine not_lt.mp fun hlt => hfar (Interval.holds_of_lt hden hlt ?_)
      rw [hupper]
      linarith
    have habove : ((interval x).upper / (interval x).den : ℚ) ≤
        ((interval x).floor (p - 17) + 1 : ℕ) * 10 ^ (p - 17) := by
      refine not_lt.mp fun hlt => hfar' (Interval.holds_of_lt hden ?_ hlt)
      rw [hlower]
      split <;> linarith
    rw [hlower] at hbelow
    rw [hupper] at habove
    push_cast at habove
    rw [modulus] at hlow hbelow habove
    split at hbelow
    · next hnarrow =>
      rw [hnarrow.1] at hlow hbelow habove
      push_cast at hlow hbelow habove
      linarith
    · have hlt : (x.significand + 1 : ℚ) ≤ 2 ^ 53 := by exact_mod_cast x.significand_lt
      nlinarith

/-- The fewest digits are rounded to the word, and there are no more than seventeen of them. -/
theorem shortest_spec (hfinite : x.isFinite = true) (hzero : x.significand ≠ 0) :
    x.Near ((shortest x).digits * 10 ^ (shortest x).exponent) ∧ (shortest x).digits ≤ 10 ^ 17 := by
  have hsome := isSome_seventeen hfinite hzero
  have hsearch : ∃ c : ℕ, 1 ≤ c ∧ c < 1 + 17 ∧ ((interval x).onGrid? ((interval x).point - c)).isSome :=
    ⟨17, by decide, by decide, hsome⟩
  obtain ⟨c, hone, hcount, hfound⟩ := Interval.search_spec hsearch
  obtain ⟨hexponent, -, hle, hholds⟩ := Interval.onGrid?_eq_some hfound
  obtain ⟨hvalue, htrim⟩ := Digits.trim_spec 20 ((interval x).search (interval x).point 17 1)
  constructor
  · rw [shortest, hvalue, hexponent]
    exact near_of_holds hzero hholds
  · refine Nat.le_trans htrim (Nat.le_trans hle ?_)
    obtain ⟨hlow, hhigh⟩ := point_spec hfinite hzero
    obtain ⟨hfloor, -⟩ := Interval.floor_spec (den_interval_pos x) ((interval x).point - c)
    rw [middle_interval] at hfloor
    generalize (interval x).point = p at *
    have hstep : (0 : ℚ) < 10 ^ (p - c) := by positivity
    have hgrid : (10 : ℚ) ^ p = 10 ^ c * 10 ^ (p - c) := by
      rw [← zpow_natCast, ← zpow_add₀ (by norm_num)]
      congr 1
      ring
    have hlt : ((interval x).floor (p - c) : ℚ) < (10 ^ c : ℕ) := by
      push_cast
      refine lt_of_mul_lt_mul_right ?_ hstep.le
      rw [← hgrid]
      linarith
    have hlt' : (interval x).floor (p - c) < 10 ^ c := by exact_mod_cast hlt
    exact Nat.le_trans hlt' (Nat.pow_le_pow_right (by decide) (by omega))

end Word

end Orchestra.Decimal
