import Orchestra.Proofs.Info.Regrouping
import Orchestra.Proofs.Rounding

/-!
# Integers in metadata

Where two metadata have integers under the same keys, a merge leaves their sum. Two signed words are
added as signed words and two that are not negative as unsigned ones. So a sum that could be represented
is not found in two cases: two signed words may have a sum beyond the signed ones, upon which the first
one stays, and a negative integer and one beyond the signed words are added as doubles.
-/

namespace Orchestra

namespace Number

/-- An integer is represented exactly: as a signed or as an unsigned word. -/
def Representable (n : Int) : Prop :=
  fitsSigned n = true ∨ fitsUnsigned n = true

theorem representable_iff {n : Int} :
    Representable n ↔ -0x8000000000000000 ≤ n ∧ n < 0x10000000000000000 := by
  simp only [Representable, fitsSigned, fitsUnsigned, Bool.and_eq_true, decide_eq_true_eq]
  omega

/-- Two integers that are not beyond the signed words, with a sum that is. -/
def Overflows (a b : Int) : Prop :=
  a < 0x8000000000000000 ∧ b < 0x8000000000000000 ∧ 0x8000000000000000 ≤ a + b

/-- A negative integer and one beyond the signed words. -/
def Mixed (a b : Int) : Prop :=
  min a b < 0 ∧ 0x8000000000000000 ≤ max a b

variable {a b : Int}

theorem Overflows.symm (h : Overflows a b) : Overflows b a :=
  ⟨h.2.1, h.1, Int.add_comm a b ▸ h.2.2⟩

theorem Mixed.symm (h : Mixed a b) : Mixed b a := by
  rwa [Mixed, Int.min_comm, Int.max_comm]

/-- The sum is found, -/
theorem add?_eq_some (ha : Representable a) (hb : Representable b) (hsum : Representable (a + b))
    (hover : ¬ Overflows a b) (hmixed : ¬ Mixed a b) :
    (int a).add? (int b) = some (int (a + b)) := by
  rw [representable_iff] at ha hb hsum
  rw [Overflows] at hover
  rw [Mixed] at hmixed
  simp only [add?, fitsSigned, fitsUnsigned, Bool.and_eq_true, decide_eq_true_eq]
  split
  · rw [if_pos (by omega)]
  · rw [if_pos (by omega), if_pos (by omega)]

/-- or there is none, -/
theorem Overflows.add?_eq_none (ha : Representable a) (hb : Representable b) (h : Overflows a b) :
    (int a).add? (int b) = none := by
  rw [representable_iff] at ha hb
  obtain ⟨hlow, hlow', hhigh⟩ := h
  simp only [add?, fitsSigned, fitsUnsigned, Bool.and_eq_true, decide_eq_true_eq]
  rw [if_pos (by omega), if_neg (by omega)]

/-- or they are added as doubles, -/
theorem Mixed.add?_eq_realSum? (ha : Representable a) (hb : Representable b) (h : Mixed a b) :
    (int a).add? (int b) = realSum? (int a) (int b) := by
  rw [representable_iff] at ha hb
  rw [Mixed] at h
  simp only [add?, fitsSigned, fitsUnsigned, Bool.and_eq_true, decide_eq_true_eq]
  rw [if_neg (by omega), if_neg (by omega)]

/-- and there is a double. -/
theorem Mixed.add?_eq_some (ha : Representable a) (hb : Representable b) (h : Mixed a b) :
    ∃ x, (int a).add? (int b) = some (real x) ∧ (int b).add? (int a) = some (real x) := by
  rw [h.add?_eq_realSum? ha hb, h.symm.add?_eq_realSum? hb ha]
  rw [representable_iff] at ha hb
  exact exists_realSum? (by omega) (by omega)

end Number

namespace Info

/-- For all metadata, and all integers that they have at the end of the same path of keys, each of them
represented as a word and with a sum that could be. A merge leaves the sum there in either order, unless
two integers that are not beyond the signed words have a sum that is, or one is negative and the other
beyond the signed words. In the first of these cases the integer stays that was there before, and not
the sum; in the second a double is left, which is the same in either order. -/
theorem merges_integers {left right : Info} (hleft : left.Tidy) (hright : right.Tidy)
    {path : List String} {a b : Int} (ha : left.toJson.at? path = some (.num (.int a)))
    (hb : right.toJson.at? path = some (.num (.int b))) (worda : Number.Representable a)
    (wordb : Number.Representable b) (wordsum : Number.Representable (a + b)) :
    let holds (info : Info) (n : Number) : Prop := info.toJson.at? path = some (.num n)
    (¬ Number.Overflows a b → ¬ Number.Mixed a b →
      holds (left.merge right) (.int (a + b)) ∧ holds (right.merge left) (.int (a + b))) ∧
    (Number.Overflows a b → holds (left.merge right) (.int a) ∧
      holds (right.merge left) (.int b) ∧ a ≠ a + b ∧ b ≠ a + b) ∧
    (Number.Mixed a b →
      ∃ x, holds (left.merge right) (.real x) ∧ holds (right.merge left) (.real x)) := by
  intro holds
  have hmerge : holds (left.merge right) (((Number.int a).add? (.int b)).getD (.int a)) :=
    Json.at?_merge_of_some hleft hright ha hb
  have hmerge' : holds (right.merge left) (((Number.int b).add? (.int a)).getD (.int b)) :=
    Json.at?_merge_of_some hright hleft hb ha
  refine ⟨fun hover hmixed => ?_, fun hover => ?_, fun hmixed => ?_⟩
  · have wordsum' : Number.Representable (b + a) := Int.add_comm a b ▸ wordsum
    rw [Number.add?_eq_some worda wordb wordsum hover hmixed] at hmerge
    rw [Number.add?_eq_some wordb worda wordsum' (mt .symm hover) (mt .symm hmixed),
      Int.add_comm b a] at hmerge'
    exact ⟨hmerge, hmerge'⟩
  · rw [hover.add?_eq_none worda wordb] at hmerge
    rw [hover.symm.add?_eq_none wordb worda] at hmerge'
    obtain ⟨hlow, hlow', hhigh⟩ := hover
    exact ⟨hmerge, hmerge', by omega, by omega⟩
  · obtain ⟨x, hsum, hsum'⟩ := hmixed.add?_eq_some worda wordb
    rw [hsum] at hmerge
    rw [hsum'] at hmerge'
    exact ⟨x, hmerge, hmerge'⟩

/-- A counter beyond the signed words and a small one are added in either order, also in an object
within. -/
theorem merges_integers_of_counting :
    let large := counting 0x8000000000000000
    let small := counting 1
    let holds (info : Info) (n : Int) : Prop :=
      info.toJson.at? ["inner", "calls"] = some (.num (.int n))
    holds (large.merge small) 0x8000000000000001 ∧ holds (small.merge large) 0x8000000000000001 := by
  intro large small holds
  have hlarge : holds large 0x8000000000000000 := rfl
  have hsmall : holds small 1 := rfl
  obtain ⟨hsum, -, -⟩ := merges_integers (tidy_counting 0x8000000000000000) (tidy_counting 1)
    hlarge hsmall (.inr (by decide)) (.inr (by decide)) (.inr (by decide))
  exact hsum (by unfold Number.Overflows; decide) (by unfold Number.Mixed; decide)

/-- The sum of the largest signed word and 1 is an unsigned word, and yet a merge leaves the one that
was there before. -/
theorem merge_of_largest :
    let largest : Info := ⟨[("k", .num (.int 0x7fffffffffffffff))]⟩
    let one : Info := ⟨[("k", .num (.int 1))]⟩
    fitsSigned 0x7fffffffffffffff = true ∧ fitsSigned 1 = true ∧
      fitsUnsigned (0x7fffffffffffffff + 1) = true ∧
      (largest.merge one).get? "k" = some (.num (.int 0x7fffffffffffffff)) ∧
      (one.merge largest).get? "k" = some (.num (.int 1)) ∧
      (largest.merge one).get? "k" ≠ some (.num (.int (0x7fffffffffffffff + 1))) := by
  intro largest one
  have hstays : (largest.merge one).get? "k" = some (.num (.int 0x7fffffffffffffff)) := by
    with_unfolding_all rfl
  refine ⟨by decide, by decide, by decide, hstays, by with_unfolding_all rfl, ?_⟩
  rw [hstays]
  simp

end Info

end Orchestra
