import Mathlib.Data.List.Induction
import Orchestra.Proofs.Selection

/-!
# Improvements

An entry of a list is an improvement if its key is below the keys of all earlier entries. The last
improvement is the earliest of the least, and what follows it is stale. If no part of the list has
as many stale entries as patience allows, then each improvement is followed by fewer others than
that; and there are no more improvements than keys. Both together bound the length of the list.
-/

namespace Orchestra

variable {α : Type}

/-- Whether the key of the entry at a position is below the keys of all earlier ones. -/
def improvesAt (key : α → Double) (items : List α) (position : Nat) : Bool :=
  items[position]?.any fun x => (items.take position).all fun y => (key x).below (key y)

/-- The positions of the improvements. -/
def improvements (key : α → Double) (items : List α) : List Nat :=
  (List.range items.length).filter (improvesAt key items)

/-- The number of entries up to the last improvement. -/
def upToBest (key : α → Double) (items : List α) : Nat :=
  ((improvements key items).getLast?.map (· + 1)).getD 0

/-- The number of entries after the last improvement. -/
def stale (key : α → Double) (items : List α) : Nat :=
  items.length - upToBest key items

variable {key : α → Double} {items : List α} {x y : α} {i : Nat}

@[simp] theorem improvements_nil : improvements key [] = [] := rfl

@[simp] theorem stale_nil : stale key [] = 0 := rfl

/-! ### One more entry -/

/-- A further entry does not change what the others are. -/
theorem improvesAt_append (rest : List α) (hi : i < items.length) :
    improvesAt key (items ++ rest) i = improvesAt key items i := by
  rw [improvesAt, improvesAt, List.getElem?_append_left hi,
    List.take_append_of_le_length (Nat.le_of_lt hi)]

theorem improvesAt_last : improvesAt key (items ++ [y]) items.length =
    items.all fun x => (key y).below (key x) := by
  simp [improvesAt]

theorem improvements_append : improvements key (items ++ [y]) =
    improvements key items ++
      if items.all fun x => (key y).below (key x) then [items.length] else [] := by
  have hbefore : (List.range items.length).filter (improvesAt key (items ++ [y])) =
      improvements key items :=
    List.filter_congr fun i hi => improvesAt_append [y] (List.mem_range.mp hi)
  rw [improvements, List.length_append, List.length_singleton, List.range_succ, List.filter_append,
    hbefore, List.filter_cons, improvesAt_last, List.filter_nil]

theorem improvements_append_of_improves (h : (items.all fun x => (key y).below (key x)) = true) :
    improvements key (items ++ [y]) = improvements key items ++ [items.length] := by
  rw [improvements_append, if_pos h]

theorem improvements_append_of_stale (h : (items.all fun x => (key y).below (key x)) = false) :
    improvements key (items ++ [y]) = improvements key items := by
  rw [improvements_append, h]
  exact List.append_nil _

theorem upToBest_le : upToBest key items ≤ items.length := by
  unfold upToBest
  cases hlast : (improvements key items).getLast? with
  | none => exact Nat.zero_le _
  | some i =>
    have hi := List.mem_filter.mp (List.mem_of_getLast? hlast)
    exact List.mem_range.mp hi.1

theorem upToBest_append_of_improves (h : (items.all fun x => (key y).below (key x)) = true) :
    upToBest key (items ++ [y]) = items.length + 1 := by
  rw [upToBest, improvements_append_of_improves h, List.getLast?_concat]
  rfl

theorem upToBest_append_of_stale (h : (items.all fun x => (key y).below (key x)) = false) :
    upToBest key (items ++ [y]) = upToBest key items := by
  rw [upToBest, improvements_append_of_stale h, upToBest]

/-- After an improvement nothing is stale, and after another entry one more than before. -/
theorem stale_append : stale key (items ++ [y]) =
    if items.all fun x => (key y).below (key x) then 0 else stale key items + 1 := by
  have hle : upToBest key items ≤ items.length := upToBest_le
  rw [stale, stale, List.length_append, List.length_singleton]
  cases h : items.all fun x => (key y).below (key x) with
  | true => rw [upToBest_append_of_improves h, if_pos rfl, Nat.sub_self]
  | false =>
    rw [upToBest_append_of_stale h, if_neg Bool.false_ne_true]
    omega

/-! ### The last improvement -/

namespace EarliestLeast

/-- To improve on all entries is to improve on the least. -/
theorem all_below (h : EarliestLeast key items i x) :
    (items.all fun z => (key y).below (key z)) = (key y).below (key x) := by
  rw [Bool.eq_iff_iff, List.all_eq_true, Double.below_iff]
  constructor
  · exact fun hall => Double.below_iff.mp (hall x (List.mem_of_getElem? h.entry))
  · exact fun hlt z hz => Double.below_iff.mpr (Int.lt_of_lt_of_le hlt (h.least z hz))

/-- Of a list with a further entry it is that entry, if that improves, and else what it was. -/
theorem of_append (h : EarliestLeast key (items ++ [y]) i x) :
    ((items.all fun z => (key y).below (key z)) = true ∧ i = items.length ∧ x = y) ∨
      (items.all fun z => (key y).below (key z)) = false ∧ EarliestLeast key items i x := by
  by_cases hnil : items = []
  · subst hnil
    exact .inl ⟨rfl, h.unique (.singleton key y)⟩
  · obtain ⟨j, z, hz, -⟩ := Tracker.exists_earliestLeast key items hnil
    rw [hz.all_below]
    cases hbelow : (key y).below (key z) with
    | true => exact .inl ⟨rfl, h.unique (hz.append_of_lt (Double.below_iff.mp hbelow))⟩
    | false =>
      have hle : (key z).rank ≤ (key y).rank :=
        Int.not_lt.mp fun hlt => Bool.false_ne_true (hbelow.symm.trans (Double.below_iff.mpr hlt))
      obtain ⟨rfl, rfl⟩ := h.unique (hz.append_of_le hle)
      exact .inr ⟨rfl, hz⟩

/-- It is the last improvement. -/
theorem upToBest_eq (h : EarliestLeast key items i x) : upToBest key items = i + 1 := by
  induction items using List.reverseRecOn with
  | nil => exact absurd h.entry nofun
  | append_singleton items y ih =>
    rcases h.of_append with ⟨himproves, rfl, -⟩ | ⟨hstale, h⟩
    · exact upToBest_append_of_improves himproves
    · rw [upToBest_append_of_stale hstale, ih h]

end EarliestLeast

/-! ### How long a list may be -/

/-- No part of a list has as many stale entries as patience allows, except perhaps the whole. -/
def Patient (patience : Nat) (key : α → Double) (items : List α) : Prop :=
  ∀ n, 0 < n → n < items.length → stale key (items.take n) < patience

variable {patience : Nat}

theorem Patient.nil : Patient patience key [] :=
  fun _ _ h => absurd h (Nat.not_lt_zero _)

theorem patient_append_iff : Patient patience key (items ++ [y]) ↔
    Patient patience key items ∧ (items ≠ [] → stale key items < patience) := by
  constructor
  · refine fun h => ⟨fun n hpos hn => ?_, fun hne => ?_⟩
    · have hpart := h n hpos (List.length_append ▸ Nat.lt_add_right _ hn)
      rwa [List.take_append_of_le_length (Nat.le_of_lt hn)] at hpart
    · have hlast := h items.length (List.length_pos_iff.mpr hne) (by simp)
      rwa [List.take_left' rfl] at hlast
  · rintro ⟨hbefore, hlast⟩ n hpos hn
    rw [List.length_append, List.length_singleton, Nat.lt_succ_iff] at hn
    rw [List.take_append_of_le_length hn]
    rcases Nat.lt_or_eq_of_le hn with hlt | rfl
    · exact hbefore n hpos hlt
    · rw [List.take_length]
      exact hlast (List.length_pos_iff.mp hpos)

namespace Patient

/-- The whole list has no more stale entries than patience allows. -/
theorem stale_le (h : Patient patience key items) : stale key items ≤ patience := by
  cases items using List.reverseRecOn with
  | nil => exact Nat.zero_le _
  | append_singleton items y =>
    obtain ⟨-, hlast⟩ := patient_append_iff.mp h
    rw [stale_append]
    split
    · exact Nat.zero_le _
    · next hstale =>
      exact hlast fun hnil => hstale (by rw [hnil]; rfl)

/-- Each improvement but the last one is followed by fewer others than patience allows. -/
theorem length_add_le (h : Patient patience key items) (hne : items ≠ []) :
    items.length + patience ≤
      (improvements key items).length * patience + 1 + stale key items := by
  induction items using List.reverseRecOn with
  | nil => contradiction
  | append_singleton items y ih =>
    obtain ⟨hbefore, hlast⟩ := patient_append_iff.mp h
    by_cases hnil : items = []
    · subst hnil
      have hone : (improvements key ([] ++ [y])).length = 1 := rfl
      rw [hone, List.length_append]
      simp only [List.length_nil, List.length_singleton]
      omega
    · have hle := ih hbefore hnil
      have hlt := hlast hnil
      rw [stale_append, List.length_append, List.length_singleton]
      cases himproves : items.all fun x => (key y).below (key x) with
      | true =>
        rw [improvements_append_of_improves himproves, List.length_append, List.length_singleton,
          Nat.add_mul, Nat.one_mul, if_pos rfl]
        omega
      | false =>
        rw [improvements_append_of_stale himproves, if_neg Bool.false_ne_true]
        omega

theorem length_le (h : Patient patience key items) :
    items.length ≤ (improvements key items).length * patience + 1 := by
  by_cases hnil : items = []
  · subst hnil
    exact Nat.zero_le _
  · have hlength := h.length_add_le hnil
    have hstale := h.stale_le
    omega

end Patient

/-! ### How many improvements there are -/

theorem Double.magnitude_lt (x : Double) : x.magnitude < 0x8000000000000000 :=
  Nat.mod_lt _ (by decide)

theorem Double.rank_lt (x : Double) : x.rank < 0x8000000000000000 := by
  have hlt := x.magnitude_lt
  unfold rank
  split <;> omega

theorem Double.le_rank (x : Double) : -0x8000000000000000 ≤ x.rank := by
  have hlt := x.magnitude_lt
  unfold rank
  split <;> omega

/-- Each improvement has a smaller key than the one before it. -/
theorem EarliestLeast.improvements_le (h : EarliestLeast key items i x) :
    ((improvements key items).length : Int) ≤ 0x8000000000000000 - (key x).rank := by
  induction items using List.reverseRecOn generalizing i x with
  | nil => exact absurd h.entry nofun
  | append_singleton items y ih =>
    rcases h.of_append with ⟨himproves, -, rfl⟩ | ⟨hstale, h⟩
    · rw [improvements_append_of_improves himproves, List.length_append, List.length_singleton]
      by_cases hnil : items = []
      · have hlt := (key x).rank_lt
        rw [hnil, improvements_nil, List.length_nil]
        omega
      · obtain ⟨j, z, hz, -⟩ := Tracker.exists_earliestLeast key items hnil
        have hlt := Double.below_iff.mp (hz.all_below.symm.trans himproves)
        have hle := ih hz
        omega
    · rw [improvements_append_of_stale hstale]
      exact ih h

/-- There are no more improvements than words of 64 bits. -/
theorem length_improvements_le : (improvements key items).length ≤ UInt64.size := by
  by_cases hnil : items = []
  · subst hnil
    exact Nat.zero_le _
  · obtain ⟨i, x, hx, -⟩ := Tracker.exists_earliestLeast key items hnil
    have hle := hx.improvements_le
    have hrank := (key x).le_rank
    rw [UInt64.size]
    omega

end Orchestra
