import Orchestra.Proofs.Improvements

/-!
# What a tracker has been offered

A tracker sees its candidates one by one and holds no more than the best of them, a counter and the
positions of its updates. It has nevertheless recorded the improvements among all of them: each update
is a candidate whose key is below all keys before, and the last one is the earliest of the least, which a
search through the whole list would find.
-/

namespace Orchestra

variable {α : Type} {key : α → Double} {items : List α} {x y : α} {i : Nat}

/-! ### Improvements of a list -/

/-- An entry is an improvement if the keys of all earlier ones are above its own. -/
theorem mem_improvements : i ∈ improvements key items ↔
    ∃ x, items[i]? = some x ∧ ∀ j < i, ∀ y, items[j]? = some y → (key x).rank < (key y).rank := by
  have hmem (y : α) : y ∈ items.take i ↔ ∃ j < i, items[j]? = some y := by
    rw [List.mem_iff_getElem?]
    refine exists_congr fun j => ?_
    rw [List.getElem?_take, ite_eq_iff]
    simp
  have hall (x : α) : ((items.take i).all fun y => (key x).below (key y)) = true ↔
      ∀ j < i, ∀ y, items[j]? = some y → (key x).rank < (key y).rank := by
    simp only [List.all_eq_true, Double.below_iff, hmem]
    exact ⟨fun h j hj y hy => h y ⟨j, hj, hy⟩, fun h y ⟨j, hj, hy⟩ => h j hj y hy⟩
  rw [improvements, List.mem_filter, List.mem_range, improvesAt]
  constructor
  · rintro ⟨hi, himproves⟩
    rw [List.getElem?_eq_getElem hi, Option.any_some, hall] at himproves
    exact ⟨items[i], List.getElem?_eq_getElem hi, himproves⟩
  · rintro ⟨x, hx, hbelow⟩
    refine ⟨(List.getElem?_eq_some_iff.mp hx).1, ?_⟩
    rw [hx, Option.any_some, hall]
    exact hbelow

theorem improvements_increasing : (improvements key items).Pairwise (· < ·) :=
  List.pairwise_lt_range.filter _

/-- The first entry is one, -/
theorem head?_improvements (h : items ≠ []) : (improvements key items).head? = some 0 := by
  cases items with
  | nil => contradiction
  | cons x rest =>
    rw [improvements, List.length_cons, List.range_succ_eq_map, List.filter_cons_of_pos rfl]
    rfl

/-- and the earliest of the least is the last one. -/
theorem EarliestLeast.getLast?_improvements (h : EarliestLeast key items i x) :
    (improvements key items).getLast? = some i := by
  have hup := h.upToBest_eq
  rw [upToBest] at hup
  cases hlast : (improvements key items).getLast? with
  | none =>
    rw [hlast] at hup
    contradiction
  | some j =>
    rw [hlast] at hup
    exact congrArg some (Nat.succ.inj hup)

/-! ### Trackers -/

namespace Tracker

/-- The tracker to which some candidates were offered, one after the other. -/
def ofOffers (key : α → Double) (items : List α) : Tracker α :=
  items.foldl (fun t x => t.offer (key x) x) .empty

theorem ofOffers_append : ofOffers key (items ++ [x]) = (ofOffers key items).offer (key x) x :=
  List.foldl_append

/-- It holds the earliest of the least. -/
theorem best_ofOffers (h : EarliestLeast key items i x) :
    (ofOffers key items).best = some (key x, x) := by
  obtain ⟨j, y, hy, hbest⟩ :=
    exists_earliestLeast key items (List.ne_nil_of_mem (List.mem_of_getElem? h.entry))
  rw [(h.unique hy).2]
  exact hbest

theorem value?_ofOffers : (ofOffers key items).value? = some x ↔ ∃ i, EarliestLeast key items i x := by
  constructor
  · intro hvalue
    have hne : items ≠ [] := by
      rintro rfl
      contradiction
    obtain ⟨i, y, hy, -⟩ := exists_earliestLeast key items hne
    rw [value?, best_ofOffers hy] at hvalue
    cases hvalue
    exact ⟨i, hy⟩
  · rintro ⟨i, hx⟩
    rw [value?, best_ofOffers hx]
    rfl

/-- Its key is the least of all keys, in whatever order the candidates came. -/
theorem key?_ofOffers {k : Double} : (ofOffers key items).key? = some k ↔
    (∃ x ∈ items, key x = k) ∧ ∀ x ∈ items, k.rank ≤ (key x).rank := by
  by_cases hnil : items = []
  · subst hnil
    simp [key?, ofOffers, empty]
  · obtain ⟨i, x, hx, -⟩ := exists_earliestLeast key items hnil
    rw [key?, best_ofOffers hx, Option.map_some, Option.some_inj]
    constructor
    · rintro rfl
      exact ⟨⟨x, List.mem_of_getElem? hx.entry, rfl⟩, hx.least⟩
    · rintro ⟨⟨y, hy, rfl⟩, hle⟩
      exact Double.rank_injective (Int.le_antisymm (hx.least y hy)
        (hle x (List.mem_of_getElem? hx.entry)))

theorem key?_ofOffers_perm {items' : List α} (h : items'.Perm items) :
    (ofOffers key items').key? = (ofOffers key items).key? := by
  refine Option.ext fun k => ?_
  rw [key?_ofOffers, key?_ofOffers]
  simp only [h.mem_iff]

/-- A further candidate improves on what it holds if it improves on all before. -/
theorem improves_ofOffers : (ofOffers key items).improves (key y) =
    items.all fun x => (key y).below (key x) := by
  by_cases hnil : items = []
  · subst hnil
    rfl
  · obtain ⟨j, x, hx, -⟩ := exists_earliestLeast key items hnil
    rw [hx.all_below, improves, best_ofOffers hx]

theorem observed_offer (t : Tracker α) (k : Double) (x : α) :
    (t.offer k x).observed = t.observed + 1 := by
  unfold offer
  split <;> rfl

/-- It has counted them all, -/
theorem observed_ofOffers : (ofOffers key items).observed = items.length := by
  induction items using List.reverseRecOn with
  | nil => rfl
  | append_singleton items x ih =>
    rw [ofOffers_append, observed_offer, ih, List.length_append, List.length_singleton]

/-- and its updates are the improvements. -/
theorem updates_ofOffers : (ofOffers key items).updates = improvements key items := by
  induction items using List.reverseRecOn with
  | nil => rfl
  | append_singleton items x ih =>
    rw [ofOffers_append, improvements_append, offer, improves_ofOffers]
    split
    · rw [← ih, ← @observed_ofOffers α key]
    · rw [List.append_nil]
      exact ih

/-- What a tracker says of the candidates that it was offered, of which one at a position is the best. -/
structure Follows (t : Tracker α) (key : α → Double) (items : List α) (position : Nat) (x : α) :
    Prop where
  held : t.value? = some x
  heldKey : t.key? = some (key x)
  observed : t.observed = items.length
  increasing : t.updates.Pairwise (· < ·)
  update : ∀ i, i ∈ t.updates ↔
    ∃ y, items[i]? = some y ∧ ∀ j < i, ∀ z, items[j]? = some z → (key y).rank < (key z).rank
  first : t.updates.head? = some 0
  last : t.updates.getLast? = some position

theorem follows_ofOffers (h : EarliestLeast key items i x) :
    (ofOffers key items).Follows key items i x where
  held := congrArg (Option.map Prod.snd) (best_ofOffers h)
  heldKey := congrArg (Option.map Prod.fst) (best_ofOffers h)
  observed := observed_ofOffers
  increasing := updates_ofOffers ▸ improvements_increasing
  update _ := updates_ofOffers ▸ mem_improvements
  first := updates_ofOffers ▸
    head?_improvements (List.ne_nil_of_mem (List.mem_of_getElem? h.entry))
  last := updates_ofOffers ▸ h.getLast?_improvements

end Tracker

end Orchestra
