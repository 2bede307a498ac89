import Mathlib.Data.List.Induction
import Orchestra.Leaf.Plain

/-!
# The earliest of the least

A search through a list and a tracker that is offered its entries one by one come to the same entry: the
one with the least key, and of several the earliest. Keys are compared by rank, so that NaNs and zeros of
either sign have their places too.
-/

namespace Orchestra

/-- The entry at a position has the least key, and every earlier entry has a greater one. -/
structure EarliestLeast {α : Type} (key : α → Double) (items : List α) (position : Nat) (x : α) :
    Prop where
  entry : items[position]? = some x
  least : ∀ y ∈ items, (key x).rank ≤ (key y).rank
  first : ∀ i < position, ∀ y, items[i]? = some y → (key x).rank < (key y).rank

namespace EarliestLeast

variable {α : Type} {key : α → Double} {items : List α} {i j : Nat} {x y : α}

/-- There is only one. -/
theorem unique (h : EarliestLeast key items i x) (h' : EarliestLeast key items j y) :
    i = j ∧ x = y := by
  have hx := h'.least x (List.mem_of_getElem? h.entry)
  have hy := h.least y (List.mem_of_getElem? h'.entry)
  have hij : i = j := by
    rcases Nat.lt_trichotomy i j with hlt | heq | hgt
    · have hfirst := h'.first i hlt x h.entry
      omega
    · exact heq
    · have hfirst := h.first j hgt y h'.entry
      omega
  refine ⟨hij, Option.some.inj ?_⟩
  rw [← h.entry, hij, h'.entry]

theorem singleton (key : α → Double) (x : α) : EarliestLeast key [x] 0 x where
  entry := rfl
  least := by simp
  first := by simp

/-- Entries behind it that are no smaller leave it in its place, -/
theorem append (h : EarliestLeast key items i x) {after : List α}
    (hle : ∀ y ∈ after, (key x).rank ≤ (key y).rank) : EarliestLeast key (items ++ after) i x := by
  have hi : i < items.length := (List.getElem?_eq_some_iff.mp h.entry).1
  constructor
  · rw [List.getElem?_append_left hi]
    exact h.entry
  · intro z hz
    rcases List.mem_append.mp hz with hz | hz
    · exact h.least z hz
    · exact hle z hz
  · intro k hk z hz
    rw [List.getElem?_append_left (Nat.lt_trans hk hi)] at hz
    exact h.first k hk z hz

/-- and greater ones ahead of it only shift it. -/
theorem prepend (h : EarliestLeast key items i x) {before : List α}
    (hlt : ∀ y ∈ before, (key x).rank < (key y).rank) :
    EarliestLeast key (before ++ items) (before.length + i) x := by
  constructor
  · rw [List.getElem?_append_right (Nat.le_add_right ..), Nat.add_sub_cancel_left]
    exact h.entry
  · intro z hz
    rcases List.mem_append.mp hz with hz | hz
    · exact Int.le_of_lt (hlt z hz)
    · exact h.least z hz
  · intro k hk z hz
    by_cases hbefore : k < before.length
    · rw [List.getElem?_append_left hbefore] at hz
      exact hlt z (List.mem_of_getElem? hz)
    · rw [List.getElem?_append_right (Nat.not_lt.mp hbefore)] at hz
      exact h.first (k - before.length) (by omega) z hz

/-- A further entry takes its place if its key is smaller, -/
theorem append_of_lt (h : EarliestLeast key items i x) (hlt : (key y).rank < (key x).rank) :
    EarliestLeast key (items ++ [y]) items.length y :=
  (singleton key y).prepend fun z hz => Int.lt_of_lt_of_le hlt (h.least z hz)

/-- and leaves it otherwise. -/
theorem append_of_le (h : EarliestLeast key items i x) (hle : (key x).rank ≤ (key y).rank) :
    EarliestLeast key (items ++ [y]) i x :=
  h.append fun z hz => by rwa [List.mem_singleton.mp hz]

/-- What holds of all entries under a map holds of the entries before it. -/
theorem of_map {β : Type} {f : β → α} {items : List β} {x : α}
    (h : EarliestLeast key (items.map f) i x) :
    ∃ b, x = f b ∧ EarliestLeast (key ∘ f) items i b := by
  obtain ⟨b, hb, hx⟩ := Option.map_eq_some_iff.mp ((List.getElem?_map ..).symm.trans h.entry)
  subst hx
  refine ⟨b, rfl, hb, fun c hc => h.least (f c) (List.mem_map_of_mem hc), fun k hk c hc => ?_⟩
  refine h.first k hk (f c) ?_
  rw [List.getElem?_map, hc]
  rfl

end EarliestLeast

theorem Double.below_iff {x y : Double} : x.below y = true ↔ x.rank < y.rank :=
  decide_eq_true_iff

/-! ### Trackers -/

/-- A tracker to which all entries were offered holds the earliest of the least. -/
theorem Tracker.exists_earliestLeast {α : Type} (key : α → Double) (items : List α)
    (h : items ≠ []) : ∃ position x, EarliestLeast key items position x ∧
      (items.foldl (fun t x => t.offer (key x) x) Tracker.empty).best = some (key x, x) := by
  induction items using List.reverseRecOn with
  | nil => contradiction
  | append_singleton items y ih =>
    rw [List.foldl_append]
    by_cases hnil : items = []
    · subst hnil
      exact ⟨0, y, .singleton key y, rfl⟩
    · obtain ⟨position, x, hx, hbest⟩ := ih hnil
      generalize items.foldl (fun t x => t.offer (key x) x) Tracker.empty = t at hbest
      have himproves : t.improves (key y) = (key y).below (key x) := by
        simp only [improves, hbest]
      simp only [List.foldl_cons, List.foldl_nil, offer, himproves]
      split
      · next hlt => exact ⟨_, y, hx.append_of_lt (Double.below_iff.mp hlt), rfl⟩
      · next hle =>
        rw [Double.below_iff, Int.not_lt] at hle
        exact ⟨position, x, hx.append_of_le hle, hbest⟩

/-! ### Searching a list -/

theorem bestPosition_append (key : Key) (position : Nat) (best : Option (Nat × Double))
    (items rest : List State) : bestPosition key position best (items ++ rest) =
      bestPosition key (position + items.length) (bestPosition key position best items) rest := by
  induction items generalizing position best with
  | nil => rfl
  | cons s items ih =>
    rw [List.cons_append, bestPosition, ih, bestPosition, List.length_cons, Nat.add_assoc,
      Nat.add_comm 1]

/-- The search finds the earliest of the least. -/
theorem exists_bestPosition (key : Key) (items : List State) (h : items ≠ []) :
    ∃ position s, EarliestLeast key items position s ∧
      bestPosition key 0 none items = some (position, key s) := by
  induction items using List.reverseRecOn with
  | nil => contradiction
  | append_singleton items y ih =>
    rw [bestPosition_append, Nat.zero_add]
    by_cases hnil : items = []
    · subst hnil
      exact ⟨0, y, .singleton key y, rfl⟩
    · obtain ⟨position, s, hs, hbest⟩ := ih hnil
      simp only [hbest, bestPosition, betterPosition]
      split
      · next hlt => exact ⟨_, y, hs.append_of_lt (Double.below_iff.mp hlt), rfl⟩
      · next hle =>
        rw [Double.below_iff, Int.not_lt] at hle
        exact ⟨position, s, hs.append_of_le hle, rfl⟩

/-! ### The key of data -/

theorem Double.least_eq_or (x y : Double) : Double.least x y = x ∨ Double.least x y = y := by
  unfold Double.least
  split
  · exact .inr rfl
  · exact .inl rfl

theorem Double.rank_least_le (x y : Double) :
    (Double.least x y).rank ≤ x.rank ∧ (Double.least x y).rank ≤ y.rank := by
  unfold Double.least
  split
  · next hlt => exact ⟨Int.le_of_lt (Double.below_iff.mp hlt), Int.le_refl _⟩
  · next hle =>
    rw [Double.below_iff, Int.not_lt] at hle
    exact ⟨Int.le_refl _, hle⟩

/-- The least of some words is one of them, and none of them is below it. -/
theorem Double.leastOf?_spec {words : List Double} {x : Double} (h : Double.leastOf? words = some x) :
    x ∈ words ∧ ∀ y ∈ words, x.rank ≤ y.rank := by
  cases words with
  | nil => cases h
  | cons first rest =>
    obtain rfl := Option.some.inj h
    clear h
    induction rest generalizing first with
    | nil => simp
    | cons y rest ih =>
      obtain ⟨hmem, hle⟩ := ih (Double.least first y)
      obtain ⟨hleft, hright⟩ := Double.rank_least_le first y
      have hfirst := hle _ List.mem_cons_self
      rw [List.foldl_cons]
      refine ⟨?_, fun z hz => ?_⟩
      · rcases List.mem_cons.mp hmem with heq | hrest
        · rw [heq]
          rcases Double.least_eq_or first y with h | h <;> simp [h]
        · exact List.mem_cons_of_mem _ (List.mem_cons_of_mem _ hrest)
      · simp only [List.mem_cons] at hz
        rcases hz with rfl | rfl | hz
        · exact Int.le_trans hfirst hleft
        · exact Int.le_trans hfirst hright
        · exact hle z (List.mem_cons_of_mem _ hz)

/-- What the key of data is to be: the least of the keys of its states, or infinity if it has none. -/
inductive Data.HasKey (key : Key) (d : Data) : Double → Prop
  | empty (none : d.states = []) : HasKey key d .infinity
  | least {position : Nat} {s : State} (earliest : EarliestLeast key d.states position s) :
      HasKey key d (key s)

theorem Data.hasKey_key (key : Key) (d : Data) : d.HasKey key (d.key key) := by
  by_cases hnil : d.states = []
  · rw [Data.key, hnil]
    exact .empty hnil
  · obtain ⟨position, s, hs, -⟩ := exists_bestPosition key d.states hnil
    obtain ⟨x, hx⟩ : ∃ x, Double.leastOf? (d.states.map key) = some x := by
      cases hstates : d.states with
      | nil => contradiction
      | cons => exact ⟨_, rfl⟩
    obtain ⟨hmem, hle⟩ := Double.leastOf?_spec hx
    obtain ⟨t, ht, rfl⟩ := List.mem_map.mp hmem
    have hst : key t = key s :=
      Double.rank_injective (Int.le_antisymm (hle _ (List.mem_map_of_mem
        (List.mem_of_getElem? hs.entry))) (hs.least t ht))
    rw [Data.key, hx, Option.getD_some, hst]
    exact .least hs

/-- The earliest of the least is what is searched for, -/
theorem EarliestLeast.argmin_eq {key : Key} {items : List State} {position : Nat} {s : State}
    (h : EarliestLeast key items position s) : argmin key items = .ok position := by
  have hne : items ≠ [] := List.ne_nil_of_mem (List.mem_of_getElem? h.entry)
  obtain ⟨position', s', h', hbest⟩ := exists_bestPosition key items hne
  obtain ⟨rfl, rfl⟩ := h.unique h'
  simp only [argmin, hbest]

/-- it is what is selected, -/
theorem EarliestLeast.selectLeast_eq {key : Key} {items : List State} {position : Nat} {s : State}
    (h : EarliestLeast key items position s) : selectLeast key items = .ok s := by
  simp only [selectLeast, h.argmin_eq, h.entry]

theorem EarliestLeast.next_select {key : Key} {items : List State} {position : Nat} {s : State}
    (h : EarliestLeast key items position s) (ctx : Context) (failures : List FailureMarker) :
    (Leaf.select key).next ctx (.many ⟨items, failures⟩) = .succeed (.one s) :=
  congrArg (fun selected : Except RunError State => Task.done (selected.map .one)) h.selectLeast_eq

/-- and its key is the key of data that hold the states. -/
theorem EarliestLeast.key_eq {key : Key} {d : Data} {position : Nat} {s : State}
    (h : EarliestLeast key d.states position s) : d.key key = key s := by
  generalize hword : d.key key = word
  have hkey : d.HasKey key word := hword ▸ d.hasKey_key key
  cases hkey with
  | empty hnil => exact absurd (List.mem_of_getElem? h.entry) (by simp [hnil])
  | least h' => rw [(h.unique h').2]

end Orchestra
