import Mathlib.Data.Finset.Card
import Orchestra.Proofs.Samples.Incremental
import Orchestra.Proofs.Selection.Samples

/-!
# Aggregation keeps the best sample

Where the energy of a sample depends on its assignment only, an assignment is worth what its first sample is.
So the search through an aggregate, which has its assignments in the order of first appearance, comes to the
assignment of the sample that is found in the set itself: it is the first one to reach the least energy
there, and none of those kept before it can do so.
-/

namespace Orchestra

namespace Sample

theorem occurrences_le_total {s : Sample} {items : List Sample} (h : s ∈ items) :
    s.occurrences ≤ total items := by
  induction items with
  | nil => exact absurd h List.not_mem_nil
  | cons x items ih =>
    rw [total]
    rcases List.mem_cons.mp h with rfl | h
    · exact Nat.le_add_right _ _
    · exact Nat.le_trans (ih h) (Nat.le_add_left _ _)

end Sample

namespace SampleSet

/-- Samples with one assignment have one energy, bit for bit. -/
def Consistent (set : SampleSet) : Prop :=
  ∀ s ∈ set.toList, ∀ t ∈ set.toList, s.values = t.values → s.energy = t.energy

/-- The number of different assignments that appear before a given one does. -/
def rankOf (set : SampleSet) (values : List Int) : Nat :=
  (set.assignments.take (set.assignments.idxOf values)).toFinset.card

variable {set result : SampleSet} {s kept best : Sample} {values : List Int} {i j : Nat}

theorem mem_samplesOf : s ∈ set.samplesOf values ↔ s ∈ set.toList ∧ s.values = values := by
  rw [samplesOf, List.mem_filter, decide_eq_true_eq]

/-- Where an assignment appears first there is a sample with it. -/
theorem exists_firstWith (h : values ∈ set.assignments) :
    ∃ s, set.toList[set.assignments.idxOf values]? = some s ∧ s.values = values := by
  have hentry := List.getElem?_idxOf h
  rw [assignments, List.getElem?_map] at hentry
  exact Option.map_eq_some_iff.mp hentry

/-- No sample with an assignment comes before the assignment appears. -/
theorem idxOf_values_le (h : set.toList[i]? = some s) : set.assignments.idxOf s.values ≤ i := by
  refine Nat.le_of_not_lt fun hlt => ?_
  have hmem : s.values ∈ set.assignments.take (i + 1) := by
    refine List.mem_of_getElem? (i := i) ?_
    rw [List.getElem?_take_of_lt (Nat.lt_succ_self i), assignments, List.getElem?_map, h]
    rfl
  have hle := (List.mem_take_iff_idxOf_lt (List.mem_of_mem_take hmem)).mp hmem
  omega

/-- The least energy is reached first where the assignment of the best sample appears. -/
theorem idxOf_values_eq (consistent : set.Consistent)
    (h : EarliestLeast Sample.energy set.toList i best) :
    set.assignments.idxOf best.values = i := by
  have hbest := List.mem_of_getElem? h.entry
  obtain ⟨s, hs, hvalues⟩ := exists_firstWith (List.mem_map_of_mem hbest)
  have henergy : s.energy = best.energy :=
    consistent s (List.mem_of_getElem? hs) best hbest hvalues
  refine Nat.le_antisymm (idxOf_values_le h.entry) (Nat.le_of_not_lt fun hlt => ?_)
  have hfirst := h.first _ hlt s hs
  rw [henergy] at hfirst
  exact absurd hfirst (Int.lt_irrefl _)

/-- A sample that stands for an assignment has its energy. -/
theorem Folds.energy_eq (consistent : set.Consistent) (h : set.Folds kept) (hs : s ∈ set.toList)
    (heq : s.values = kept.values) : kept.energy = s.energy := by
  obtain ⟨first, rest, hsamples, henergy, -, -⟩ := h
  obtain ⟨hfirst, hvalues⟩ : first ∈ set.toList ∧ first.values = kept.values := by
    rw [← mem_samplesOf, hsamples]
    exact List.mem_cons_self
  exact henergy.trans (consistent first hfirst s hs (hvalues.trans heq.symm))

/-- It occurs at least as often as each sample with the assignment. -/
theorem Folds.occurrences_le (h : set.Folds kept) (hs : s ∈ set.toList)
    (heq : s.values = kept.values) : s.occurrences ≤ kept.occurrences := by
  obtain ⟨-, -, -, -, hoccurrences, -⟩ := h
  rw [hoccurrences]
  exact Sample.occurrences_le_total (mem_samplesOf.mpr ⟨hs, heq⟩)

namespace Aggregates

/-- Of two samples that are kept the earlier one has the assignment that appears earlier. -/
theorem idxOf_lt (h : set.Aggregates result) (hij : i < j) {x y : Sample}
    (hx : result.toList[i]? = some x) (hy : result.toList[j]? = some y) :
    set.assignments.idxOf x.values < set.assignments.idxOf y.values := by
  obtain ⟨hi, rfl⟩ := List.getElem?_eq_some_iff.mp hx
  obtain ⟨hj, rfl⟩ := List.getElem?_eq_some_iff.mp hy
  exact List.pairwise_iff_getElem.mp (List.pairwise_map.mp h.ordered) i j hi hj hij

/-- The samples kept before one have the assignments that appear before its own. -/
theorem mem_take_iff (h : set.Aggregates result) (hkept : result.toList[j]? = some kept) :
    values ∈ result.assignments.take j ↔
      values ∈ set.assignments.take (set.assignments.idxOf kept.values) := by
  constructor
  · intro hmem
    obtain ⟨k, hk, heq⟩ := List.mem_take_iff_getElem.mp hmem
    obtain ⟨hkj, hlt⟩ := Nat.lt_min.mp hk
    rw [assignments, List.length_map] at hlt
    have hx : result.toList[k]? = some result.toList[k] := List.getElem?_eq_getElem hlt
    rw [List.mem_take_iff_idxOf_lt ((h.appear values).mp (List.mem_of_mem_take hmem))]
    simp only [assignments, List.getElem_map] at heq
    rw [← heq]
    exact h.idxOf_lt hkj hx hkept
  · intro hmem
    have hthere := List.mem_of_mem_take hmem
    obtain ⟨x, hx, rfl⟩ := List.mem_map.mp ((h.appear values).mpr hthere)
    obtain ⟨k, hk⟩ := List.getElem?_of_mem hx
    rw [List.mem_take_iff_idxOf_lt hthere] at hmem
    have hkj : k < j := by
      rcases Nat.lt_trichotomy k j with hlt | rfl | hgt
      · exact hlt
      · rw [Option.some.inj (hk.symm.trans hkept)] at hmem
        exact absurd hmem (Nat.lt_irrefl _)
      · exact absurd (h.idxOf_lt hgt hkept hk) (Nat.lt_asymm hmem)
    refine List.mem_of_getElem? (i := k) ?_
    rw [List.getElem?_take_of_lt hkj, assignments, List.getElem?_map, hk]
    rfl

/-- So a sample is kept at the rank of its assignment. -/
theorem rankOf_eq (h : set.Aggregates result) (hkept : result.toList[j]? = some kept) :
    set.rankOf kept.values = j := by
  have hlength : j ≤ result.assignments.length := by
    rw [assignments, List.length_map]
    exact Nat.le_of_lt (List.getElem?_eq_some_iff.mp hkept).1
  have hsame : (result.assignments.take j).toFinset =
      (set.assignments.take (set.assignments.idxOf kept.values)).toFinset := by
    ext values
    rw [List.mem_toFinset, List.mem_toFinset, h.mem_take_iff hkept]
  rw [rankOf, ← hsame, List.toFinset_card_of_nodup (h.distinct.sublist (List.take_sublist _ _)),
    List.length_take, Nat.min_eq_left hlength]

/-- The best of the samples that are kept has the assignment of the best sample. -/
theorem earliestLeast (h : set.Aggregates result) (consistent : set.Consistent)
    (hbest : EarliestLeast Sample.energy set.toList i best) :
    ∃ kept, kept.values = best.values ∧ set.Folds kept ∧
      EarliestLeast Sample.energy result.toList (set.rankOf best.values) kept := by
  have hmem := List.mem_of_getElem? hbest.entry
  obtain ⟨kept, hkept, hvalues⟩ :=
    List.mem_map.mp ((h.appear best.values).mpr (List.mem_map_of_mem hmem))
  obtain ⟨j, hj⟩ := List.getElem?_of_mem hkept
  have hrank : set.rankOf best.values = j := hvalues ▸ h.rankOf_eq hj
  have hfolds := h.folds kept hkept
  have henergy : kept.energy = best.energy := hfolds.energy_eq consistent hmem hvalues.symm
  refine ⟨kept, hvalues, hfolds, hrank ▸ hj, fun y hy => ?_, fun k hk y hy => ?_⟩
  · -- Each sample that is kept has the energy of one in the set.
    obtain ⟨s, hs, heq⟩ := List.mem_map.mp ((h.appear y.values).mp (List.mem_map_of_mem hy))
    rw [henergy, (h.folds y hy).energy_eq consistent hs heq]
    exact hbest.least s hs
  · -- Those that are kept before have the energies of samples before the best one.
    have hy' := List.mem_of_getElem? hy
    obtain ⟨s, hs, heq⟩ := exists_firstWith ((h.appear y.values).mp (List.mem_map_of_mem hy'))
    have hlt := h.idxOf_lt (hrank ▸ hk) hy hj
    rw [hvalues, idxOf_values_eq consistent hbest] at hlt
    rw [henergy, (h.folds y hy').energy_eq consistent (List.mem_of_getElem? hs) heq]
    exact hbest.first _ hlt s hs

end Aggregates

end SampleSet

/-- Plain merging keeps all samples. -/
theorem mergeList_false (first : State) (rest : List State) : mergeList false (first :: rest) =
    .ok { first with
      samples := SampleSet.concat ((first :: rest).map State.samples)
      info := rest.foldl (fun info s => info.merge s.info) first.info } :=
  rfl

/-- States of which some sample is found, with energies that depend on assignments only. Merging them with
aggregation leads to the best sample of the plain merge: the one that is found among the merged samples has
its assignment and its energy and occurs at least as often. Its place is the number of different assignments
that appear before its own, which is where the plain merge has its best sample. No count on the way is too
large for a word of 64 bits if none is for the samples together. -/
theorem aggregation_keeps_best {states : List State} (sampled : ∃ s ∈ states, s.samples.toList ≠ [])
    (consistent : (SampleSet.concat (states.map State.samples)).Consistent)
    (fits : (SampleSet.concat (states.map State.samples)).Fits) (failures : List FailureMarker) :
    ∃ plain merged best kept,
      (∀ ctx, (Leaf.mergeStates false).next ctx (.many ⟨states, failures⟩) = .succeed (.one plain)) ∧
      (∀ ctx, (Leaf.mergeStates true).next ctx (.many ⟨states, failures⟩) = .succeed (.one merged)) ∧
      plain.samples = SampleSet.concat (states.map State.samples) ∧
      merged.samples = plain.samples.aggregate ∧
      plain.samples.first? = some best ∧ merged.samples.first? = some kept ∧
      kept.values = best.values ∧ kept.energy = best.energy ∧
      best.occurrences ≤ kept.occurrences ∧ plain.samples.CountsFit ∧
      EarliestLeast Sample.energy plain.samples.toList
        (plain.samples.assignments.idxOf best.values) best ∧
      EarliestLeast Sample.energy merged.samples.toList (plain.samples.rankOf best.values) kept ∧
      merged.minEnergy? = plain.minEnergy? ∧ merged.minEnergy = plain.minEnergy := by
  obtain ⟨s, hs, hne⟩ := sampled
  cases states with
  | nil => exact absurd hs List.not_mem_nil
  | cons first rest =>
    generalize hset : SampleSet.concat ((first :: rest).map State.samples) = set at consistent fits
    have hsome : set.toList ≠ [] := by
      obtain ⟨x, hx⟩ := List.exists_mem_of_ne_nil _ hne
      refine List.ne_nil_of_mem (a := x) ?_
      rw [← hset]
      exact List.mem_flatMap.mpr ⟨s.samples, List.mem_map_of_mem hs, hx⟩
    obtain ⟨i, best, hbest, hfirst⟩ := SampleSet.exists_first? hsome
    obtain ⟨kept, hvalues, hfolds, hkept⟩ := set.aggregates_aggregate.earliestLeast consistent hbest
    have hmem := List.mem_of_getElem? hbest.entry
    have henergy := hfolds.energy_eq consistent hmem hvalues.symm
    obtain ⟨plain, hplain, hall⟩ : ∃ plain, mergeList false (first :: rest) = .ok plain ∧
        plain.samples = set := ⟨_, mergeList_false first rest, hset⟩
    obtain ⟨merged, hmerged, hfolded⟩ : ∃ merged, mergeList true (first :: rest) = .ok merged ∧
        merged.samples = set.aggregate := ⟨_, mergeList_true first rest, by rw [hset]⟩
    have hleast : merged.minEnergy? = plain.minEnergy? := by
      rw [State.minEnergy?, State.minEnergy?, hall, hfolded, hfirst, hkept.first?_eq]
      exact congrArg some henergy
    have hidx := SampleSet.idxOf_values_eq consistent hbest
    refine ⟨plain, merged, best, kept, fun ctx => ?_, fun ctx => ?_, hall, hall ▸ hfolded,
      hall ▸ hfirst, hfolded ▸ hkept.first?_eq, hvalues, henergy,
      hfolds.occurrences_le hmem hvalues.symm, hall ▸ fits.countsFit, ?_, ?_, hleast,
      congrArg (fun energy => energy.getD .infinity) hleast⟩
    · rw [next_mergeStates, hplain]
      rfl
    · rw [next_mergeStates, hmerged]
      rfl
    · rw [hall, hidx]
      exact hbest
    · rw [hall, hfolded]
      exact hkept

/-- Two assignments share the least energy, a negative zero, behind a NaN and a positive zero. The one that
appears first is found in either merge, where three others and two of these come before it. -/
theorem aggregation_keeps_best_of_zeros :
    let nan : Double := ⟨0x7ff8000000000000⟩
    let least : Double := ⟨0x8000000000000000⟩
    let states := [[.observed [1] nan, .observed [2] .zero], [],
      [.observed [2] .zero, .observed [3] least, .observed [1] nan],
      [.observed [4] least, .observed [3] least]].map fun samples => State.empty.withSamples ⟨samples⟩
    let all := SampleSet.concat (states.map State.samples)
    (∃ s ∈ states, s.samples.toList ≠ []) ∧ all.Consistent ∧ all.Fits ∧
      ∃ plain merged,
        (Leaf.mergeStates false).next ⟨0, .default, 0⟩ (.many ⟨states, []⟩) = .succeed (.one plain) ∧
        (Leaf.mergeStates true).next ⟨0, .default, 0⟩ (.many ⟨states, []⟩) = .succeed (.one merged) ∧
        EarliestLeast Sample.energy plain.samples.toList 3 (.observed [3] least) ∧
        EarliestLeast Sample.energy merged.samples.toList 2 ⟨[3], least, 2, .empty⟩ ∧
        merged.minEnergy = plain.minEnergy := by
  intro nan least states all
  have sampled : ∃ s ∈ states, s.samples.toList ≠ [] :=
    ⟨_, List.mem_cons_self, List.cons_ne_nil _ _⟩
  have consistent : all.Consistent := by
    unfold SampleSet.Consistent
    decide
  have fits : all.Fits := SampleSet.fits_of_total (by decide)
  obtain ⟨plain, merged, best, kept, hplain, hmerged, hall, hfolded, hfirst, hkept, -, -, -, -, hbest,
    hbest', -, hleast⟩ := aggregation_keeps_best sampled consistent fits []
  have hall' : plain.samples = all := hall
  rw [hall'] at hfirst hbest hbest' hfolded
  have hthird : all.first? = some (.observed [3] least) := by with_unfolding_all rfl
  obtain rfl : Sample.observed [3] least = best := Option.some.inj (hthird.symm.trans hfirst)
  have htwice : all.aggregate.first? = some ⟨[3], least, 2, .empty⟩ := by with_unfolding_all rfl
  rw [← hfolded] at htwice
  obtain rfl : ⟨[3], least, 2, .empty⟩ = kept := Option.some.inj (htwice.symm.trans hkept)
  have hidx : all.assignments.idxOf [3] = 3 := by decide
  have hrank : all.rankOf [3] = 2 := by decide
  exact ⟨sampled, consistent, fits, plain, merged, hplain _, hmerged _,
    hall' ▸ hidx ▸ hbest, hrank ▸ hbest', hleast⟩

end Orchestra
