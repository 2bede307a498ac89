import Orchestra.Merge
import Orchestra.Proofs.Selection

/-!
# The best of merged samples

The best sample of a state is searched for among its samples, the best state among states by what their
best samples have, and the best of merged samples among those of all states. These searches agree, as
each of them takes the earliest of the least: the best sample of the best state is the best one of all.
-/

namespace Orchestra

/-- The search through samples finds the earliest of the least. -/
theorem SampleSet.exists_first? {set : SampleSet} (h : set.toList ≠ []) :
    ∃ i best, EarliestLeast Sample.energy set.toList i best ∧ set.first? = some best := by
  unfold SampleSet.first?
  generalize set.toList = samples at h ⊢
  induction samples using List.reverseRecOn with
  | nil => contradiction
  | append_singleton samples s ih =>
    rw [List.foldl_append]
    by_cases hnil : samples = []
    · subst hnil
      exact ⟨0, s, .singleton Sample.energy s, rfl⟩
    · obtain ⟨i, best, hbest, hfirst⟩ := ih hnil
      simp only [hfirst, List.foldl_cons, List.foldl_nil, better]
      split
      · next hlt => exact ⟨_, s, hbest.append_of_lt (Double.below_iff.mp hlt), rfl⟩
      · next hle =>
        rw [Double.below_iff, Int.not_lt] at hle
        exact ⟨i, best, hbest.append_of_le hle, rfl⟩

variable {states : List State} {s : State} {set : SampleSet} {best : Sample} {position i : Nat}

/-- The earliest of the least samples is the first one, -/
theorem EarliestLeast.first?_eq (h : EarliestLeast Sample.energy set.toList i best) :
    set.first? = some best := by
  obtain ⟨j, best', h', hfirst⟩ :=
    SampleSet.exists_first? (List.ne_nil_of_mem (List.mem_of_getElem? h.entry))
  rw [hfirst, (h.unique h').2]

/-- and its energy that of the state. -/
theorem EarliestLeast.minEnergy_eq (h : EarliestLeast Sample.energy s.samples.toList i best) :
    s.minEnergy = best.energy := by
  rw [State.minEnergy, State.minEnergy?, h.first?_eq]
  rfl

/-- No sample is below the energy of its state. -/
theorem State.minEnergy_le {sample : Sample} (h : sample ∈ s.samples.toList) :
    s.minEnergy.rank ≤ sample.energy.rank := by
  obtain ⟨i, best, hbest, -⟩ := SampleSet.exists_first? (List.ne_nil_of_mem h)
  rw [hbest.minEnergy_eq]
  exact hbest.least sample h

/-- The best sample of the best state is the best of all samples. -/
theorem EarliestLeast.among_samples (h : EarliestLeast State.minEnergy states position s)
    (hbest : EarliestLeast Sample.energy s.samples.toList i best) :
    EarliestLeast Sample.energy (states.flatMap fun s => s.samples.toList)
      (((states.take position).flatMap fun s => s.samples.toList).length + i) best := by
  obtain ⟨hposition, hs⟩ := List.getElem?_eq_some_iff.mp h.entry
  have hsplit : states = states.take position ++ s :: states.drop (position + 1) := by
    rw [← hs, List.getElem_cons_drop, List.take_append_drop]
  have henergy := hbest.minEnergy_eq
  conv => enter [2]; rw [hsplit, List.flatMap_append, List.flatMap_cons]
  refine (hbest.append fun sample hsample => ?_).prepend fun sample hsample => ?_
  · -- a later state is not below the chosen one
    obtain ⟨t, ht, hsample⟩ := List.mem_flatMap.mp hsample
    rw [← henergy]
    exact Int.le_trans (h.least t (List.mem_of_mem_drop ht)) (State.minEnergy_le hsample)
  · -- and an earlier one is above it
    obtain ⟨t, ht, hsample⟩ := List.mem_flatMap.mp hsample
    obtain ⟨k, hk, rfl⟩ := List.mem_take_iff_getElem.mp ht
    rw [← henergy]
    have hentry : states[k]? = some states[k] := List.getElem?_eq_getElem (by omega)
    exact Int.lt_of_lt_of_le (h.first k (by omega) _ hentry) (State.minEnergy_le hsample)

/-- For all states that have samples, whatever the energies of these. The default merge has the first
sample of the state that is searched for: the earliest of the least samples of the earliest of the least
states, at its place behind the samples of the states before. Its energy, bit for bit, is the key of the
list of states and of the merged one. -/
theorem merge_keeps_best {states : List State} (hne : states ≠ [])
    (sampled : ∀ s ∈ states, s.samples.toList ≠ []) (failures : List FailureMarker) :
    ∃ merged position chosen i best, mergeSamples states = .ok merged ∧
      argmin State.minEnergy states = .ok position ∧
      EarliestLeast State.minEnergy states position chosen ∧
      EarliestLeast Sample.energy chosen.samples.toList i best ∧
      EarliestLeast Sample.energy merged.samples.toList
        (((states.take position).flatMap fun s => s.samples.toList).length + i) best ∧
      chosen.samples.first? = some best ∧ merged.samples.first? = some best ∧
      Data.key State.minEnergy (.many ⟨states, failures⟩) = merged.minEnergy ∧
      merged.minEnergy = best.energy := by
  obtain ⟨position, chosen, hchosen, -⟩ := exists_bestPosition State.minEnergy states hne
  obtain ⟨i, best, hbest, hfirst⟩ :=
    SampleSet.exists_first? (sampled chosen (List.mem_of_getElem? hchosen.entry))
  obtain ⟨merged, hmerged, hsamples⟩ : ∃ merged, mergeSamples states = .ok merged ∧
      merged.samples.toList = states.flatMap fun s => s.samples.toList := by
    cases states with
    | nil => contradiction
    | cons first rest => exact ⟨_, rfl, by simp [SampleSet.concat, List.flatMap_map]⟩
  have hall := hchosen.among_samples hbest
  rw [← hsamples] at hall
  refine ⟨merged, position, chosen, i, best, hmerged, hchosen.argmin_eq, hchosen, hbest, hall, hfirst,
    hall.first?_eq, ?_, hall.minEnergy_eq⟩
  have hkey : EarliestLeast State.minEnergy (Data.many ⟨states, failures⟩).states position chosen :=
    hchosen
  rw [hkey.key_eq, hbest.minEnergy_eq, hall.minEnergy_eq]

/-- Of two negative zeros the earlier one is the best, behind a NaN, a positive zero and an infinity. -/
theorem merge_keeps_best_of_zeros :
    let states := [[⟨0x7ff8000000000000⟩, ⟨0⟩], [.infinity, ⟨0x8000000000000000⟩],
      [⟨0x8000000000000000⟩]].map fun energies => State.empty.withSamples (.ofEnergies energies)
    let best := Sample.observed [1] ⟨0x8000000000000000⟩
    ∃ merged, mergeSamples states = .ok merged ∧ argmin State.minEnergy states = .ok 1 ∧
      merged.samples.first? = some best ∧
      Data.key State.minEnergy (.many ⟨states, []⟩) = merged.minEnergy ∧
      merged.minEnergy = ⟨0x8000000000000000⟩ := by
  intro states best
  obtain ⟨merged, position, chosen, i, found, hmerged, hargmin, hchosen, -, -, hfirst, hmerge, hkey,
    henergy⟩ := @merge_keeps_best states (by simp [states])
      (by simp [states, State.withSamples, SampleSet.ofEnergies]) []
  have hone : argmin State.minEnergy states = .ok 1 := by with_unfolding_all rfl
  obtain rfl : position = 1 := Except.ok.inj (hargmin.symm.trans hone)
  obtain rfl := Option.some.inj hchosen.entry
  have hbest : states[1].samples.first? = some best := by with_unfolding_all rfl
  obtain rfl : found = best := Option.some.inj (hfirst.symm.trans hbest)
  exact ⟨merged, hmerged, hone, hmerge, hkey, henergy⟩

end Orchestra
