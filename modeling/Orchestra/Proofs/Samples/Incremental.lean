import Orchestra.Leaf.Plain
import Orchestra.Proofs.Samples.Aggregation

/-!
# Aggregating in parts

A set may be aggregated before further samples come behind it, as the samples that were kept go on to absorb
them one by one. Behind other samples it may be aggregated before only if metadata do not matter, since what
one sample has absorbed is then absorbed at once. So states with samples without metadata may be aggregated
one by one before they are merged.
-/

namespace Orchestra

namespace SampleSet

variable {a b set : SampleSet} {s x k : Sample} {kept items before after : List Sample}
  {values : List Int} {sets : List SampleSet}

/-- Samples without metadata. -/
def Bare (set : SampleSet) : Prop :=
  ∀ s ∈ set.toList, s.metadata = .empty

/-- Some samples come behind those that have been kept. -/
def gatherAll (kept items : List Sample) : List Sample :=
  items.foldl (fun kept s => gather s kept) kept

theorem gatherAll_append :
    gatherAll kept (items ++ after) = gatherAll (gatherAll kept items) after :=
  List.foldl_append

theorem gatherAll_cons : gatherAll kept (s :: items) = gatherAll (gather s kept) items := rfl

theorem toList_concat_pair : (concat [a, b]).toList = a.toList ++ b.toList := by
  simp [concat]

theorem concat_cons : concat (set :: sets) = concat [set, concat sets] := by
  simp [concat]

theorem aggregate_concat :
    (concat [a, b]).aggregate = ⟨gatherAll a.aggregate.toList b.toList⟩ := by
  rw [aggregate, toList_concat_pair]
  exact congrArg mk List.foldl_append

/-- What comes first may have been aggregated before. -/
theorem aggregate_concat_left : (concat [a.aggregate, b]).aggregate = (concat [a, b]).aggregate := by
  rw [aggregate_concat, aggregate_concat, aggregate_aggregate]

/-! ### One sample and those behind it -/

theorem mem_values_gather (h : values ∈ kept.map Sample.values) :
    values ∈ (gather s kept).map Sample.values := by
  by_cases hs : s.values ∈ kept.map Sample.values
  · obtain ⟨before, k, after, rfl, hbefore, hk⟩ := exists_first hs
    rw [gather_append_cons hbefore hk]
    simpa [Sample.absorb] using h
  · rw [gather_of_notMem hs, List.map_append]
    exact List.mem_append_left _ h

theorem values_mem_gather : s.values ∈ (gather s kept).map Sample.values := by
  by_cases hs : s.values ∈ kept.map Sample.values
  · exact mem_values_gather hs
  · rw [gather_of_notMem hs, List.map_append]
    exact List.mem_append_right _ (List.mem_singleton_self _)

/-- A sample without metadata may be absorbed by another before that is kept or absorbed itself. -/
theorem gather_absorb (bare : s.metadata = .empty) (hk : k.values = s.values) :
    gather (k.absorb s) kept = gather s (gather k kept) := by
  have hmerge (info : Info) : info.merge s.metadata = info := by
    rw [bare]
    rfl
  induction kept with
  | nil => exact (gather_cons_of_eq hk).symm
  | cons x kept ih =>
    by_cases hx : x.values = k.values
    · have habsorb : x.absorb (k.absorb s) = (x.absorb k).absorb s := by
        simp only [Sample.absorb, hmerge, Nat.add_assoc]
      rw [gather_cons_of_eq (s := k.absorb s) hx, habsorb, gather_cons_of_eq hx]
      exact (gather_cons_of_eq (k := x.absorb k) (hx.trans hk)).symm
    · rw [gather_cons_of_ne (s := k.absorb s) hx, gather_cons_of_ne hx, gather_cons_of_ne (hk ▸ hx), ih]

/-- It does not matter which of two samples comes first if they have different assignments, of which one
was found before. -/
theorem gather_comm (hs : s.values ∈ kept.map Sample.values) (hne : x.values ≠ s.values) :
    gather x (gather s kept) = gather s (gather x kept) := by
  induction kept with
  | nil => exact absurd hs List.not_mem_nil
  | cons k kept ih =>
    by_cases hks : k.values = s.values
    · have hkx : k.values ≠ x.values := fun heq => hne (heq.symm.trans hks)
      rw [gather_cons_of_eq hks, gather_cons_of_ne (k := k.absorb s) hkx, gather_cons_of_ne hkx,
        gather_cons_of_eq hks]
    · rw [gather_cons_of_ne hks]
      by_cases hkx : k.values = x.values
      · rw [gather_cons_of_eq hkx, gather_cons_of_eq hkx, gather_cons_of_ne (k := k.absorb x) hks]
      · rw [gather_cons_of_ne hkx, gather_cons_of_ne hkx, gather_cons_of_ne hks,
          ih ((List.mem_cons.mp hs).resolve_left (Ne.symm hks))]

theorem gatherAll_gather (hs : s.values ∈ kept.map Sample.values)
    (hne : ∀ x ∈ after, x.values ≠ s.values) :
    gatherAll (gather s kept) after = gather s (gatherAll kept after) := by
  induction after generalizing kept with
  | nil => rfl
  | cons x after ih =>
    obtain ⟨hx, hafter⟩ := List.forall_mem_cons.mp hne
    rw [gatherAll_cons, gatherAll_cons, gather_comm hs hx, ih (mem_values_gather hs) hafter]

/-- A sample without metadata may join those that were kept before these come behind others. -/
theorem gatherAll_gather_right (distinct : (items.map Sample.values).Nodup)
    (bare : s.metadata = .empty) :
    gatherAll kept (gather s items) = gather s (gatherAll kept items) := by
  by_cases h : s.values ∈ items.map Sample.values
  · obtain ⟨before, k, after, rfl, hbefore, hk⟩ := exists_first h
    have hafter : ∀ x ∈ after, x.values ≠ s.values := fun x hx =>
      hk ▸ values_ne_of_nodup distinct x (List.mem_append_right _ hx)
    -- Once `k` is among those that were kept, `s` finds it there and may wait for all of `after`.
    have hfound : s.values ∈ (gather k (gatherAll kept before)).map Sample.values :=
      hk ▸ values_mem_gather
    rw [gather_append_cons hbefore hk, gatherAll_append, gatherAll_append, gatherAll_cons,
      gatherAll_cons, gather_absorb bare hk, gatherAll_gather hfound hafter]
  · rw [gather_of_notMem h, gatherAll_append]
    rfl

/-- What comes behind other samples may have been aggregated before if it has no metadata. -/
theorem gatherAll_aggregate (bare : b.Bare) :
    gatherAll kept b.aggregate.toList = gatherAll kept b.toList := by
  induction b using push_induction with
  | empty => rfl
  | push set s ih =>
    obtain ⟨hset, hs⟩ := List.forall_mem_append.mp bare
    have hbare : s.metadata = .empty := hs s (List.mem_singleton_self s)
    rw [aggregate_push, push, gatherAll_append, ← ih hset]
    exact gatherAll_gather_right set.aggregates_aggregate.distinct hbare

theorem aggregate_concat_right (bare : b.Bare) :
    (concat [a, b.aggregate]).aggregate = (concat [a, b]).aggregate := by
  rw [aggregate_concat, aggregate_concat, gatherAll_aggregate bare]

/-! ### Many sets -/

theorem Bare.aggregate (bare : set.Bare) : set.aggregate.Bare := by
  intro kept hkept
  obtain ⟨first, rest, hsamples, -, -, hmetadata⟩ := set.aggregates_aggregate.folds kept hkept
  have hall : ∀ x ∈ first :: rest, x.metadata = .empty := fun x hx =>
    bare x (List.mem_filter.mp (hsamples ▸ hx)).1
  obtain ⟨hfirst, hrest⟩ := List.forall_mem_cons.mp hall
  rw [hmetadata, hfirst]
  clear hsamples hmetadata hall
  induction rest with
  | nil => rfl
  | cons x rest ih =>
    obtain ⟨hx, hrest⟩ := List.forall_mem_cons.mp hrest
    rw [List.foldl_cons, hx]
    exact ih hrest

theorem bare_concat (bare : ∀ set ∈ sets, set.Bare) : (concat sets).Bare := by
  intro s hs
  obtain ⟨set, hset, hs⟩ := List.mem_flatMap.mp hs
  exact bare set hset s hs

/-- Sets may be aggregated one by one if those behind the first have no metadata. -/
theorem aggregate_concat_map (bare : ∀ set ∈ sets.tail, set.Bare) :
    (concat (sets.map aggregate)).aggregate = (concat sets).aggregate := by
  induction sets with
  | nil => rfl
  | cons set sets ih =>
    have hsets : ∀ set ∈ sets, set.Bare := bare
    have hmap : ∀ set ∈ sets.map aggregate, set.Bare :=
      List.forall_mem_map.mpr fun set hset => (hsets set hset).aggregate
    calc (concat ((set :: sets).map aggregate)).aggregate
        = (concat [set.aggregate, concat (sets.map aggregate)]).aggregate := by
          rw [List.map_cons, concat_cons]
      _ = (concat [set, (concat (sets.map aggregate)).aggregate]).aggregate := by
          rw [aggregate_concat_left, aggregate_concat_right (bare_concat hmap)]
      _ = (concat (set :: sets)).aggregate := by
          rw [ih fun set hset => hsets set (List.mem_of_mem_tail hset),
            aggregate_concat_right (bare_concat hsets), ← concat_cons]

/-! ### Counts -/

theorem occurrencesOf_concat : (concat [a, b]).occurrencesOf values =
    a.occurrencesOf values + b.occurrencesOf values := by
  rw [occurrencesOf, samplesOf, toList_concat_pair, List.filter_append, Sample.total_append]
  rfl

theorem occurrencesOf_aggregate : set.aggregate.occurrencesOf values = set.occurrencesOf values := by
  induction set using push_induction with
  | empty => rfl
  | push set s ih => rw [aggregate_push, occurrencesOf_gather, ih, occurrencesOf_push]

theorem occurrencesOf_concat_map : (concat (sets.map aggregate)).occurrencesOf values =
    (concat sets).occurrencesOf values := by
  induction sets with
  | nil => rfl
  | cons set sets ih =>
    rw [List.map_cons, concat_cons, occurrencesOf_concat, occurrencesOf_aggregate, ih,
      ← occurrencesOf_concat, ← concat_cons]

/-- The parts of a set have no larger counts. -/
theorem occurrencesOf_le_concat (h : set ∈ sets) :
    set.occurrencesOf values ≤ (concat sets).occurrencesOf values := by
  induction sets with
  | nil => exact absurd h List.not_mem_nil
  | cons first sets ih =>
    rw [concat_cons, occurrencesOf_concat]
    rcases List.mem_cons.mp h with rfl | h
    · exact Nat.le_add_right _ _
    · exact Nat.le_trans (ih h) (Nat.le_add_left _ _)

theorem Fits.of_le (fits : b.Fits) (h : ∀ values, a.occurrencesOf values ≤ b.occurrencesOf values) :
    a.Fits :=
  fun values => Nat.lt_of_le_of_lt (h values) (fits values)

theorem Fits.parts (fits : (concat sets).Fits) : ∀ set ∈ sets, set.Fits :=
  fun _ hset => fits.of_le fun _ => occurrencesOf_le_concat hset

theorem Fits.concat_map (fits : (concat sets).Fits) : (concat (sets.map aggregate)).Fits :=
  fits.of_le fun _ => Nat.le_of_eq occurrencesOf_concat_map

end SampleSet

/-! ### States -/

/-- The state with its samples aggregated. -/
def State.aggregated (s : State) : State :=
  s.withSamples s.samples.aggregate

theorem samples_aggregated (states : List State) :
    (states.map State.aggregated).map State.samples =
      (states.map State.samples).map SampleSet.aggregate := by
  rw [List.map_map, List.map_map]
  rfl

/-- What a merge of states with aggregation comes to. -/
theorem mergeList_true (first : State) (rest : List State) : mergeList true (first :: rest) =
    .ok { first with
      samples := (SampleSet.concat ((first :: rest).map State.samples)).aggregate
      info := rest.foldl (fun info s => info.merge s.info) first.info } :=
  rfl

/-- The states may have been aggregated before if the samples behind those of the first have no metadata. -/
theorem mergeList_aggregated (first : State) {rest : List State} (bare : ∀ s ∈ rest, s.samples.Bare) :
    mergeList true ((first :: rest).map State.aggregated) = mergeList true (first :: rest) := by
  have hbare : ∀ set ∈ ((first :: rest).map State.samples).tail, set.Bare :=
    List.forall_mem_map.mpr bare
  rw [List.map_cons, mergeList_true, mergeList_true, ← List.map_cons, samples_aggregated,
    SampleSet.aggregate_concat_map hbare, List.foldl_map]
  rfl

theorem next_mergeStates (ctx : Context) (aggregate : Bool) (states : List State)
    (failures : List FailureMarker) :
    (Leaf.mergeStates aggregate).next ctx (.many ⟨states, failures⟩) =
      .done ((mergeList aggregate states).map .one) :=
  rfl

/-- A set may be aggregated before further samples come behind it, and those may be aggregated before too if
they have no metadata. So a merge with aggregation leads to the same state whether its states have been
aggregated before or not, if the samples of all but the first have no metadata. None of the counts on these
ways is too large for a word of 64 bits if none of them is for the samples together. -/
theorem aggregation_is_incremental :
    (∀ a b : SampleSet,
      (SampleSet.concat [a.aggregate, b]).aggregate = (SampleSet.concat [a, b]).aggregate ∧
      (b.Bare → (SampleSet.concat [a.aggregate, b.aggregate]).aggregate =
        (SampleSet.concat [a, b]).aggregate) ∧
      ((SampleSet.concat [a, b]).Fits → ∀ set ∈ [a, b, .concat [a, b], .concat [a.aggregate, b],
        .concat [a.aggregate, b.aggregate]], set.CountsFit)) ∧
    ∀ (first : State) (rest : List State), (∀ s ∈ rest, s.samples.Bare) →
      ∃ merged,
        merged.samples = (SampleSet.concat ((first :: rest).map State.samples)).aggregate ∧
        (∀ ctx failures, (Leaf.mergeStates true).next ctx (.many ⟨first :: rest, failures⟩) =
          .succeed (.one merged)) ∧
        (∀ ctx failures, (Leaf.mergeStates true).next ctx
          (.many ⟨(first :: rest).map State.aggregated, failures⟩) = .succeed (.one merged)) ∧
        ((SampleSet.concat ((first :: rest).map State.samples)).Fits →
          (SampleSet.concat ((first :: rest).map State.samples)).CountsFit ∧
          (SampleSet.concat (((first :: rest).map State.aggregated).map State.samples)).CountsFit ∧
          ∀ s ∈ first :: rest, s.samples.CountsFit) := by
  constructor
  · intro a b
    refine ⟨SampleSet.aggregate_concat_left, fun bare => ?_, fun fits => ?_⟩
    · rw [SampleSet.aggregate_concat_left, SampleSet.aggregate_concat_right bare]
    · have hparts : ∀ set ∈ [a, b], set.Fits := fits.parts
      obtain ⟨ha, hb⟩ : a.Fits ∧ b.Fits := by simpa using hparts
      have hleft : (SampleSet.concat [a.aggregate, b]).Fits := fits.of_le fun values =>
        Nat.le_of_eq (by rw [SampleSet.occurrencesOf_concat, SampleSet.occurrencesOf_aggregate,
          ← SampleSet.occurrencesOf_concat])
      have hboth : (SampleSet.concat [a.aggregate, b.aggregate]).Fits := fits.concat_map
      simp only [List.forall_mem_cons]
      exact ⟨ha.countsFit, hb.countsFit, fits.countsFit, hleft.countsFit, hboth.countsFit, nofun⟩
  · intro first rest bare
    obtain ⟨merged, hmerged, hsamples⟩ : ∃ merged, mergeList true (first :: rest) = .ok merged ∧
        merged.samples = (SampleSet.concat ((first :: rest).map State.samples)).aggregate :=
      ⟨_, mergeList_true first rest, rfl⟩
    have haggregated : mergeList true ((first :: rest).map State.aggregated) = .ok merged :=
      (mergeList_aggregated first bare).trans hmerged
    refine ⟨merged, hsamples, fun ctx failures => ?_, fun ctx failures => ?_, fun fits => ⟨?_, ?_, ?_⟩⟩
    · rw [next_mergeStates, hmerged]
      rfl
    · rw [next_mergeStates, haggregated]
      rfl
    · exact fits.countsFit
    · rw [samples_aggregated]
      exact fits.concat_map.countsFit
    · exact fun s hs => (fits.parts _ (List.mem_map_of_mem hs)).countsFit

/-- Samples with one assignment. -/
def sightings : SampleSet :=
  ⟨[⟨[1], .zero, 1, Info.empty.insert "weight" (.ofNat 1)⟩,
    ⟨[1], .infinity, 2, Info.empty.insert "weight" (.str "unknown")⟩]⟩

/-- Samples without metadata, of which one has the same assignment. -/
def laterSightings : SampleSet :=
  ⟨[⟨[2], .zero, 1, .empty⟩, ⟨[1], .zero, 4, .empty⟩, ⟨[2], .infinity, 5, .empty⟩]⟩

/-- Both lead to one sample for each of the two assignments, on either way. -/
theorem aggregation_is_incremental_of_sightings :
    let merged : SampleSet := ⟨[⟨[1], .zero, 7, Info.empty.insert "weight" (.ofNat 1)⟩,
      ⟨[2], .zero, 6, .empty⟩]⟩
    laterSightings.Bare ∧ (SampleSet.concat [sightings, laterSightings]).Fits ∧
      (SampleSet.concat [sightings.aggregate, laterSightings]).aggregate = merged ∧
      (SampleSet.concat [sightings.aggregate, laterSightings.aggregate]).aggregate = merged ∧
      (SampleSet.concat [sightings.aggregate, laterSightings.aggregate]).CountsFit ∧
      ∃ s, s.samples = merged ∧ (Leaf.mergeStates true).next ⟨0, .default, 0⟩
        (.many ⟨[sightings, laterSightings].map fun set =>
          (State.empty.withSamples set).aggregated, []⟩) = .succeed (.one s) := by
  intro merged
  have bare : laterSightings.Bare := by
    simp [laterSightings, SampleSet.Bare]
  have fits : (SampleSet.concat [sightings, laterSightings]).Fits :=
    SampleSet.fits_of_total (by decide)
  have hmerged : (SampleSet.concat [sightings, laterSightings]).aggregate = merged := by
    with_unfolding_all rfl
  obtain ⟨hleft, hboth, hcounts⟩ := aggregation_is_incremental.1 sightings laterSightings
  obtain ⟨s, hs, -, hnext, -⟩ := aggregation_is_incremental.2
    (State.empty.withSamples sightings) [State.empty.withSamples laterSightings]
    (List.forall_mem_singleton.mpr bare)
  exact ⟨bare, fits, hleft.trans hmerged, (hboth bare).trans hmerged, hcounts fits _ (by simp),
    s, hs.trans hmerged, hnext _ _⟩

/-- With metadata it makes a difference whether the later samples are aggregated before: the number of the
last one is lost to the text that it is merged into then. -/
example :
    let first : SampleSet := ⟨[⟨[1], .zero, 1, Info.empty.insert "weight" (.ofNat 1)⟩]⟩
    let second : SampleSet := ⟨[⟨[1], .zero, 1, Info.empty.insert "weight" (.str "unknown")⟩,
      ⟨[1], .zero, 1, Info.empty.insert "weight" (.ofNat 2)⟩]⟩
    (SampleSet.concat [first, second.aggregate]).aggregate.same
      (SampleSet.concat [first, second]).aggregate = false := by
  decide +kernel

end Orchestra
