import Mathlib.Data.List.Induction
import Mathlib.Data.List.Nodup
import Orchestra.Sample

/-!
# What aggregation comes to

Aggregation goes through a set once: a sample with a new assignment is kept, and any other is absorbed by
the one that was kept for its assignment. After every part of the set, the kept samples stand for the
assignments that have appeared, in the order in which they did so first, and each of them for all samples
with its assignment so far.
-/

namespace Orchestra

namespace Sample

/-- The occurrences of some samples together. -/
def total : List Sample → Nat
  | [] => 0
  | s :: rest => s.occurrences + total rest

theorem total_append (items rest : List Sample) : total (items ++ rest) = total items + total rest := by
  induction items with
  | nil => exact (Nat.zero_add _).symm
  | cons s items ih => rw [List.cons_append, total, ih, total, Nat.add_assoc]

@[simp] theorem values_absorb (k s : Sample) : (k.absorb s).values = k.values := rfl

end Sample

namespace SampleSet

/-- The assignments of the samples, in order. -/
def assignments (set : SampleSet) : List (List Int) :=
  set.toList.map Sample.values

/-- The samples with an assignment, in order. -/
def samplesOf (set : SampleSet) (values : List Int) : List Sample :=
  set.toList.filter fun s => s.values = values

/-- How often an assignment occurs. -/
def occurrencesOf (set : SampleSet) (values : List Int) : Nat :=
  Sample.total (set.samplesOf values)

/-- A sample stands for all samples of a set with its assignment: it has the energy of the first, the
occurrences of all, and their metadata merged from left to right. -/
def Folds (set : SampleSet) (kept : Sample) : Prop :=
  ∃ first rest, set.samplesOf kept.values = first :: rest ∧ kept.energy = first.energy ∧
    kept.occurrences = set.occurrencesOf kept.values ∧
    kept.metadata = rest.foldl (fun info s => info.merge s.metadata) first.metadata

/-- A set has one sample for each assignment of another set, in the order of first appearance, which stands
for all samples with it. -/
structure Aggregates (set result : SampleSet) : Prop where
  distinct : result.assignments.Nodup
  appear : ∀ values, values ∈ result.assignments ↔ values ∈ set.assignments
  ordered : result.assignments.Pairwise fun v w =>
    set.assignments.idxOf v < set.assignments.idxOf w
  folds : ∀ kept ∈ result.toList, set.Folds kept

variable {set result : SampleSet} {s x k : Sample} {kept before after : List Sample}
  {values : List Int}

/-- Every set is made from the empty one by further samples. -/
@[elab_as_elim] theorem push_induction {motive : SampleSet → Prop} (empty : motive .empty)
    (push : ∀ set s, motive set → motive (set.push s)) (set : SampleSet) : motive set := by
  obtain ⟨items⟩ := set
  induction items using List.reverseRecOn with
  | nil => exact empty
  | append_singleton items s ih => exact push ⟨items⟩ s ih

/-- No two samples share an assignment, so none of the others has that of one of them. -/
theorem values_ne_of_nodup (distinct : ((before ++ k :: after).map Sample.values).Nodup) :
    ∀ x ∈ before ++ after, x.values ≠ k.values := by
  rw [List.map_append, List.map_cons, List.nodup_middle, List.nodup_cons,
    ← List.map_append] at distinct
  intro x hx heq
  exact distinct.1 (heq ▸ List.mem_map_of_mem hx)

/-! ### What is kept -/

theorem gather_cons_of_eq (h : k.values = s.values) : gather s (k :: kept) = k.absorb s :: kept :=
  if_pos h

theorem gather_cons_of_ne (h : k.values ≠ s.values) : gather s (k :: kept) = k :: gather s kept :=
  if_neg h

theorem gather_of_notMem (h : s.values ∉ kept.map Sample.values) : gather s kept = kept ++ [s] := by
  induction kept with
  | nil => rfl
  | cons k kept ih =>
    rw [List.map_cons, List.mem_cons, not_or] at h
    rw [gather_cons_of_ne (Ne.symm h.1), ih h.2]
    rfl

/-- The sample that was kept first for its assignment absorbs a further one. -/
theorem gather_append_cons (hbefore : s.values ∉ before.map Sample.values) (hk : k.values = s.values) :
    gather s (before ++ k :: after) = before ++ k.absorb s :: after := by
  induction before with
  | nil => exact gather_cons_of_eq hk
  | cons x before ih =>
    rw [List.map_cons, List.mem_cons, not_or] at hbefore
    rw [List.cons_append, gather_cons_of_ne (Ne.symm hbefore.1), ih hbefore.2]
    rfl

theorem exists_first (h : values ∈ kept.map Sample.values) : ∃ before k after,
    kept = before ++ k :: after ∧ values ∉ before.map Sample.values ∧ k.values = values := by
  induction kept with
  | nil => exact absurd h List.not_mem_nil
  | cons x kept ih =>
    by_cases hx : x.values = values
    · exact ⟨[], x, kept, rfl, List.not_mem_nil, hx⟩
    · obtain ⟨before, k, after, rfl, hbefore, hk⟩ :=
        ih ((List.mem_cons.mp h).resolve_left (Ne.symm hx))
      refine ⟨x :: before, k, after, rfl, fun hmem => ?_, hk⟩
      exact hbefore ((List.mem_cons.mp hmem).resolve_left (Ne.symm hx))

/-- The occurrences of a sample are added to those of its assignment. -/
theorem total_filter_gather (p : List Int → Bool) :
    Sample.total ((gather s kept).filter fun x => p x.values) =
      Sample.total (kept.filter fun x => p x.values) + if p s.values then s.occurrences else 0 := by
  by_cases h : s.values ∈ kept.map Sample.values
  · obtain ⟨before, k, after, rfl, hbefore, hk⟩ := exists_first h
    have habsorb : (k.absorb s).values = s.values := hk
    rw [gather_append_cons hbefore hk, List.filter_append, List.filter_append, Sample.total_append,
      Sample.total_append, List.filter_cons, List.filter_cons, habsorb, hk]
    cases p s.values with
    | false => rfl
    | true =>
      simp only [if_true, Sample.total, Sample.absorb]
      omega
  · rw [gather_of_notMem h, List.filter_append, Sample.total_append, List.filter_singleton]
    cases p s.values <;> rfl

theorem total_gather : Sample.total (gather s kept) = Sample.total kept + s.occurrences := by
  have htotal := @total_filter_gather s kept fun _ => true
  rwa [List.filter_true, List.filter_true, if_pos rfl] at htotal

theorem occurrencesOf_gather : (⟨gather s kept⟩ : SampleSet).occurrencesOf values =
    (⟨kept⟩ : SampleSet).occurrencesOf values + if s.values = values then s.occurrences else 0 := by
  have htotal := @total_filter_gather s kept fun v => v = values
  simp only [decide_eq_true_eq] at htotal
  exact htotal

theorem aggregate_push : (set.push s).aggregate = ⟨gather s set.aggregate.toList⟩ :=
  congrArg mk List.foldl_append

/-! ### One more sample -/

theorem assignments_push : (set.push s).assignments = set.assignments ++ [s.values] :=
  List.map_append

theorem samplesOf_push : (set.push s).samplesOf values =
    set.samplesOf values ++ if s.values = values then [s] else [] := by
  rw [samplesOf, push, List.filter_append, List.filter_singleton, Bool.cond_decide]
  rfl

theorem occurrencesOf_push : (set.push s).occurrencesOf values =
    set.occurrencesOf values + if s.values = values then s.occurrences else 0 := by
  rw [occurrencesOf, samplesOf_push, Sample.total_append, ← occurrencesOf]
  split <;> rfl

/-- Whoever stands for another assignment still does so, -/
theorem Folds.push_of_ne (h : set.Folds x) (hne : s.values ≠ x.values) : (set.push s).Folds x := by
  obtain ⟨first, rest, hsamples, henergy, hoccurrences, hmetadata⟩ := h
  refine ⟨first, rest, ?_, henergy, ?_, hmetadata⟩
  · rw [samplesOf_push, if_neg hne, List.append_nil, hsamples]
  · rw [occurrencesOf_push, if_neg hne, hoccurrences, Nat.add_zero]

/-- whoever stands for the assignment of the sample does so once it has absorbed it, -/
theorem Folds.push_absorb (h : set.Folds k) (hk : k.values = s.values) :
    (set.push s).Folds (k.absorb s) := by
  obtain ⟨first, rest, hsamples, henergy, hoccurrences, hmetadata⟩ := h
  refine ⟨first, rest ++ [s], ?_, henergy, ?_, ?_⟩
  · rw [Sample.values_absorb, samplesOf_push, if_pos hk.symm, hsamples]
    rfl
  · rw [Sample.values_absorb, occurrencesOf_push, if_pos hk.symm, ← hoccurrences]
    rfl
  · rw [List.foldl_append, ← hmetadata]
    rfl

/-- and a sample with a new assignment stands for itself. -/
theorem folds_push_of_notMem (hnew : s.values ∉ set.assignments) : (set.push s).Folds s := by
  have hpush : (set.push s).samplesOf s.values = [s] := by
    rw [samplesOf_push, if_pos rfl, samplesOf, List.filter_eq_nil_iff.mpr fun x hx heq => ?_]
    · rfl
    · exact hnew (List.mem_map.mpr ⟨x, hx, of_decide_eq_true heq⟩)
  refine ⟨s, [], hpush, rfl, ?_, rfl⟩
  rw [occurrencesOf, hpush]
  rfl

namespace Aggregates

/-- A further sample leaves the order of those before it as it was. -/
theorem ordered_push (h : set.Aggregates result) : result.assignments.Pairwise fun v w =>
    (set.push s).assignments.idxOf v < (set.push s).assignments.idxOf w := by
  refine h.ordered.imp_of_mem fun hv hw hlt => ?_
  rw [assignments_push, List.idxOf_append_of_mem ((h.appear _).mp hv),
    List.idxOf_append_of_mem ((h.appear _).mp hw)]
  exact hlt

/-- With a new assignment it is kept behind them, -/
theorem push (h : set.Aggregates result) (hnew : s.values ∉ set.assignments) :
    (set.push s).Aggregates (result.push s) := by
  have hkept : s.values ∉ result.assignments := fun hmem => hnew ((h.appear _).mp hmem)
  have hpush : (result.push s).assignments = result.assignments ++ [s.values] := assignments_push
  constructor
  · rw [hpush, List.nodup_append]
    refine ⟨h.distinct, List.nodup_singleton _, fun v hv w hw heq => ?_⟩
    exact hkept (List.mem_singleton.mp hw ▸ heq ▸ hv)
  · intro v
    rw [hpush, assignments_push, List.mem_append, List.mem_append, h.appear]
  · rw [hpush, List.pairwise_append]
    refine ⟨h.ordered_push, List.pairwise_singleton _ _, fun v hv w hw => ?_⟩
    obtain rfl := List.mem_singleton.mp hw
    have hold := (h.appear v).mp hv
    rw [assignments_push, List.idxOf_append_of_mem hold, List.idxOf_append_of_notMem hnew]
    exact Nat.lt_add_right _ (List.idxOf_lt_length_of_mem hold)
  · refine List.forall_mem_append.mpr ⟨fun x hx => ?_, List.forall_mem_singleton.mpr ?_⟩
    · exact (h.folds x hx).push_of_ne fun heq => hkept (heq ▸ List.mem_map_of_mem hx)
    · exact folds_push_of_notMem hnew

/-- and with any other it is absorbed by the one that was kept. -/
theorem absorb (h : set.Aggregates ⟨before ++ k :: after⟩) (hk : k.values = s.values) :
    (set.push s).Aggregates ⟨before ++ k.absorb s :: after⟩ := by
  have hsame : (⟨before ++ k.absorb s :: after⟩ : SampleSet).assignments =
      (⟨before ++ k :: after⟩ : SampleSet).assignments := by
    simp only [assignments, List.map_append, List.map_cons, Sample.absorb]
  have hold : s.values ∈ set.assignments := by
    rw [← h.appear, ← hk]
    exact List.mem_map_of_mem (List.mem_append_right _ List.mem_cons_self)
  have hothers : ∀ x ∈ before ++ after, s.values ≠ x.values := fun x hx heq =>
    values_ne_of_nodup h.distinct x hx (heq.symm.trans hk.symm)
  constructor
  · exact hsame ▸ h.distinct
  · intro v
    rw [hsame, h.appear, assignments_push, List.mem_append, List.mem_singleton]
    exact ⟨.inl, fun hv => hv.elim id fun heq => heq ▸ hold⟩
  · exact hsame ▸ h.ordered_push
  · have hfolds := List.forall_mem_append.mp h.folds
    have hafter := List.forall_mem_cons.mp hfolds.2
    refine List.forall_mem_append.mpr ⟨fun x hx => ?_, List.forall_mem_cons.mpr ⟨?_, fun x hx => ?_⟩⟩
    · exact (hfolds.1 x hx).push_of_ne (hothers x (List.mem_append_left _ hx))
    · exact hafter.1.push_absorb hk
    · exact (hafter.2 x hx).push_of_ne (hothers x (List.mem_append_right _ hx))

end Aggregates

/-- So it is after every part of a set. -/
theorem aggregates_aggregate (set : SampleSet) : set.Aggregates set.aggregate := by
  induction set using push_induction with
  | empty => exact ⟨.nil, fun _ => .rfl, .nil, nofun⟩
  | push set s ih =>
    rw [aggregate_push]
    by_cases hold : s.values ∈ set.assignments
    · obtain ⟨before, k, after, heq, hbefore, hk⟩ := exists_first ((ih.appear _).mpr hold)
      rw [heq, gather_append_cons hbefore hk]
      refine Aggregates.absorb ?_ hk
      rw [← heq]
      exact ih
    · rw [gather_of_notMem fun hmem => hold ((ih.appear _).mp hmem)]
      exact ih.push hold

/-! ### There is one aggregate only -/

theorem Folds.unique (h : set.Folds k) (h' : set.Folds x) (heq : k.values = x.values) : k = x := by
  obtain ⟨first, rest, hsamples, henergy, hoccurrences, hmetadata⟩ := h
  obtain ⟨first', rest', hsamples', henergy', hoccurrences', hmetadata'⟩ := h'
  rw [heq, hsamples'] at hsamples
  obtain ⟨rfl, rfl⟩ := List.cons.inj hsamples
  obtain ⟨values, energy, occurrences, metadata⟩ := k
  obtain ⟨values', energy', occurrences', metadata'⟩ := x
  dsimp only at *
  subst heq henergy henergy' hoccurrences hoccurrences' hmetadata hmetadata'
  rfl

theorem Aggregates.unique {result' : SampleSet} (h : set.Aggregates result)
    (h' : set.Aggregates result') : result = result' := by
  have hperm : result.assignments.Perm result'.assignments :=
    (List.perm_ext_iff_of_nodup h.distinct h'.distinct).mpr fun v =>
      (h.appear v).trans (h'.appear v).symm
  -- Both are sorted by first appearance, which no two assignments share.
  have hassignments : result.assignments = result'.assignments :=
    hperm.eq_of_pairwise (fun _ _ _ _ hlt hgt => absurd hlt (Nat.lt_asymm hgt)) h.ordered h'.ordered
  refine congrArg SampleSet.mk (List.ext_getElem? fun i => ?_)
  have hi : (result.toList[i]?).map Sample.values = (result'.toList[i]?).map Sample.values := by
    rw [← List.getElem?_map, ← List.getElem?_map]
    exact congrArg (·[i]?) hassignments
  cases hx : result.toList[i]? with
  | none =>
    rw [hx] at hi
    exact (Option.map_eq_none_iff.mp hi.symm).symm
  | some x =>
    rw [hx] at hi
    obtain ⟨y, hy, hvalues⟩ := Option.map_eq_some_iff.mp hi.symm
    rw [hy, (h.folds x (List.mem_of_getElem? hx)).unique (h'.folds y (List.mem_of_getElem? hy))
      hvalues.symm]

/-- Aggregation leads to the only set that is as it should be. -/
theorem aggregates_iff : set.Aggregates result ↔ result = set.aggregate :=
  ⟨fun h => h.unique set.aggregates_aggregate, fun heq => heq ▸ set.aggregates_aggregate⟩

/-! ### What aggregation keeps -/

theorem total_aggregate (set : SampleSet) :
    Sample.total set.aggregate.toList = Sample.total set.toList := by
  induction set using push_induction with
  | empty => rfl
  | push set s ih =>
    rw [aggregate_push, total_gather, ih, push, Sample.total_append]
    rfl

theorem aggregate_of_nodup (h : set.assignments.Nodup) : set.aggregate = set := by
  induction set using push_induction with
  | empty => rfl
  | push set s ih =>
    rw [assignments_push, List.nodup_append] at h
    rw [aggregate_push, ih h.1, gather_of_notMem fun hmem =>
      h.2.2 _ hmem _ (List.mem_singleton_self _) rfl]
    rfl

theorem aggregate_aggregate (set : SampleSet) : set.aggregate.aggregate = set.aggregate :=
  aggregate_of_nodup set.aggregates_aggregate.distinct

/-! ### Counts of 64 bits -/

/-- Each assignment occurs as often as a word of 64 bits can say. -/
def Fits (set : SampleSet) : Prop :=
  ∀ values, set.occurrencesOf values < UInt64.size

theorem total_filter_le (p : Sample → Bool) (items : List Sample) :
    Sample.total (items.filter p) ≤ Sample.total items := by
  induction items with
  | nil => exact Nat.le_refl _
  | cons s items ih =>
    rw [List.filter_cons]
    split
    · exact Nat.add_le_add_left ih _
    · exact Nat.le_trans ih (Nat.le_add_left _ _)

theorem fits_of_total (h : Sample.total set.toList < UInt64.size) : set.Fits :=
  fun _ => Nat.lt_of_le_of_lt (total_filter_le _ _) h

/-- No count that aggregation comes to on its way is too large for such a word. -/
def CountsFit (set : SampleSet) : Prop :=
  ∀ n, ∀ kept ∈ (aggregate ⟨set.toList.take n⟩).toList, kept.occurrences < UInt64.size

theorem Fits.countsFit (fits : set.Fits) : set.CountsFit := by
  intro n kept hkept
  obtain ⟨-, -, -, -, hoccurrences, -⟩ := (aggregates_aggregate ⟨set.toList.take n⟩).folds kept hkept
  have hle : (⟨set.toList.take n⟩ : SampleSet).occurrencesOf kept.values ≤
      set.occurrencesOf kept.values := by
    have hsplit := List.take_append_drop n set.toList
    rw [occurrencesOf, occurrencesOf, samplesOf, samplesOf, ← hsplit, List.filter_append,
      Sample.total_append, hsplit]
    exact Nat.le_add_right _ _
  rw [hoccurrences]
  exact Nat.lt_of_le_of_lt hle (fits _)

end SampleSet

/-- Aggregation leads to the set with one sample for each assignment, in the order of first appearance, that
has the energy of the first sample with it, the occurrences of all, and their metadata merged from left to
right. There is only one such set. It has the same occurrences in total, is its own aggregate, and is the
set itself if no assignment appears twice. -/
theorem aggregation_folds_samples (set : SampleSet) (fits : set.Fits) :
    (∀ result, set.Aggregates result ↔ result = set.aggregate) ∧
      set.CountsFit ∧
      Sample.total set.aggregate.toList = Sample.total set.toList ∧
      set.aggregate.aggregate = set.aggregate ∧
      (set.assignments.Nodup → set.aggregate = set) :=
  ⟨fun _ => SampleSet.aggregates_iff, fits.countsFit, set.total_aggregate, set.aggregate_aggregate,
    SampleSet.aggregate_of_nodup⟩

/-- Of two assignments the one that appears again absorbs the further sample, whose energy is forgotten. -/
theorem aggregation_folds_samples_of_three :
    let found (n : Nat) : Info := Info.empty.insert "found" (.ofNat n)
    let set : SampleSet := ⟨[⟨[1, -1], .zero, 1, found 1⟩, ⟨[1, 1], .infinity, 2, .empty⟩,
      ⟨[1, -1], .infinity, 3, found 3⟩]⟩
    set.Fits ∧ set.Aggregates ⟨[⟨[1, -1], .zero, 4, found 4⟩, ⟨[1, 1], .infinity, 2, .empty⟩]⟩ := by
  intro found set
  have fits : set.Fits := SampleSet.fits_of_total (by decide)
  exact ⟨fits, ((aggregation_folds_samples set fits).1 _).mpr (by with_unfolding_all rfl)⟩

end Orchestra
