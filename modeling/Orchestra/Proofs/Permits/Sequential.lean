import Orchestra.Proofs.Permits.Undisturbed

/-!
# Maps as sequential maps

What a map comes to that nobody disturbs is what going through its list state by state would come to:
neither the bound on concurrent elements nor the time that each of them takes has a part in it. The
bound must be one that a limit can hold; with a greater one a map panics.
-/

namespace Orchestra

/-- A list with its positions, read off position by position. -/
theorem zipIdx_eq_filterMap {α : Type} (l : List α) :
    l.zipIdx = (List.range l.length).filterMap fun i => l[i]?.map fun a => (a, i) := by
  induction l using List.reverseRecOn with
  | nil => rfl
  | append_singleton l a ih =>
    have hbefore : (List.range l.length).filterMap (fun i => (l ++ [a])[i]?.map fun a => (a, i)) =
        l.zipIdx := by
      rw [ih]
      refine List.filterMap_congr fun i hi => ?_
      rw [List.getElem?_append_left (List.mem_range.mp hi)]
    rw [List.zipIdx_append, List.length_append, List.length_singleton, List.range_succ,
      List.filterMap_append, hbefore]
    simp

/-! ### Going through a list -/

namespace Map

variable (f : State → Except RunError State) (worker : String) (states : List State)

/-- The states that a function makes of those of a list, without those for which it fails. -/
def survivors : List State :=
  states.filterMap fun s => (f s).toOption

/-- One marker for each state for which it fails, with the position of the state. -/
def failures : List FailureMarker :=
  states.zipIdx.filterMap fun (s, i) =>
    (Outcome.failure? ((f s).map .one)).map (FailureMarker.ofError i worker)

/-- What a function comes to for the states of a list. -/
def resultsOf : Results :=
  fun i => states[i]?.map fun s => (f s).map .one

/-- What going through a list comes to. Acknowledging a stop is neither a success nor a failure. -/
structure InOrder (policy : FailurePolicy) (o : Outcome) : Prop where
  /-- The empty list gives the empty list. -/
  empty : states = [] → o = .ok (.many ⟨[], []⟩)
  /-- Under best effort the survivors are kept, and failures are only marked. -/
  kept : policy = .bestEffort → survivors f states ≠ [] →
    o = .ok (.many ⟨survivors f states, failures f worker states⟩)
  /-- Without a survivor the number of failures is reported. -/
  lost : policy = .bestEffort → survivors f states = [] → failures f worker states ≠ [] →
    ∃ s ∈ states, ∃ e, f s = .error e ∧ e ≠ .cancelled ∧
      o = .error (.allFailed (failures f worker states).length e)
  /-- Under fail-fast without a failure it is the same list. -/
  faultless : policy = .failFast → failures f worker states = [] → survivors f states ≠ [] →
    o = .ok (.many ⟨survivors f states, []⟩)
  /-- With a failure the map fails with that of one state. -/
  raised : policy = .failFast → failures f worker states ≠ [] →
    ∃ s ∈ states, ∃ e, f s = .error e ∧ e ≠ .cancelled ∧ o = .error e
  /-- If nothing survives and nothing fails, the map is cancelled. -/
  cancelled : states ≠ [] → survivors f states = [] → failures f worker states = [] →
    o = .error .cancelled

variable {f worker states}

/-- The survivors are the outputs, -/
theorem states_resultsOf :
    (resultsOf f states).states states.length = survivors f states := by
  have hpicked : survivors f states = states.zipIdx.filterMap fun x => (f x.1).toOption := by
    calc survivors f states = (states.zipIdx.map Prod.fst).filterMap fun s => (f s).toOption := by
          rw [List.zipIdx_map_fst]; rfl
      _ = states.zipIdx.filterMap fun x => (f x.1).toOption := List.filterMap_map ..
  rw [hpicked, zipIdx_eq_filterMap, List.filterMap_filterMap, List.filterMap_eq_flatMap_toList,
    Results.states, Results.outputs, List.flatMap_map]
  refine List.flatMap_congr fun i _ => ?_
  unfold Results.output? resultsOf
  cases states[i]? with
  | none => rfl
  | some s => cases hs : f s <;> simp [hs, Except.map, Except.toOption, Outcome.output?, Data.states]

/-- and the markers those of the failures, -/
theorem markers_resultsOf :
    (resultsOf f states).markers states.length (fun _ => worker) = failures f worker states := by
  rw [failures, zipIdx_eq_filterMap, List.filterMap_filterMap]
  refine List.filterMap_congr fun i _ => ?_
  unfold Results.failure? resultsOf
  cases states[i]? <;> rfl

/-- of which there are as many. -/
theorem failed_resultsOf :
    (resultsOf f states).failed states.length = (failures f worker states).length := by
  rw [← markers_resultsOf, Results.markers, List.length_filterMap_eq_countP]
  refine List.countP_congr fun i _ => ?_
  rw [Option.isSome_map]

/-- The output for one state, -/
theorem output?_resultsOf {i : Nat} {d : Data} : (resultsOf f states).output? i = some d ↔
    ∃ s, states[i]? = some s ∧ ∃ s', f s = .ok s' ∧ d = .one s' := by
  rw [Results.output?_eq_some, resultsOf, Option.map_eq_some_iff]
  refine exists_congr fun s => and_congr_right fun _ => ?_
  cases f s <;> simp [Except.map, eq_comm]

/-- and the failure for one state. -/
theorem failure?_resultsOf {i : Nat} {e : RunError} : (resultsOf f states).failure? i = some e ↔
    ∃ s, states[i]? = some s ∧ f s = .error e ∧ e ≠ .cancelled := by
  rw [Results.failure?_eq_some, resultsOf, Option.map_eq_some_iff, ← exists_and_right]
  refine exists_congr fun s => ?_
  rw [and_assoc]
  refine and_congr_right fun _ => and_congr_left fun _ => ?_
  cases f s <;> simp [Except.map]

/-- Something survives if there is an output, -/
theorem survivors_ne_nil : survivors f states ≠ [] ↔
    ∃ i < states.length, ((resultsOf f states).output? i).isSome := by
  constructor
  · intro hne
    obtain ⟨s', hs'⟩ := List.exists_mem_of_ne_nil _ hne
    obtain ⟨s, hs, hf⟩ := List.mem_filterMap.mp hs'
    obtain ⟨i, hi, rfl⟩ := List.getElem_of_mem hs
    refine ⟨i, hi, Option.isSome_iff_exists.mpr ⟨.one s', output?_resultsOf.mpr ?_⟩⟩
    refine ⟨_, List.getElem?_eq_getElem hi, s', ?_, rfl⟩
    cases hfs : f states[i] <;> simp_all [Except.toOption]
  · rintro ⟨i, hi, hsome⟩ hnil
    obtain ⟨d, hd⟩ := Option.isSome_iff_exists.mp hsome
    obtain ⟨s, hs, s', hf, rfl⟩ := output?_resultsOf.mp hd
    have hnone := List.filterMap_eq_nil_iff.mp hnil s (List.mem_of_getElem? hs)
    rw [hf] at hnone
    contradiction

/-- and something is marked if there is a failure. -/
theorem failures_ne_nil : failures f worker states ≠ [] ↔
    ∃ i < states.length, ((resultsOf f states).failure? i).isSome := by
  rw [← markers_resultsOf, Results.markers, Ne, List.filterMap_eq_nil_iff]
  simp only [List.mem_range, Option.map_eq_none_iff, not_forall, exists_prop,
    Option.isSome_iff_ne_none, Ne]

/-- A failure for a state of the list is marked. -/
theorem failures_ne_nil_of_mem {s : State} {e : RunError} (hs : s ∈ states) (hf : f s = .error e)
    (hfailed : e ≠ .cancelled) : failures f worker states ≠ [] := by
  obtain ⟨i, hi, rfl⟩ := List.getElem_of_mem hs
  refine failures_ne_nil.mpr ⟨i, hi, Option.isSome_iff_exists.mpr ⟨e, failure?_resultsOf.mpr ?_⟩⟩
  exact ⟨_, List.getElem?_eq_getElem hi, hf, hfailed⟩

/-- A failure that is raised is that of one state. -/
theorem inOrder_of_raised {s : State} {e : RunError} (hs : s ∈ states) (hf : f s = .error e)
    (hfailed : e ≠ .cancelled) : InOrder f worker states .failFast (.error e) := by
  have hne : failures f worker states ≠ [] := failures_ne_nil_of_mem hs hf hfailed
  exact {
    empty := fun hnil => by rw [hnil] at hs; contradiction
    kept := nofun
    lost := nofun
    faultless := fun _ hnone => absurd hnone hne
    raised := fun _ _ => ⟨s, hs, e, hf, hfailed, rfl⟩
    cancelled := fun _ _ hnone => absurd hnone hne }

/-- What a gathering yields is in order if each child has come to what the function makes of its
state. -/
theorem inOrder_of_yields {E : Endings} {policy : FailurePolicy} {o : Outcome} (hne : states ≠ [])
    (genuine : ∀ i < states.length, E.results i = resultsOf f states i)
    (accepted : policy = .failFast → failures f worker states = [])
    (yields : E.Yields states.length (fun _ => worker) (result worker) o) :
    InOrder f worker states policy o := by
  have hmarkers : E.results.markers states.length (fun _ => worker) = failures f worker states :=
    (Results.markers_congr genuine fun _ _ => rfl).trans markers_resultsOf
  have houtput (i : Nat) (hi : i < states.length) :
      E.results.output? i = (resultsOf f states).output? i := by
    rw [Results.output?, Results.output?, genuine i hi]
  have hfailure (i : Nat) (hi : i < states.length) :
      E.results.failure? i = (resultsOf f states).failure? i := by
    rw [Results.failure?, Results.failure?, genuine i hi]
  have hkept (hsome : survivors f states ≠ []) :
      o = .ok (.many ⟨survivors f states, failures f worker states⟩) := by
    obtain ⟨i, hi, hout⟩ := survivors_ne_nil.mp hsome
    rw [yields.output ⟨i, hi, by rw [houtput i hi, hout]⟩, result_of_single fun d hd => ?_,
      ← states_resultsOf, ← Results.states_congr genuine, ← hmarkers]
    · rfl
    · obtain ⟨j, hj, hd⟩ := List.mem_map.mp hd
      rw [houtput j (List.mem_range.mp hj), output?_resultsOf] at hd
      obtain ⟨-, -, s', -, rfl⟩ := hd
      exact ⟨s', rfl⟩
  have hnoOutput (hnone : survivors f states = []) (i : Nat) (hi : i < states.length) :
      E.results.output? i = none := by
    rw [houtput i hi]
    exact Option.not_isSome_iff_eq_none.mp fun hsome => survivors_ne_nil.mpr ⟨i, hi, hsome⟩ hnone
  exact {
    empty := fun hnil => absurd hnil hne
    kept := fun _ => hkept
    lost := fun _ hnone hfailed => by
      obtain ⟨i, hi, hsome⟩ := failures_ne_nil.mp hfailed
      obtain ⟨e, ⟨j, hj, place, hended, hcancelled, -⟩, ho⟩ :=
        yields.failure (hnoOutput hnone) ⟨i, hi, by rw [hfailure i hi, hsome]⟩
      have hresult : E.results j = some (.error e) := by rw [Endings.results, hended]; rfl
      obtain ⟨s, hs, hf, hne⟩ := failure?_resultsOf.mp (Results.failure?_eq_some.mpr
        ⟨genuine j hj ▸ hresult, RunError.isCancelled_eq_false.mp hcancelled⟩)
      refine ⟨s, List.mem_of_getElem? hs, e, hf, hne, ?_⟩
      rw [ho, Results.failed_congr genuine, failed_resultsOf]
    faultless := fun _ hnone hsome => hnone ▸ hkept hsome
    raised := fun hpolicy hfailed => absurd (accepted hpolicy) hfailed
    cancelled := fun _ hnone hnoFailure => by
      refine yields.cancelled (hnoOutput hnone) fun i hi => ?_
      rw [hfailure i hi]
      exact Option.not_isSome_iff_eq_none.mp fun hsome =>
        failures_ne_nil.mpr ⟨i, hi, hsome⟩ hnoFailure }

/-! ### What a map comes to -/

section Running

open Machine Trace

variable {map : Map} {ctx : Context} {tr : Trace} {task : TaskId} {first : Nat}
  {K : Outcome → Task} {added : Nat → Nat}
  (running : (tr.machine first).control = .running task ((map.mapStates ctx states).andThen K))
  (hbound : ∀ permits, map.bound ctx.config = some permits → permits ≤ maxPermits)
  (htime : ∀ instant, ∃ k, instant ≤ tr.history.clock k)
  (adds : tr.Adds (tr.history.world first).limits.size added)
  (owns : ∀ permits, map.bound ctx.config = some permits → map.OwnsLimit ctx states tr task first)
  (computes : map.Computes ctx states tr task first f)
  (unstopped : map.Unstopped ctx states tr task first)
include running hbound htime adds owns computes unstopped

/-- A child before whose end none has failed under fail-fast has come to what the function makes of its
state. -/
theorem Item.genuine {i k : Nat} {s : State} {c : Child} {e : Nat × Outcome}
    (item : map.Item ctx states tr task first i s c)
    (hended : tr.history.endings k (map.firstStart ctx.config first) i = some e)
    (unfailed : (map.rules ctx.config).policy = .failFast → ∀ j < k,
      tr.history.endings j (map.firstStart ctx.config first) i = none →
        ¬ map.Fails ctx states tr first j) : e.2 = (f s).map .one := by
  -- the child has ended at some first moment, and was not stopped then
  have hex : ∃ j, (tr.history.endings j (map.firstStart ctx.config first) i).isSome :=
    ⟨k, Option.isSome_iff_exists.mpr ⟨_, hended⟩⟩
  have hle : Nat.find hex ≤ k := Nat.find_min' hex (Option.isSome_iff_exists.mpr ⟨_, hended⟩)
  have unended (j : Nat) (hj : j < Nat.find hex) :
      tr.history.endings j (map.firstStart ctx.config first) i = none :=
    Option.not_isSome_iff_eq_none.mp (Nat.find_min hex hj)
  have hfree : (tr.history.world (Nat.find hex)).isStopped c.token = false := by
    refine Bool.eq_false_iff.mpr fun hstopped => ?_
    obtain ⟨j, hj, hpolicy, hfails⟩ := item.failed_of_stopped running htime unstopped unended hstopped
    exact unfailed hpolicy j (Nat.lt_of_lt_of_le hj hle) (unended j hj) hfails
  have hended' : tr.history.ended? (Nat.find hex) c.id = some (e.1, e.2) :=
    item.id ▸ History.endings_eq hended (Nat.find_spec hex)
  obtain ⟨j, -, control⟩ := item.executes running hbound htime adds owns
    (Option.isSome_iff_exists.mpr ⟨_, hended'⟩) hfree
  exact (computes i s c j item control).2 _ e.1 e.2 hended' hfree

/-- The failure that comes first is no effect of a stop, because none has been issued before. -/
theorem genuine_of_firstFailure {k : Nat} {e : RunError}
    (hfirst : (tr.history.endings k (map.firstStart ctx.config first)).FirstFailure states.length e) :
    ∃ s ∈ states, f s = .error e ∧ e ≠ .cancelled := by
  obtain ⟨i, hi, place, hended, hcancelled, hleast⟩ := hfirst
  obtain ⟨c, item⟩ := exists_item running hbound htime (List.getElem?_eq_getElem hi)
  have hgenuine := item.genuine running hbound htime adds owns computes unstopped hended ?_
  · refine ⟨states[i], List.getElem_mem hi, ?_, RunError.isCancelled_eq_false.mp hcancelled⟩
    cases hf : f states[i] with
    | ok s => rw [hf] at hgenuine; contradiction
    | error e' => rw [hf] at hgenuine; cases hgenuine; rfl
  · rintro - j hj hnone ⟨i', hi', place', e', hother, hfailed'⟩
    have later := tr.history.later_of_le (Nat.le_of_lt hj)
    have hplace := later.place _ _ _ _ hother hnone hended
    have hleast' := hleast i' hi' place' e' (later.ended _ _ hother)
      (RunError.isCancelled_eq_false.mpr hfailed')
    dsimp only at hplace
    omega

/-- If the function fails for no state then no child fails. -/
theorem not_fails (hnone : failures f map.worker.name states = []) (k : Nat) :
    ¬ map.Fails ctx states tr first k := by
  induction k using Nat.strong_induction_on with
  | _ k ih =>
    rintro ⟨i, hi, place, e, hended, hfailed⟩
    obtain ⟨c, item⟩ := exists_item running hbound htime (List.getElem?_eq_getElem hi)
    have hgenuine := item.genuine running hbound htime adds owns computes unstopped hended
      fun _ j hj _ => ih j hj
    refine failures_ne_nil_of_mem (List.getElem_mem hi) ?_ hfailed hnone
    cases hf : f states[i] with
    | ok s => rw [hf] at hgenuine; contradiction
    | error e' => rw [hf] at hgenuine; cases hgenuine; rfl

/-- A run that ends has gone through the list. -/
theorem inOrder_of_runs {m' : Nat} {es : List Exchange} {o : Outcome}
    (run : tr.history.Runs task first (map.mapStates ctx states) es m' o) :
    InOrder f map.worker.name states (map.rules ctx.config).policy o := by
  by_cases hne : states = []
  · subst hne
    obtain ⟨-, -, rfl⟩ := History.runs_done_iff.mp run
    exact ⟨fun _ => rfl, fun _ h => absurd rfl h, fun _ _ h => absurd rfl h, fun _ _ h => absurd rfl h,
      fun _ h => absurd rfl h, fun h => absurd rfl h⟩
  obtain ⟨fan, es₀, es₁, rfl, -, start, hgather⟩ := runs_mapStates hne run
  cases hgather with
  | @finished e from_le le clock_eq all accepted quiet yields =>
    have hname (i : Nat) (hi : i < states.length) : fan.name i = map.worker.name := by
      have hi' : i < (states.map fun _ => map.worker.name).length := by rwa [List.length_map]
      rw [start.name hi', List.getElem_map]
    have hgenuine (i : Nat) (hi : i < states.length) :
        (tr.history.endings e (map.firstStart ctx.config first)).results i =
          resultsOf f states i := by
      obtain ⟨c, item⟩ := exists_item running hbound htime (List.getElem?_eq_getElem hi)
      obtain ⟨x, hx⟩ := Option.isSome_iff_exists.mp (all i hi)
      rw [Endings.results, hx, resultsOf, List.getElem?_eq_getElem hi]
      refine congrArg some (item.genuine running hbound htime adds owns computes unstopped hx ?_)
      rintro hpolicy j hj - ⟨i', hi', place, e', hended, hfailed⟩
      have hnone := accepted hpolicy i' hi'
      rw [Results.failure?_eq_some.mpr ⟨?_, hfailed⟩] at hnone
      · contradiction
      · rw [Endings.results, History.endings_eq hended (all i' hi')]
        rfl
    refine inOrder_of_yields hne hgenuine (fun hpolicy => ?_) (yields.congr (fun _ _ => rfl) hname)
    rw [← markers_resultsOf, ← Results.markers_congr hgenuine fun _ _ => rfl]
    exact Results.markers_eq_nil (accepted hpolicy)
  | @raised k e failFast from_le le first outcome quiet anyFinish =>
    obtain ⟨s, hs, hf, hfailed⟩ := genuine_of_firstFailure running hbound htime adds owns computes
      unstopped (first k (Nat.le_refl k))
    rw [failFast, outcome]
    exact inOrder_of_raised hs hf hfailed
  | stopped from_le stop_le le clock_eq clock_le closed seen =>
    rw [unstopped.context] at seen
    contradiction

end Running

/-- A map that nobody disturbs goes through its list in order, whatever its bound on concurrent
elements is and however long they take. Each element ends, so that none waits for a permit for good,
and so does the map. Where a failure is raised the grace period must be over at some instant. -/
theorem completes_in_order {map : Map} {ctx : Context} {states : List State}
    {markers : List FailureMarker} {f : State → Except RunError State} {tr : Trace} {task : TaskId}
    {first : Nat} {K : Outcome → Task} {added : Nat → Nat}
    (running : (tr.machine first).control =
      .running task ((map.runnable.next ctx (.many ⟨states, markers⟩)).andThen K))
    (htime : ∀ instant, ∃ k, instant ≤ tr.history.clock k)
    (adds : tr.Adds (tr.history.world first).limits.size added)
    (computes : map.Computes ctx states tr task first f)
    (unstopped : map.Unstopped ctx states tr task first)
    (bounded : ∀ bound, (map.maxConcurrency <|> ctx.config.mapLimit) = some bound →
      bound ≤ maxPermits ∧ map.OwnsLimit ctx states tr task first)
    (graceful : (map.rules ctx.config).policy = .failFast → failures f map.worker.name states ≠ [] →
      ∃ k, map.Fails ctx states tr first k ∧
        tr.history.clock k + (map.rules ctx.config).grace.nanos < Instant.limit) :
    (∃ k, ∀ i s, states[i]? = some s →
      ∃ c, map.Item ctx states tr task first i s c ∧ (tr.history.ended? k c.id).isSome) ∧
    ∃ k o, first ≤ k ∧ (tr.machine k).control = .running task (K o) ∧
      InOrder f map.worker.name states (map.rules ctx.config).policy o := by
  have hbounded (permits : Nat) (h : map.bound ctx.config = some permits) :
      permits ≤ maxPermits ∧ map.OwnsLimit ctx states tr task first := by
    obtain ⟨bound, hbound, rfl⟩ := Option.map_eq_some_iff.mp h
    obtain ⟨hle, owns⟩ := bounded bound hbound
    exact ⟨Nat.max_le.mpr ⟨hle, by decide⟩, owns⟩
  have hbound permits h := (hbounded permits h).1
  have owns permits h := (hbounded permits h).2
  have running' :
      (tr.machine first).control = .running task ((map.mapStates ctx states).andThen K) := running
  obtain ⟨final, hall⟩ := all_end running' hbound htime adds owns computes
  constructor
  · refine ⟨final, fun i s hs => ?_⟩
    obtain ⟨c, item⟩ := exists_item running' hbound htime hs
    exact ⟨c, item, item.id ▸ hall i (List.getElem?_eq_some_iff.mp hs).1⟩
  have hgoes : ¬ tr.history.Stuck (fun _ => False) task first (map.mapStates ctx states) := by
    by_cases hraised : (map.rules ctx.config).policy = .failFast ∧
        failures f map.worker.name states ≠ []
    · obtain ⟨k, ⟨i, hi, place, e, hended, hfailed⟩, hgrace⟩ := graceful hraised.1 hraised.2
      have hclock : tr.history.clock first ≤ tr.history.clock k :=
        Nat.le_trans (tr.history.clock_mono (map.le_firstStart ctx.config first))
          (History.clock_le_of_ended (Option.isSome_iff_exists.mpr ⟨_, hended⟩))
      refine not_stuck_mapStates hbound htime (.inr (.inl ?_)) hclock (Nat.le_refl _) (.of_lt hgrace)
      exact ⟨⟨i, _⟩, History.mem_startedAt.mpr ⟨hi, rfl⟩, place, _, hended, hraised.1, e, rfl, hfailed⟩
    · refine not_stuck_mapStates hbound htime (.inl (History.all_startedAt.mpr hall))
        (tr.history.clock_mono (Nat.le_max_left first final))
        (tr.history.clock_mono (Nat.le_max_right first final))
        (.of_awake (fun k _ => unstopped.context k) ?_)
      rintro ⟨i, hi, k, place, o, hended, hpolicy, e, rfl, hfailed⟩
      exact absurd ⟨i, hi, place, e, hended, hfailed⟩
        (not_fails running' hbound htime adds owns computes unstopped
          (not_not.mp fun hne => hraised ⟨hpolicy, hne⟩) k)
  obtain ⟨es, k, o, run, hover⟩ := Trace.completes htime (fun _ => False.elim) running' hgoes
  exact ⟨k, o, run.le, hover,
    inOrder_of_runs running' hbound htime adds owns computes unstopped run⟩

/-! ### Two at a time -/

/-- How long a state lets a worker wait. -/
def pace (s : State) : Nat :=
  (s.problem.map Problem.handle).getD 0

/-- Too short a wait is a failure. -/
def unhurried (s : State) : Except RunError State :=
  if pace s < 10 then .error (.runnable "Paced" "too fast") else .ok s

/-- A map that works on two states at a time, and waits as long as each of them says. -/
def paced : Map where
  worker := ⟨"Paced", fun _ => "Paced", fun ctx input =>
    match input.toState "Paced" with
    | .error e => .fail e
    | .ok s => .ask (.sleep (.ofMillis (pace s)) (some ctx.token)) fun _ => .done ((unhurried s).map .one)⟩
  maxConcurrency := some 2
  policy := some .bestEffort
  stopGrace := none

/-- The first of these states takes the longest, and the second one fails. -/
def pacedStates : List State :=
  [30, 5, 10].map fun ms => State.empty.withProblem ⟨ms, "", ""⟩

/-- The context in which they are mapped. -/
def pacedContext : Context :=
  ⟨1, .default, 0⟩

/-- They are mapped in a session in which nothing else happens. -/
def pacedTrace : Trace :=
  .fresh [fun token => paced.runnable.next ⟨token, .default, 0⟩ (.many ⟨pacedStates, []⟩)]

theorem running_paced : (pacedTrace.machine 2).control =
    .running 0 ((paced.runnable.next pacedContext (.many ⟨pacedStates, []⟩)).andThen .done) := by
  rw [Task.andThen_done]
  with_unfolding_all rfl

theorem over_paced : (Machine.next^[48] (pacedTrace.machine 0)).Over := by
  constructor <;> with_unfolding_all rfl

/-- The children that are started. -/
theorem child_of_paced {i : Nat} {s : State} {c : Child}
    (item : paced.Item pacedContext pacedStates pacedTrace 0 2 i s c) :
    i < 3 ∧ c = ⟨i + 1, i + 2, "Paced"⟩ := by
  have hi : i < 3 := (List.getElem?_eq_some_iff.mp item.state).1
  refine ⟨hi, Trace.Starts.unique ?_ item.starts⟩
  match i, hi with
  | 0, _ | 1, _ | 2, _ => exact ⟨_, _, _, _, by with_unfolding_all rfl, by with_unfolding_all rfl⟩

theorem computes_paced : paced.Computes pacedContext pacedStates pacedTrace 0 2 unhurried := by
  intro i s c j item _
  obtain ⟨hi, rfl⟩ := child_of_paced item
  obtain ⟨place, hended⟩ : ∃ place,
      pacedTrace.history.ended? 48 (i + 1) = some (place, (unhurried s).map .one) := by
    have hstate := item.state
    match i, hi with
    | 0, _ | 1, _ | 2, _ => cases hstate; exact ⟨_, by with_unfolding_all rfl⟩
  refine ⟨⟨48, Option.isSome_iff_exists.mpr ⟨_, hended⟩⟩, fun k place' o hended' _ => ?_⟩
  exact congrArg Prod.snd (History.ended?_unique hended' hended)

theorem unstopped_paced : paced.Unstopped pacedContext pacedStates pacedTrace 0 2 := by
  have hfree {token : TokenId} (h : (Machine.next^[48] (pacedTrace.machine 0)).world.isStopped
      token = false) (k : Nat) : (pacedTrace.history.world k).isStopped token = false :=
    Trace.not_stopped_of_over over_paced h k
  refine ⟨hfree (by with_unfolding_all rfl), fun i s c item k hstopped => ?_⟩
  obtain ⟨hi, rfl⟩ := child_of_paced item
  match i, hi with
  | 0, _ | 1, _ | 2, _ =>
    rw [hfree (by with_unfolding_all rfl)] at hstopped
    contradiction

/-- Whoever asks for a permit of a limit. -/
def asker? (limit : LimitId) : Control → Option TaskId
  | .running task (.ask (.acquire l _) _) => if l = limit then some task else none
  | _ => none

theorem ownsLimit_paced : paced.OwnsLimit pacedContext pacedStates pacedTrace 0 2 := by
  have hlimit : (pacedTrace.history.world 2).limits.size = 0 := by with_unfolding_all rfl
  refine ⟨Machine.untouched_fresh _ _, fun k task token next _ control => ?_, fun k l hl => ?_⟩
  · have hasks : ∀ k < 48, ∀ task ∈ asker? 0 (pacedTrace.machine k).control,
        0 < task ∧ task ≤ 3 := by
      decide +kernel
    rw [hlimit] at control
    have hk : k < 48 := by
      by_contra hle
      obtain ⟨d, rfl⟩ := Nat.exists_eq_add_of_le (Nat.le_of_not_lt hle)
      rw [show pacedTrace.machine (48 + d) = _ from Trace.machine_of_over over_paced d] at control
      contradiction
    obtain ⟨hpos, hle⟩ := hasks k hk task (by rw [control]; rfl)
    obtain ⟨i, rfl⟩ := Nat.exists_eq_add_of_le' hpos
    have hi : i < pacedStates.length := hle
    obtain ⟨c, item⟩ : ∃ c, paced.Item pacedContext pacedStates pacedTrace 0 2 i pacedStates[i] c :=
      exists_item running_paced (by rintro permits ⟨⟩; decide) (Trace.time_goes_on over_paced)
        (List.getElem?_eq_getElem hi)
    exact ⟨i, _, c, item, by rw [(child_of_paced item).2]⟩
  · have hopen : ∀ k ≤ 48, ∀ l ∈ (pacedTrace.history.world k).limits.get? 0, l.closed = false := by
      decide +kernel
    rw [hlimit] at hl
    rcases Nat.le_total k 48 with hk | hk
    · exact hopen k hk l hl
    · obtain ⟨d, rfl⟩ := Nat.exists_eq_add_of_le hk
      rw [show pacedTrace.history.world (48 + d) = _ from Trace.world_of_over over_paced d] at hl
      exact hopen 48 (Nat.le_refl 48) l hl

/-- The third state is done before the first one, and comes after it. -/
theorem completes_in_order_of_paced :
    let h := pacedTrace.history
    (pacedTrace.machine 2).control =
      .running 0 ((paced.runnable.next pacedContext (.many ⟨pacedStates, []⟩)).andThen .done) ∧
    (∀ instant, ∃ k, instant ≤ h.clock k) ∧
    pacedTrace.Adds (h.world 2).limits.size (fun _ => 0) ∧
    paced.Computes pacedContext pacedStates pacedTrace 0 2 unhurried ∧
    paced.Unstopped pacedContext pacedStates pacedTrace 0 2 ∧ 2 ≤ maxPermits ∧
    paced.OwnsLimit pacedContext pacedStates pacedTrace 0 2 ∧
    (∃ k, ∀ i s, pacedStates[i]? = some s →
      ∃ c, paced.Item pacedContext pacedStates pacedTrace 0 2 i s c ∧ (h.ended? k c.id).isSome) ∧
    ∃ k o, 2 ≤ k ∧ (pacedTrace.machine k).control = .running 0 (.done o) ∧
      o = .ok (.many ⟨[30, 10].map fun ms => State.empty.withProblem ⟨ms, "", ""⟩,
        [⟨1, "Paced", "runnable Paced failed: too fast"⟩]⟩) := by
  intro h
  have htime : ∀ instant, ∃ k, instant ≤ h.clock k := Trace.time_goes_on over_paced
  have adds : pacedTrace.Adds (h.world 2).limits.size fun _ => 0 := Trace.adds_alone _ _ _
  obtain ⟨hended, k, o, hk, hresult, inOrder⟩ :=
    completes_in_order running_paced htime adds computes_paced unstopped_paced
      (fun bound hbound => by cases hbound; exact ⟨by decide, ownsLimit_paced⟩) nofun
  exact ⟨running_paced, htime, adds, computes_paced, unstopped_paced, by decide, ownsLimit_paced,
    hended, k, o, hk, hresult, inOrder.kept rfl (List.cons_ne_nil _ _)⟩

end Map

/-- A map over two states with a bound that no limit can hold. -/
def Trial.oversized : Trial :=
  { pipeline := .map (.addEnergy (.ofInt 1)) (some 4611686018427387904) none none
    input := .many ⟨[State.empty.withEnergy (.ofInt 1), State.empty.withEnergy (.ofInt 2)], []⟩
    config := .default
    mode := .task
    stopped := false
    stopAt := none
    timeout := none }

/-- It panics, although the bound is of no consequence to two states. -/
theorem summary_of_oversized :
    ({ Trial.oversized with pipeline := .map (.addEnergy (.ofInt 1)) (some 2) none none }).summary =
      .ok (some (.ok [.ofInt 2, .ofInt 3]), 0) ∧
    Trial.oversized.summary = .ok (some (.error (.panicked "Map" Map.tooManyPermits)), 0) := by
  decide +kernel

end Orchestra
