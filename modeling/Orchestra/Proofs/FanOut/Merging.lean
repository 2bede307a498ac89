import Orchestra.FanOut.Branches
import Orchestra.Proofs.FanOut.Sights
import Orchestra.Proofs.Info
import Orchestra.Proofs.Permits.Elements

/-!
# Merging is collecting and then merging

How the outputs are combined is looked at only when a fan-out is over. So branches and races that
merge make the same requests as those that collect, and come to the same error, or to the merge of
the list that those come to, with the markers of the list in the metadata.
-/

namespace Orchestra

/-! ### What follows a fan-out -/

/-- A report is made in the same way whatever follows. -/
theorem Task.reporting_andThen (entry : Option LogEntry) (t : Task) (K : Outcome → Task) :
    (reporting entry t).andThen K = reporting entry (t.andThen K) := by
  cases entry <;> rfl

namespace FanOut

variable {f : FanOut} {ctx : Context} {rules : Rules} {K : Outcome → Task}

theorem start_andThen (limit : Option LimitId) (jobs : List (Runnable × Data))
    (next : FanOut → Task) : (start ctx limit jobs next).andThen K =
      start ctx limit jobs fun f => (next f).andThen K :=
  startAll_andThen ctx limit jobs _ K

theorem takeAll_andThen (patience : Patience) (count : Nat) (taken : List Completion)
    (next : FanOut → List Completion → Task) :
    (History.takeAll patience count f taken next).andThen K =
      History.takeAll patience count f taken fun f taken => (next f taken).andThen K := by
  induction count generalizing f taken with
  | zero => rfl
  | succ count ih =>
    rw [History.takeAll, History.takeAll, Task.ask_andThen]
    congr 1
    funext c
    cases c with
    | none => rfl
    | some c => exact ih (taken ++ [c])

theorem collectWithin_andThen (grace : Duration) (next : FanOut → List Completion → Task) :
    (f.collectWithin grace next).andThen K =
      f.collectWithin grace fun f taken => (next f taken).andThen K := by
  rw [collectWithin, collectWithin, Task.ask_andThen]
  congr 1
  funext now
  split
  · rw [History.collectUntil_eq, History.collectUntil_eq, takeAll_andThen]
  · rfl

theorem abandon_andThen (owner : String) (t : Task) :
    (f.abandon owner t).andThen K = f.abandon owner (t.andThen K) := by
  rw [History.abandon_eq, History.abandon_eq, Task.reporting_andThen]

theorem acceptLate_andThen (completions : List Completion) (tally : Tally)
    (next : Tally → Task) : (acceptLate rules f completions tally next).andThen K =
      acceptLate rules f completions tally fun tally => (next tally).andThen K := by
  induction completions generalizing tally with
  | nil => rfl
  | cons c completions ih =>
    rw [acceptLate, acceptLate, Task.reporting_andThen, ih]

-- what follows passes errors on
variable (passes : ∀ e, K (.error e) = .fail e)
include passes

theorem raise_andThen (owner : String) (grace : Duration) (e : RunError) :
    (f.raise owner grace e).andThen K = f.raise owner grace e := by
  have hfail : (Task.fail e).andThen K = .fail e := passes e
  simp only [raise, stopAll, Task.ask_andThen, collectWithin_andThen, abandon_andThen, hfail]

theorem conclude_andThen (tally : Tally) (next : Gathered → Task) :
    (conclude tally next).andThen K = conclude tally fun g => (next g).andThen K := by
  unfold conclude
  split
  · rfl
  · exact passes _

theorem gatherStopped_andThen (tally : Tally) (next : Gathered → Task) :
    (gatherStopped rules f tally next).andThen K =
      gatherStopped rules f tally fun g => (next g).andThen K := by
  simp only [gatherStopped, stopAll, Task.ask_andThen, collectWithin_andThen, acceptLate_andThen,
    abandon_andThen, conclude_andThen passes]

/-- A fan-out is gathered in the same way whatever becomes of the outputs. -/
theorem gather_andThen (next : Gathered → Task) :
    (f.gather ctx rules next).andThen K = f.gather ctx rules fun g => (next g).andThen K := by
  have hnext (count : Nat) (f : FanOut) (tally : Tally) :
      (gatherNext ctx rules next count f tally).andThen K =
        gatherNext ctx rules (fun g => (next g).andThen K) count f tally := by
    induction count generalizing f tally with
    | zero => exact conclude_andThen passes tally next
    | succ count ih =>
      rw [gatherNext, gatherNext, Task.ask_andThen]
      congr 1
      funext c
      cases c with
      | none => exact gatherStopped_andThen passes tally next
      | some c =>
        dsimp only
        split
        · exact raise_andThen passes _ _ _
        · rw [Task.reporting_andThen, ih]
  exact hnext _ f _

end FanOut

namespace Race

open FanOut

variable {f : FanOut} {ctx : Context} {rules : Rules} {K : Outcome → Task}

theorem observeAll_andThen (onError : RunError → Task) (completions : List Completion)
    (l : RaceLedger) (next : RaceLedger → Task) :
    (observeAll rules f onError completions l next).andThen K =
      observeAll rules f (fun e => (onError e).andThen K) completions l
        fun l => (next l).andThen K := by
  induction completions generalizing l with
  | nil => rfl
  | cons c completions ih =>
    rw [observeAll, observeAll]
    split
    · rfl
    · rw [Task.reporting_andThen, ih]

variable (passes : ∀ e, K (.error e) = .fail e)
include passes

theorem settle_andThen (l : RaceLedger) (next : RaceLedger → Task) :
    (settle rules next f l).andThen K = settle rules (fun l => (next l).andThen K) f l := by
  have hfail (e : RunError) : (Task.fail e).andThen K = .fail e := passes e
  unfold settle
  split
  · rfl
  · simp only [stopAll, Task.ask_andThen, collectWithin_andThen, observeAll_andThen,
      abandon_andThen, hfail]

/-- A race is decided in the same way whatever becomes of the outputs. -/
theorem decide_andThen (count : Nat) (l : RaceLedger) (next : FanOut → RaceLedger → Task) :
    (decide ctx rules next count f l).andThen K =
      decide ctx rules (fun f l => (next f l).andThen K) count f l := by
  induction count generalizing f l with
  | zero => rfl
  | succ count ih =>
    rw [decide, decide, Task.ask_andThen]
    congr 1
    funext c
    cases c with
    | none => rfl
    | some first =>
      simp only [History.takeFinished_eq, takeAll_andThen, observeAll_andThen,
        raise_andThen passes, apply_ite (Task.andThen · K), ih]

end Race

/-! ### What is merged -/

/-- What merging with a function makes of what collecting comes to. -/
def Outcome.mergedWith (f : MergeFn) : Outcome → Outcome
  | .ok (.many ss) => (f ss.items).map fun s => .one (s.recordFailures ss.failures)
  | o => o

/-- Fan-in by merging is fan-in by collecting and then merging. -/
theorem FanIn.apply_merge (f : MergeFn) (outputs : List State) (markers : List FailureMarker) :
    (FanIn.merge f).apply outputs markers =
      (FanIn.collect.apply outputs markers).mergedWith f := rfl

/-- Either the input can be distributed to the children, or whatever the fan-in, the branches fail
at once. -/
theorem Branches.accepts_or_fails (b : Branches) (input : Data) :
    (b.children ≠ [] ∧ ∃ inputs,
      FanOut.distribute b.name b.children.length (!b.singleInput) input = .ok inputs) ∨
    ∃ e, ∀ fanIn ctx, ({ b with fanIn } : Branches).next ctx input = .fail e := by
  by_cases hne : b.children = []
  · exact .inr ⟨.invalidInput b.name "no branches to run",
      fun _ _ => if_pos (List.isEmpty_iff.mpr hne)⟩
  cases hin : FanOut.distribute b.name b.children.length (!b.singleInput) input with
  | ok inputs => exact .inl ⟨hne, inputs, rfl⟩
  | error e =>
    refine .inr ⟨e, fun fanIn ctx => (if_neg (by rwa [List.isEmpty_iff])).trans ?_⟩
    split
    · next he => exact congrArg Task.fail (Except.error.inj (he.symm.trans hin))
    · next hok => exact absurd (hok.symm.trans hin) nofun

/-- Either the input can be distributed to the contenders, or whatever the fan-in, the race fails at
once. -/
theorem Race.accepts_or_fails (r : Race) (input : Data) :
    (r.children ≠ [] ∧ ∃ inputs,
      FanOut.distribute "RacingBranches" r.children.length true input = .ok inputs) ∨
    ∃ e, ∀ fanIn ctx, ({ r with fanIn } : Race).next ctx input = .fail e := by
  by_cases hne : r.children = []
  · exact .inr ⟨.invalidInput "RacingBranches" "no branches to race",
      fun _ _ => if_pos (List.isEmpty_iff.mpr hne)⟩
  cases hin : FanOut.distribute "RacingBranches" r.children.length true input with
  | ok inputs => exact .inl ⟨hne, inputs, rfl⟩
  | error e =>
    refine .inr ⟨e, fun fanIn ctx => (if_neg (by rwa [List.isEmpty_iff])).trans ?_⟩
    split
    · next he => exact congrArg Task.fail (Except.error.inj (he.symm.trans hin))
    · next hok => exact absurd (hok.symm.trans hin) nofun

/-- Branches that merge are branches that collect, and then the merge. -/
theorem Branches.next_merge (b : Branches) (f : MergeFn) (ctx : Context) (input : Data) :
    ({ b with fanIn := .merge f } : Branches).next ctx input =
      (({ b with fanIn := .collect } : Branches).next ctx input).andThen
        fun o => .done (o.mergedWith f) := by
  obtain ⟨hne, inputs, hin⟩ | ⟨e, hfail⟩ := b.accepts_or_fails input
  · rw [next_eq (b := { b with fanIn := .merge f }) hne hin,
      next_eq (b := { b with fanIn := .collect }) hne hin, FanOut.start_andThen]
    refine congrArg (FanOut.start ctx none _) (funext fun started => ?_)
    rw [FanOut.gather_andThen (K := fun o => .done (Outcome.mergedWith f o)) fun _ => rfl]
    rfl
  · rw [hfail, hfail]
    rfl

/-- Whether a race has an output is not up to the fan-in. -/
theorem RaceLedger.finish_merge (f : MergeFn) (l : RaceLedger) :
    l.finish (.merge f) = (l.finish .collect).mergedWith f := by
  unfold finish
  split
  · exact FanIn.apply_merge f _ _
  · split <;> rfl

/-- A race that merges is a race that collects, and then the merge. -/
theorem Race.next_merge (r : Race) (f : MergeFn) (ctx : Context) (input : Data) :
    ({ r with fanIn := .merge f } : Race).next ctx input =
      (({ r with fanIn := .collect } : Race).next ctx input).andThen
        fun o => .done (o.mergedWith f) := by
  obtain ⟨hne, inputs, hin⟩ | ⟨e, hfail⟩ := r.accepts_or_fails input
  · rw [next_eq (r := { r with fanIn := .merge f }) hne hin,
      next_eq (r := { r with fanIn := .collect }) hne hin, FanOut.start_andThen]
    refine congrArg (FanOut.start ctx none _) (funext fun started => ?_)
    rw [decide_andThen (K := fun o => .done (Outcome.mergedWith f o)) fun _ => rfl]
    simp only [settle_andThen (K := fun o => .done (Outcome.mergedWith f o)) fun _ => rfl,
      Task.done_andThen, RaceLedger.finish_merge]
    rfl
  · rw [hfail, hfail]
    rfl

/-! ### What a merge comes to -/

/-- A state with markers: one object for each of them is appended to the array of failures, which
grows out of what is there, and nothing else is changed. -/
structure State.Marked (s : State) (markers : List FailureMarker) (s' : State) : Prop where
  problem : s'.problem = s.problem
  samples : s'.samples = s.samples
  others : ∀ key ≠ "failures", s'.info.get? key = s.info.get? key
  ordered : s.info.entries.Ordered → s'.info.entries.Ordered
  failures : s.info.entries.Ordered → s'.info.get? "failures" =
    if markers = [] then s.info.get? "failures"
    else some (.arr (Info.asItems (s.info.get? "failures") ++ markers.map FailureMarker.toJson))

namespace Info

variable {key : String} {values : List Json}

theorem get?_pushAll_of_ne {other : String} (hne : other ≠ key) (info : Info) :
    (values.foldl (fun info value => info.push key value) info).get? other = info.get? other := by
  induction values generalizing info with
  | nil => rfl
  | cons value rest ih => exact (ih _).trans (Keyed.find?_alter_of_ne hne.symm)

/-- Values that are pushed one after the other come after what is there. -/
theorem get?_pushAll (info : Info) (ordered : info.entries.Ordered) :
    (values.foldl (fun info value => info.push key value) info).entries.Ordered ∧
    (values.foldl (fun info value => info.push key value) info).get? key =
      if values = [] then info.get? key else some (.arr (asItems (info.get? key) ++ values)) := by
  induction values generalizing info with
  | nil => exact ⟨ordered, rfl⟩
  | cons value rest ih =>
    obtain ⟨ordered', hrest⟩ := ih (info.push key value) ordered.alter
    refine ⟨ordered', hrest.trans ?_⟩
    have hpush : (info.push key value).get? key =
        some (.arr (asItems (info.get? key) ++ [value])) :=
      (Keyed.find?_alter _ _ _ _ ordered).trans (if_pos rfl)
    rw [hpush, if_neg (List.cons_ne_nil value rest)]
    split
    · next hnil => rw [hnil]
    · rw [asItems, List.append_assoc, List.singleton_append]

end Info

/-- Recording failures marks a state. -/
theorem State.marked_recordFailures (s : State) (markers : List FailureMarker) :
    s.Marked markers (s.recordFailures markers) := by
  have hinfo : (s.recordFailures markers).info = (markers.map FailureMarker.toJson).foldl
      (fun info value => info.push "failures" value) s.info :=
    List.foldl_map.symm
  constructor
  case problem | samples => rfl
  case others =>
    intro key hkey
    rw [hinfo, Info.get?_pushAll_of_ne hkey]
  case ordered =>
    intro ordered
    rw [hinfo]
    exact (Info.get?_pushAll _ ordered).1
  case failures =>
    intro ordered
    rw [hinfo, (Info.get?_pushAll _ ordered).2]
    simp only [List.map_eq_nil_iff]

/-- What the default merge comes to where collecting comes to the first outcome. Metadata in key
order stay so. -/
inductive Outcome.MergesTo : Outcome → Outcome → Prop
  | failed (e : RunError) : MergesTo (.error e) (.error e)
  | empty (markers : List FailureMarker) :
      MergesTo (.ok (.many ⟨[], markers⟩)) (.error (.emptyInput "merge_samples"))
  | merged {states : List State} {markers : List FailureMarker} {s s' : State}
      (some : states ≠ []) (merge : mergeSamples states = .ok s)
      (ordered : (∀ x ∈ states, x.info.entries.Ordered) → s.info.entries.Ordered)
      (marked : s.Marked markers s') :
      MergesTo (.ok (.many ⟨states, markers⟩)) (.ok (.one s'))

/-- Metadata stay in key order when those of other states are merged into them. -/
theorem State.ordered_mergeSamples {states : List State} {s : State}
    (h : mergeSamples states = .ok s) (ordered : ∀ x ∈ states, x.info.entries.Ordered) :
    s.info.entries.Ordered := by
  cases states with
  | nil => contradiction
  | cons first rest =>
    cases h
    have hfold (rest : List State) {info : Info} (hinfo : info.entries.Ordered) :
        (rest.foldl (fun info s => info.merge s.info) info).entries.Ordered := by
      induction rest generalizing info with
      | nil => exact hinfo
      | cons s rest ih => exact ih (Json.ordered_mergeEntries hinfo)
    exact hfold rest (ordered first List.mem_cons_self)

/-- The outputs of one fan-out, collected and merged. -/
theorem FanIn.apply_mergesTo (outputs : List State) (markers : List FailureMarker) :
    (FanIn.collect.apply outputs markers).MergesTo
      ((FanIn.merge mergeSamples).apply outputs markers) := by
  cases outputs with
  | nil => exact .empty markers
  | cons first rest =>
    exact .merged (List.cons_ne_nil _ _) rfl (State.ordered_mergeSamples rfl)
      (State.marked_recordFailures _ markers)

/-- Two fan-outs over the same children with the same settings, of which the first collects the
outputs and the second merges them by default. -/
inductive CollectsAndMerges : (collect merge : Context → Data → Task) → Prop
  | branches (b : Branches) : CollectsAndMerges
      ({ b with fanIn := .collect } : Branches).next
      ({ b with fanIn := .merge mergeSamples } : Branches).next
  | race (r : Race) : CollectsAndMerges
      ({ r with fanIn := .collect } : Race).next
      ({ r with fanIn := .merge mergeSamples } : Race).next

namespace CollectsAndMerges

variable {collect merge : Context → Data → Task}

theorem next_eq (h : CollectsAndMerges collect merge) (ctx : Context) (input : Data) :
    merge ctx input =
      (collect ctx input).andThen fun o => .done (o.mergedWith mergeSamples) := by
  cases h with
  | branches b => exact b.next_merge mergeSamples ctx input
  | race r => exact r.next_merge mergeSamples ctx input

/-- Runs that see the same of their children come to what is collected and to its merge. -/
theorem matches_next (h : CollectsAndMerges collect merge) {ctx ctx' : Context}
    (config : ctx.config = ctx'.config) (input : Data) :
    Task.Matches Outcome.MergesTo (collect ctx input) (merge ctx' input) := by
  cases h with
  | branches b =>
    obtain ⟨hne, inputs, hin⟩ | ⟨e, hfail⟩ := b.accepts_or_fails input
    · rw [Branches.next_eq (b := { b with fanIn := .collect }) hne hin,
        Branches.next_eq (b := { b with fanIn := .merge mergeSamples }) hne hin]
      refine FanOut.matches_start rfl fun f f' like =>
        FanOut.matches_gather .failed ?_ like fun g => Task.matches_done (FanIn.apply_mergesTo _ _)
      rw [config]
      rfl
    · rw [hfail, hfail]
      exact Task.matches_done (.failed e)
  | race r =>
    obtain ⟨hne, inputs, hin⟩ | ⟨e, hfail⟩ := r.accepts_or_fails input
    · rw [Race.next_eq (r := { r with fanIn := .collect }) hne hin,
        Race.next_eq (r := { r with fanIn := .merge mergeSamples }) hne hin]
      have hpolicy : (({ r with fanIn := .collect } : Race).rules ctx.config).policy =
          (({ r with fanIn := .merge mergeSamples } : Race).rules ctx'.config).policy := by
        rw [config]
        rfl
      refine FanOut.matches_start rfl fun f f' like => ?_
      rw [like.outstanding]
      refine Race.matches_decide .failed hpolicy like fun g g' l like =>
        Race.matches_settle .failed hpolicy like fun l => Task.matches_done ?_
      unfold RaceLedger.finish
      split
      · exact FanIn.apply_mergesTo _ _
      · split
        · exact .failed _
        · exact .failed _
    · rw [hfail, hfail]
      exact Task.matches_done (.failed e)

end CollectsAndMerges

/-- What a program comes to is computed from in no time. -/
theorem History.runs_andThen_done_iff {h : History} {task : TaskId} {m m' : Nat} {t : Task}
    {F : Outcome → Outcome} {es : List Exchange} {o' : Outcome} :
    h.Runs task m (t.andThen fun o => .done (F o)) es m' o' ↔
      ∃ o, h.Runs task m t es m' o ∧ o' = F o := by
  constructor
  · intro run
    obtain ⟨es₀, m₁, o, es₁, rfl, run, last⟩ := run.of_andThen
    obtain ⟨rfl, rfl, rfl⟩ := runs_done_iff.mp last
    exact ⟨o, by rwa [List.append_nil], rfl⟩
  · rintro ⟨o, run, rfl⟩
    induction run with
    | done m o => exact .done m (F o)
    | ask answers _ ih => exact .ask answers ih
    | spawn started atOnce _ ih => exact .spawn started atOnce ih

/-- Merging is collecting and then merging. In every history, which fixes what the children do and
when, one of two such fan-outs comes to an outcome if and only if the other one does, with the same
exchanges at the same moment; and whenever runs of the two see the same of their children, wherever
they take place, the second comes to the merge of what the first comes to. -/
theorem merge_of_collected {collect merge : Context → Data → Task}
    (h : CollectsAndMerges collect merge) (config : Config) (token token' : TokenId)
    (profile profile' : ProfileId) (input : Data) :
    let ctx : Context := ⟨token, config, profile⟩
    let ctx' : Context := ⟨token', config, profile'⟩
    (∀ h task m es m' o, History.Runs h task m (collect ctx input) es m' o →
      ∃ o', h.Runs task m (merge ctx input) es m' o' ∧ o.MergesTo o') ∧
    (∀ h task m es m' o', History.Runs h task m (merge ctx input) es m' o' →
      ∃ o, h.Runs task m (collect ctx input) es m' o ∧ o.MergesTo o') ∧
    (∀ (h h' : History) task task' m m' k k' es es' o o',
      h.Runs task m (collect ctx input) es k o → h'.Runs task' m' (merge ctx' input) es' k' o' →
      sights es = sights es' → o.MergesTo o') := by
  intro ctx ctx'
  have hconfig : ctx.config = ctx'.config := rfl
  refine ⟨fun hist task m es m' o run => ?_, fun hist task m es m' o' run => ?_,
    fun hist hist' task task' m m' k k' es es' o o' =>
      h.matches_next hconfig input hist hist' task task' m m' k k' es es' o o'⟩
  · have run' : hist.Runs task m (merge ctx input) es m' (o.mergedWith mergeSamples) := by
      rw [h.next_eq]
      exact History.runs_andThen_done_iff.mpr ⟨o, run, rfl⟩
    exact ⟨_, run', h.matches_next rfl input hist hist task task m m m' m' es es _ _ run run' rfl⟩
  · have run' := run
    rw [h.next_eq] at run'
    obtain ⟨o, run', -⟩ := History.runs_andThen_done_iff.mp run'
    exact ⟨o, run', h.matches_next rfl input hist hist task task m m m' m' es es _ _ run' run rfl⟩

/-- Three children of which the second fails: the list carries its marker, and the merge has it in
the metadata. -/
theorem merge_of_mixed :
    let h := Branches.mixedTrace.history
    let marker : FailureMarker := ⟨1, "Raise", "test requires at least one input state"⟩
    CollectsAndMerges Branches.mixed.next
      ({ Branches.mixed with fanIn := .merge mergeSamples } : Branches).next ∧
    ∃ es m' s, h.Runs 0 2 (Branches.mixed.next ⟨1, .default, 0⟩ (.one .empty)) es m'
        (.ok (.many ⟨[.empty, State.empty.withEnergy .zero], [marker]⟩)) ∧
      h.Runs 0 2 (({ Branches.mixed with fanIn := .merge mergeSamples } : Branches).next
        ⟨1, .default, 0⟩ (.one .empty)) es m' (.ok (.one s)) ∧
      s.samples.energies = [.zero] ∧ s.info.get? "failures" = some (.arr [marker.toJson]) := by
  intro h marker
  have pair : CollectsAndMerges Branches.mixed.next
      ({ Branches.mixed with fanIn := .merge mergeSamples } : Branches).next :=
    .branches Branches.mixed
  have hrunning : (Branches.mixedTrace.machine 2).control =
      .running 0 (Branches.mixed.next ⟨1, .default, 0⟩ (.one .empty)) := rfl
  have hresult : h.ended? 30 0 =
      some (10, .ok (.many ⟨[.empty, State.empty.withEnergy .zero], [marker]⟩)) := by
    with_unfolding_all rfl
  obtain ⟨es, m', run⟩ := (Trace.runs hrunning hresult).resolve_right nofun
  obtain ⟨merges, -, -⟩ := merge_of_collected pair .default 1 1 0 0 (.one .empty)
  obtain ⟨o', run', related⟩ := merges h 0 2 es m' _ run
  cases related with
  | @merged states markers s s' some merge ordered marked =>
    refine ⟨pair, es, m', s', run, run', ?_⟩
    cases merge
    refine ⟨?_, ?_⟩
    · rw [marked.samples]
      rfl
    · rw [marked.failures ⟨⟩]
      rfl

end Orchestra
