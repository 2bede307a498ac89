import Orchestra.Proofs.FanOut.Race
import Orchestra.Proofs.FanOut.Stopping

/-!
# Races that are stopped before a decision

A race that notices a stop of its context before any child has ended stops its children and waits for
them within the grace period. What has ended by then is judged in the order of the endings and by the
rule that holds without a stop. So an output leads to a result if it comes first, and under best
effort wherever it comes; under fail-fast a failure that comes before every output is still raised.
-/

namespace Orchestra

namespace Race

open History

/-- How a race ends that notices a stop at moment `s`, where moment `e` is that of its last look and
the children were started from moment `m` on. -/
structure Stopped (h : History) (r : Race) (config : Config) (m s e m' : Nat) (o : Outcome) :
    Prop where
  stop_le : s ≤ e
  le : e ≤ m'
  clock_eq : h.clock m' = h.clock e
  /-- It ends no later than one grace period after the stop, -/
  clock_le : h.clock e ≤ h.clock s + (r.rules config).grace.nanos
  /-- and earlier only if every child has ended. -/
  closed : (∀ j < r.children.length, (h.endings e m j).isSome) ∨
    h.clock e = h.clock s + (r.rules config).grace.nanos
  /-- Whoever ends before the grace period is over counts. -/
  counted : ∀ j < r.children.length, ∀ k, h.clock k < h.clock s + (r.rules config).grace.nanos →
    (h.endings k m j).isSome → (h.endings e m j).isSome
  /-- Of the children that decide the race the first one to end does so. Its output comes first in the
  result, or its failure is raised. If there is none, the race fails. -/
  outcome :
    (∃ i d, (h.endings e m).Leads r.children.length (r.rules config).policy.Decides i (.ok d) ∧
      o = r.fanIn.apply
        (d.states ++ ((h.endings e m).results.others i).states r.children.length)
        ((h.endings e m).results.markers r.children.length (Runnable.nameAt r.children))) ∨
    (∃ i err, (h.endings e m).Leads r.children.length (r.rules config).policy.Decides i
      (.error err) ∧ o = .error err) ∨
    (∀ j < r.children.length, ∀ place o', h.endings e m j = some (place, o') →
        ¬ (r.rules config).policy.Decides o') ∧
      ((∃ err, (h.endings e m).FirstFailure r.children.length err ∧
          o = .error (.allFailed ((h.endings e m).results.failed r.children.length) err)) ∨
        (∀ j < r.children.length, (h.endings e m).results.failure? j = none) ∧
          o = .error .cancelled)

variable {h : History} {r : Race} {config : Config}

/-- Of completions in the order of the endings the first that decides is that of the leader. -/
theorem leads_of_ranked {E : Endings} {n : Nat} {policy : FailurePolicy}
    {taken : List (Nat × Completion)} (ranked : E.Ranked n taken) {before after : List Completion}
    {c : Completion} (heq : taken.map Prod.snd = before ++ c :: after)
    (hc : policy.Decides c.outcome) (hbefore : ∀ x ∈ before, ¬ policy.Decides x.outcome) :
    E.Leads n policy.Decides c.index c.outcome := by
  obtain ⟨taken₁, taken₂, rfl, rfl, hrest⟩ := List.map_eq_append_iff.mp heq
  obtain ⟨⟨place, c'⟩, taken₃, rfl, rfl, rfl⟩ := List.map_eq_cons_iff.mp hrest
  exact ranked.leads hc fun x hx => hbefore x.2 (List.mem_map_of_mem hx)

section Accepted

variable {E : Endings} {n : Nat} {name : Nat → String} {policy : FailurePolicy} {fanIn : FanIn}
variable {taken : List (Nat × Completion)} {o : Outcome}

/-- A race that has refused nothing and has seen an output: the first one leads. -/
theorem outcome_of_output (ranked : E.Ranked n taken)
    (haccepted : Accepted policy .empty (taken.map Prod.snd)) {before after : List Completion}
    {c : Completion} {d : Data} (heq : taken.map Prod.snd = before ++ c :: after)
    (hd : c.outcome = .ok d) (hbefore : ∀ x ∈ before, x.outcome.output? = none)
    (ho : o = (RaceLedger.recordAll name .empty (taken.map Prod.snd)).finish fanIn) :
    E.Leads n policy.Decides c.index (.ok d) ∧
      o = fanIn.apply (d.states ++ (E.results.others c.index).states n)
        (E.results.markers n name) := by
  have hlists := ranked.lists
  rw [heq] at haccepted hlists ho
  constructor
  · rw [← hd]
    exact leads_of_ranked ranked heq (.inl ⟨d, hd⟩) (haccepted.of_append.not_decides rfl hbefore)
  · rw [ho, RaceLedger.finish_of_output fanIn hlists hbefore hd]

/-- A race that has refused nothing and has seen no output: nobody decides it, and it fails with the
first failure, or is cancelled if there is none. -/
theorem outcome_of_no_output (ranked : E.Ranked n taken)
    (haccepted : Accepted policy .empty (taken.map Prod.snd))
    (houtput : ∀ x ∈ taken.map Prod.snd, x.outcome.output? = none)
    (ho : o = (RaceLedger.recordAll name .empty (taken.map Prod.snd)).finish fanIn) :
    (∀ j < n, ∀ place o', E j = some (place, o') → ¬ policy.Decides o') ∧
      ((∃ err, E.FirstFailure n err ∧ o = .error (.allFailed (E.results.failed n) err)) ∨
        (∀ j < n, E.results.failure? j = none) ∧ o = .error .cancelled) := by
  have hlists := ranked.lists
  constructor
  · intro j hj place o' hended
    have hmem : (⟨j, o'⟩ : Completion) ∈ taken.map Prod.snd :=
      List.mem_map_of_mem (ranked.mem_iff.mpr ⟨hj, hended⟩)
    exact haccepted.not_decides rfl houtput _ hmem
  rcases exists_first (fun x : Nat × Completion => x.2.outcome.failure?.isSome) taken with
    ⟨before, ⟨place, c⟩, after, rfl, hc, hbefore⟩ | hnoFailure
  · obtain ⟨err, herr⟩ := Option.isSome_iff_exists.mp hc
    have hbefore' : ∀ x ∈ before, x.2.outcome.failure? = none := by simpa using hbefore
    rw [List.map_append, List.map_cons] at ho houtput hlists
    rw [RaceLedger.finish_of_failure fanIn hlists houtput (List.forall_mem_map.mpr hbefore') herr]
      at ho
    exact .inl ⟨err, ranked.firstFailure hbefore' herr, ho⟩
  · have hfailed : ∀ x ∈ taken, x.2.outcome.failure? = none := by simpa using hnoFailure
    rw [RaceLedger.finish_of_cancelled fanIn houtput (List.forall_mem_map.mpr hfailed)] at ho
    exact .inr ⟨fun j hj => ranked.failure?_eq_none hfailed hj, ho⟩

/-- What a race comes to that has refused nothing. -/
theorem outcome_of_accepted (ranked : E.Ranked n taken)
    (haccepted : Accepted policy .empty (taken.map Prod.snd))
    (ho : o = (RaceLedger.recordAll name .empty (taken.map Prod.snd)).finish fanIn) :
    (∃ i d, E.Leads n policy.Decides i (.ok d) ∧
      o = fanIn.apply (d.states ++ (E.results.others i).states n) (E.results.markers n name)) ∨
    (∀ j < n, ∀ place o', E j = some (place, o') → ¬ policy.Decides o') ∧
      ((∃ err, E.FirstFailure n err ∧ o = .error (.allFailed (E.results.failed n) err)) ∨
        (∀ j < n, E.results.failure? j = none) ∧ o = .error .cancelled) := by
  rcases exists_first (fun c : Completion => c.outcome.output?.isSome) (taken.map Prod.snd) with
    ⟨before, c, after, heq, hc, hbefore⟩ | hnone
  · obtain ⟨d, hd⟩ := Option.isSome_iff_exists.mp hc
    have hbefore' : ∀ x ∈ before, x.outcome.output? = none := by simpa using hbefore
    exact .inl ⟨c.index, d, outcome_of_output ranked haccepted heq (Outcome.output?_eq_some.mp hd)
      hbefore' ho⟩
  · have houtput : ∀ x ∈ taken.map Prod.snd, x.outcome.output? = none := by simpa using hnone
    exact .inr (outcome_of_no_output ranked haccepted houtput ho)

end Accepted

/-- A race that has noticed a stop at moment `s` with all its children pending judges what ends within
the grace period. -/
theorem stopped_of_settle {f : FanOut} {task : TaskId} {m s m' : Nat} {es : List Exchange}
    {o : Outcome} (start : h.Started m (r.children.map Runnable.name) f)
    (hleft : f.outstanding ≠ 0) (atOnce : h.clock (s + 1) = h.clock s)
    (run : h.Runs task (s + 1)
      (settle (r.rules config) (fun l => .done (l.finish r.fanIn)) f .empty) es m' o) :
    (∃ e, Stopped h r config m s e m' o) ∧ Quiet es := by
  have hpending : f.pending = h.startedAt m r.children.length := by
    rw [start.waits, List.length_map]
  have hname : ∀ j < r.children.length, f.name j = Runnable.nameAt r.children j :=
    fun j hj => Branches.name_started start hj
  obtain ⟨e, new, hse, hem', hclock, hgrace, closed, hnew, hquiet, hresult⟩ :=
    runs_settle_left start.sorted hleft run
  have hranked : (h.endings e m).Ranked r.children.length new := by
    rw [hpending] at hnew
    exact hnew.ranked
  rw [atOnce] at hgrace closed
  rw [hpending, all_startedAt] at closed
  refine ⟨⟨e, Nat.le_of_succ_le hse, hem', hclock, hgrace, closed, ?_, ?_⟩, hquiet⟩
  · exact fun j hj k hk hended => counted_of_closed closed hj hk hended
  · rcases hresult with ⟨before, c, after, err, heq, hpolicy, -, hbefore, hfailed, ho⟩ |
      ⟨haccepted, ho⟩
    · -- a failure is refused
      obtain ⟨hc, hcancelled⟩ := Outcome.failure?_eq_some.mp hfailed
      have hleads := leads_of_ranked hranked heq
        (.inr ⟨hpolicy, err, hc, RunError.isCancelled_eq_false.mp hcancelled⟩) fun x hx =>
          FailurePolicy.not_decides (hbefore x hx).1 fun _ => (hbefore x hx).2
      rw [hc] at hleads
      exact .inr (.inl ⟨c.index, err, hleads, ho⟩)
    · have houtcome := outcome_of_accepted hranked haccepted ho
      rw [Results.markers_congr (fun _ _ => rfl) hname] at houtcome
      exact houtcome.imp_right .inr

/-- A run of a race looks at its children first. If it notices a stop then it judges what ends within the
grace period, and otherwise a child has ended before any stop is noticed. -/
theorem stopped_or_ended_of_runs {ctx : Context} {input : Data} {inputs : List Data} {task : TaskId}
    {m m' : Nat} {es : List Exchange} {o : Outcome} (hne : r.children ≠ [])
    (hin : FanOut.distribute "RacingBranches" r.children.length true input = .ok inputs)
    (run : h.Runs task m (r.next ctx input) es m' o) :
    (∃ x ∈ es, x.seesStop ctx.token ∧ (∀ j < r.children.length, h.endings x.moment m j = none) ∧
      ∃ e, Stopped h r ctx.config m x.moment e m' o) ∨
    ∃ x ∈ es, (∃ j < r.children.length, (h.endings x.moment m j).isSome) ∧
      ∀ y ∈ es, y.seesStop ctx.token → x.moment < y.moment := by
  obtain ⟨f, start, -, run⟩ := runs_next hne hin run
  have hpending : f.pending = h.startedAt m r.children.length := by
    rw [start.waits, List.length_map]
  have hleft : f.outstanding ≠ 0 := by
    rw [start.outstanding, List.length_map]
    exact fun hzero => hne (List.eq_nil_of_length_eq_zero hzero)
  obtain ⟨count, hcount⟩ := Nat.exists_eq_succ_of_ne_zero hleft
  rw [hcount, decide] at run
  obtain ⟨k, a, es', rfl, answers, rest⟩ := runs_ask_iff.mp run
  cases a with
  | some c =>
    obtain ⟨q, hq, -, place, hended⟩ := World.exists_of_firstCompletion? answers.nextChild_some
    obtain ⟨hj, hid⟩ := mem_startedAt.mp (hpending ▸ hq)
    rw [hid] at hended
    refine .inr ⟨_, List.mem_cons_self, ⟨q.index, hj, Option.isSome_iff_exists.mpr ⟨_, hended⟩⟩,
      fun y hy hsees => ?_⟩
    rcases List.mem_cons.mp hy with rfl | hy
    · contradiction
    · exact rest.moment_le y hy
  | none =>
    obtain ⟨hstopped, -⟩ := stopped_of_settle start hleft answers.atOnce rest
    refine .inl ⟨_, List.mem_cons_self, decide_eq_true rfl, fun j hj => ?_, hstopped⟩
    exact answers.nextChild_none.1 ⟨j, h.childAt m j⟩ (hpending ▸ mem_startedAt.mpr ⟨hj, rfl⟩)

/-- A race whose context is stopped at moment `k` comes to an outcome if time goes on: a stop wakes
whoever waits for it. Unless a child has ended before it notices a stop, it judges what ends within the
grace period, which has to be over at some instant. -/
theorem next_after_stop (r : Race) (ctx : Context) {input : Data} {inputs : List Data}
    (hne : r.children ≠ [])
    (hin : FanOut.distribute "RacingBranches" r.children.length true input = .ok inputs)
    (tr : Trace) (task : TaskId) (K : Outcome → Task) (m k : Nat)
    (running : (tr.machine m).control = .running task ((r.next ctx input).andThen K))
    (htime : ∀ instant, ∃ j, instant ≤ tr.history.clock j) (heeds : tr.Heeds ctx.token task m)
    (hstop : (tr.history.world k).isStopped ctx.token = true)
    (hgrace : tr.history.clock (max m k) + (r.rules ctx.config).grace.nanos < Instant.limit) :
    let h := tr.history
    ∃ es m' o, h.Runs task m (r.next ctx input) es m' o ∧
      (tr.machine m').control = .running task (K o) ∧
      ((∃ x ∈ es, x.seesStop ctx.token ∧ (∀ j < r.children.length, h.endings x.moment m j = none) ∧
        ∃ e, Stopped h r ctx.config m x.moment e m' o) ∨
      ∃ x ∈ es, (∃ j < r.children.length, (h.endings x.moment m j).isSome) ∧
        ∀ y ∈ es, y.seesStop ctx.token → x.moment < y.moment) := by
  intro h
  have hgoes : ¬ h.Stuck (· = ctx.token) task m (r.next ctx input) :=
    not_stuck_next hne hin htime (.inr (.inr ⟨rfl, hstop⟩)) (h.clock_mono (Nat.le_max_left m k))
      (h.clock_mono (Nat.le_max_right m k)) (.of_lt hgrace)
  obtain ⟨es, m', o, run, hover⟩ :=
    Trace.completes htime (fun _ heq => heq ▸ heeds) running hgoes
  exact ⟨es, m', o, run, hover, stopped_or_ended_of_runs hne hin run⟩

/-- Three contenders that do not heed a stop: the first ends within the grace period, the second
fails later within it, and the third is too slow. -/
def heedless : Race :=
  ⟨[Leaf.stubborn (.ofMillis 30) .zero, Leaf.failing "late" (.ofMillis 50),
    Leaf.stubborn (.ofMillis 500) .zero], .collect, none, none⟩

/-- Their run in a session in which another task has stopped them. -/
def heedlessTrace : Trace :=
  .fresh [fun _ => .ask (.stop [2]) fun _ => .succeed (.one .empty),
    fun token => heedless.next ⟨token, .default, 0⟩ (.one .empty)]

/-- The policy is fail-fast, but the failure follows an output and is recorded only. -/
theorem next_of_heedless :
    let program := heedless.next ⟨2, .default, 0⟩ (.one .empty)
    let h := heedlessTrace.history
    ∃ es m' o x e, h.Runs 1 6 program es m' o ∧ x ∈ es ∧ x.seesStop 2 ∧
      (∀ j < 3, h.endings x.moment 6 j = none) ∧
      Stopped h heedless .default 6 x.moment e m' o ∧
      o = .ok (.many ⟨[State.empty.withEnergy .zero],
        [⟨1, "Failing", "runnable Failing failed: late"⟩]⟩) := by
  intro program h
  have hover : (Machine.next^[51] (heedlessTrace.machine 0)).Over := by
    constructor <;> with_unfolding_all rfl
  have running : (heedlessTrace.machine 6).control = .running 1 (program.andThen .done) := by
    rw [Task.andThen_done]
    rfl
  have hclock : h.clock (max 6 3) = 0 := by with_unfolding_all rfl
  obtain ⟨es, m', o, run, hcontrol, hends⟩ := next_after_stop heedless ⟨2, .default, 0⟩
    (List.cons_ne_nil _ _) rfl heedlessTrace 1 .done 6 3 running (Trace.time_goes_on hover)
    (Trace.heeds_alone (by with_unfolding_all decide)) (by with_unfolding_all rfl)
    (by rw [hclock]; decide)
  have hresult : h.ended? 46 1 = some (14, .ok (.many ⟨[State.empty.withEnergy .zero],
      [⟨1, "Failing", "runnable Failing failed: late"⟩]⟩)) := by
    with_unfolding_all rfl
  obtain rfl := Trace.outcome_of_ended hcontrol hresult
  rcases hends with ⟨x, hx, hsees, hunended, e, hstopped⟩ | ⟨x, hx, -, hbefore⟩
  · exact ⟨es, m', _, x, e, run, hx, hsees, hunended, hstopped, rfl⟩
  · -- once the children are started, the stop is noticed at once
    obtain ⟨-, -, run₁⟩ := runs_spawn_iff.mp run
    obtain ⟨-, -, run₂⟩ := runs_spawn_iff.mp run₁
    obtain ⟨-, -, run₃⟩ := runs_spawn_iff.mp run₂
    obtain ⟨es', rfl, -⟩ := runs_ask_now (a := none) (w := h.world 9) (by with_unfolding_all rfl) run₃
    exact absurd (hbefore _ List.mem_cons_self rfl) (Nat.not_lt_of_le (run₃.moment_le x hx))

end Race

/-- Two children that end within the grace period after a stop: the first to end fails. -/
def Trial.late (pipeline : List Pipeline → Pipeline) : Trial :=
  { pipeline := pipeline [.stubborn 50 .zero, .failing "late" 30]
    input := .one .empty
    config := .default
    mode := .task
    stopped := false
    stopAt := some 20
    timeout := none }

/-- The failure is raised although an output follows, which branches keep in the same situation. -/
theorem summary_of_late :
    (Trial.late fun children => .race children .collect none none).summary =
        .ok (some (.error (.runnable "Failing" "late")), 50) ∧
      (Trial.late fun children => .branches children .collect none none false).summary =
        .ok (some (.ok [.zero]), 50) := by
  decide +kernel

end Orchestra
