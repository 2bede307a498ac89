import Orchestra.Proofs.Permits.Elements
import Orchestra.Proofs.Permits.Served
import Orchestra.Proofs.World.Alike

/-!
# Queued runs after a stop

A run that waits for a permit when its token is stopped is refused, whether or not a permit is free or
has just been granted: it asks for the permit, learns of the stop and ends with a cancellation, before
any time passes. It executes nothing and records nothing, and a fan-out does not count it as a
failure. In a map no further worker is started once the context is stopped.
-/

namespace Orchestra

namespace LimitedRun

open Machine World

variable {run : LimitedRun} {a b : Machine}

/-- Nothing is recorded while an early run has its turn. -/
theorem Early.profiles (early : run.Early a) (sound : Sound a) (step : Step a b) {t : Task}
    (control : a.control = .running run.child.id t) : b.world.profiles = a.world.profiles := by
  obtain ⟨w, c⟩ := a
  obtain rfl : c = .running run.child.id t := control
  rcases early.running sound rfl with rfl | rfl
  · rw [program_eq] at step
    cases step with
    | answer there =>
      rcases answer?_acquire there with ⟨-, -, rfl⟩ | ⟨-, -, rfl⟩ | ⟨-, l, l', -, -, rfl⟩
      · exact (blind_changeLimit run.limit _).profiles w
      · rfl
      · rfl
    | suspend =>
      have hwake : ∀ v : World, (v.wake run.child.id).profiles = v.profiles := fun v =>
        (blind_wake run.child.id).profiles v
      unfold World.suspend
      dsimp only
      rw [apply_ite World.profiles, hwake, ite_self]
  · cases step with
    | done =>
      cases ht : w.tasks.get? run.child.id with
      | none =>
        unfold World.finish
        rw [ht]
      | some state =>
        rw [World.finish_eq ht]
        have hwoken := (blind_wakeAll (((w.releaseAll state.held).markEnded run.child.id state
          (.returned (.error .cancelled))).waiters fun s => s.request.awaits run.child.id)).profiles
          ((w.releaseAll state.held).markEnded run.child.id state (.returned (.error .cancelled)))
        exact hwoken.trans ((blind_releaseAll state.held).profiles w)

end LimitedRun

namespace Trace

open Machine LimitedRun

variable {tr : Trace} {run : LimitedRun} {added : Nat → Nat} {m k n : Nat}

/-- A run that remains early under a stopped token is over before time passes. -/
theorem over_of_early (adds : tr.Adds run.limit added) (launches : tr.Launches m run) (hmk : m < k)
    (stopped : (tr.history.world k).isStopped run.child.token = true)
    (early : run.Early (tr.machine k)) (passes : tr.history.clock k ≠ tr.history.clock (k + 1)) :
    ∃ place, tr.history.ended? k run.child.id = some (place, .error .cancelled) := by
  refine (launches.queues_or_over adds hmk passes early).resolve_left ?_
  rintro ⟨order, mem⟩
  have hends : (run.queueing order).request.endsWith run.child.token = true := decide_eq_true rfl
  have roused := roused_of_spawn launches adds hmk
  exact passes (roused.clock_eq (idle_of_passing passes).1 (tr.sound_at k) mem rfl
    (.inr ⟨hends, stopped⟩))

/-- So a run that has not begun when its token is stopped has ended once time has passed. -/
theorem ended_of_stopped (adds : tr.Adds run.limit added) (launches : tr.Launches m run) (hmk : m < k)
    (stopped : (tr.history.world k).isStopped run.child.token = true)
    (unbegun : ¬ tr.HasBegun run k) (hkn : k ≤ n) (hclock : tr.history.clock k < tr.history.clock n) :
    (tr.history.ended? n run.child.id).isSome := by
  obtain ⟨j, hkj, hjn, passes⟩ := exists_passing hkn hclock
  have early := early_of_stopped launches hmk stopped unbegun hkj
  obtain ⟨place, hended⟩ := over_of_early adds launches (Nat.lt_of_lt_of_le hmk hkj)
    ((tr.history.later_of_le hkj).stopped _ stopped) early passes
  have hlater := (tr.history.later_of_le (Nat.le_of_lt hjn)).ended _ _ hended
  exact Option.isSome_iff_exists.mpr ⟨_, hlater⟩

end Trace

/-- A fan-out that takes a completion of this kind neither counts nor reports it. -/
theorem Tally.accept_cancelled (policy : FailurePolicy) (owner : String) (name : Nat → String)
    (index : Nat) (tally : Tally) :
    tally.accept policy name ⟨index, .error .cancelled⟩ = .ok tally ∧
      Tally.report? policy owner ⟨index, .error .cancelled⟩ = none := by
  cases policy <;> exact ⟨rfl, rfl⟩

/-- The elements of a map whose worker has been started by a moment. -/
def Map.begunAt (map : Map) (ctx : Context) (states : List State) (tr : Trace) (task : TaskId)
    (first m : Nat) : Set Nat :=
  {i | ∃ run, map.Element ctx states tr task first i run ∧ tr.HasBegun run m}

section Stopped

variable {map : Map} {ctx : Context} {states : List State} {tr : Trace} {task : TaskId}
  {first permits k n : Nat} {K : Outcome → Task} (bound : map.bound ctx.config = some permits)
  (running : (tr.machine first).control = .running task ((map.mapStates ctx states).andThen K))
  (has : ctx.token < (tr.history.world first).tokens.size)
include bound running has

/-- The elements of a map are stopped together with its context. -/
theorem Map.Element.stopped {i : Nat} {run : LimitedRun}
    (element : map.Element ctx states tr task first i run)
    (stopped : (tr.history.world k).isStopped ctx.token = true) (hik : first + 1 + i < k) :
    (tr.history.world k).isStopped run.child.token = true := by
  have launches := element.launches bound running
  obtain ⟨s, child, -, rfl⟩ := element.started
  refine launches.stopped hik (Nat.lt_of_lt_of_le has ?_) stopped
  exact (tr.history.later_of_le (show first ≤ first + 1 + i by omega)).tokens.size

/-- No worker is started from then on. -/
theorem Map.begunAt_eq (stopped : (tr.history.world k).isStopped ctx.token = true) (hkn : k ≤ n) :
    map.begunAt ctx states tr task first n = map.begunAt ctx states tr task first k := by
  refine Set.ext fun i => ⟨?_, ?_⟩
  · rintro ⟨run, element, begun⟩
    refine ⟨run, element, ?_⟩
    by_contra unbegun
    have launches := element.launches bound running
    -- the run is early when both it has been started and the context is stopped
    by_cases hik : first + 1 + i < k
    · exact Trace.not_hasBegun_of_stopped launches hik
        (element.stopped bound running has stopped hik) unbegun n begun
    · have hlater := tr.history.later_of_le (show k ≤ first + 1 + i + 1 by omega)
      exact Trace.not_hasBegun_of_stopped launches (Nat.lt_succ_self _)
        (element.stopped bound running has (hlater.stopped _ stopped) (Nat.lt_succ_self _))
        (launches.not_hasBegun (Nat.le_refl _)) n begun
  · rintro ⟨run, element, j, hjk, control⟩
    exact ⟨run, element, j, Nat.le_trans hjk hkn, control⟩

end Stopped

/-- A run that has not begun to execute its runnable when its token is stopped never does, whatever
becomes of the permits. It does nothing but ask for its permit and fail, records nothing, and ends
with a cancellation before time passes, which no fan-out counts as a failure. In a map under a bound
each element that has not begun when the context is stopped is such a run, or is started as one, so
that no further worker is started. -/
theorem queued_never_begins :
    (∀ (tr : Trace) (run : LimitedRun) (added : Nat → Nat) (m k n : Nat),
      tr.Adds run.limit added → tr.Launches m run → m < k → k ≤ n →
      (tr.history.world k).isStopped run.child.token = true → ¬ tr.HasBegun run k →
      ¬ tr.HasBegun run n ∧
      (∀ t, (tr.machine n).control = .running run.child.id t →
        (t = .ask (.acquire run.limit run.child.token) run.admission ∨ t = .fail .cancelled) ∧
        (tr.history.world (n + 1)).profiles = (tr.history.world n).profiles) ∧
      (tr.history.clock k < tr.history.clock n → (tr.history.ended? n run.child.id).isSome) ∧
      ∀ place o, tr.history.ended? n run.child.id = some (place, o) → o = .error .cancelled ∧
        ∀ policy owner name index tally, Tally.accept policy name tally ⟨index, o⟩ = .ok tally ∧
          Tally.report? policy owner ⟨index, o⟩ = none) ∧
    ∀ (tr : Trace) (map : Map) (ctx : Context) (states : List State)
      (failures : List FailureMarker) (K : Outcome → Task) (task : TaskId) (first k n : Nat),
      (map.maxConcurrency <|> ctx.config.mapLimit).isSome →
      (tr.machine first).control =
        .running task ((map.runnable.next ctx (.many ⟨states, failures⟩)).andThen K) →
      ctx.token < (tr.history.world first).tokens.size →
      (tr.history.world k).isStopped ctx.token = true → k ≤ n →
      map.begunAt ctx states tr task first n = map.begunAt ctx states tr task first k ∧
      ∀ i run, map.Element ctx states tr task first i run → tr.Launches (first + 1 + i) run ∧
        (first + 1 + i < n → (tr.history.world n).isStopped run.child.token = true) := by
  constructor
  · intro tr run added m k n adds launches hmk hkn stopped unbegun
    have early := Trace.early_of_stopped launches hmk stopped unbegun hkn
    refine ⟨Trace.not_hasBegun_of_stopped launches hmk stopped unbegun n, fun t control => ⟨?_, ?_⟩,
      fun hclock => ?_, fun place o hended => ?_⟩
    · exact early.running (tr.sound_at n) control
    · rcases adds n with ⟨step, -⟩ | act | ⟨still, -⟩
      · exact early.profiles (tr.sound_at n) step control
      · cases act.idle.symm.trans control
      · exact congrArg (fun a => a.world.profiles) still
    · exact Trace.ended_of_stopped adds launches hmk stopped unbegun hkn hclock
    · obtain rfl := early.outcome (tr.sound_at n) hended
      exact ⟨rfl, fun policy owner name index tally =>
        Tally.accept_cancelled policy owner name index tally⟩
  · intro tr map ctx states failures K task first k n hbound running has stopped hkn
    obtain ⟨permits, hpermits⟩ := Option.isSome_iff_exists.mp hbound
    have bound : map.bound ctx.config = some (max permits 1) := by
      rw [Map.bound, hpermits, Option.map_some]
    refine ⟨Map.begunAt_eq bound running has stopped hkn, fun i run element =>
      ⟨element.launches bound running, fun hin => ?_⟩⟩
    exact element.stopped bound running has ((tr.history.later_of_le hkn).stopped _ stopped) hin

/-- A map of which one element runs at a time. -/
def Map.oneByOne : Map :=
  ⟨Leaf.sleep (.ofMillis 10), some 1, none, none⟩

/-- It is stopped at the instant at which its first element ends. -/
def oneByOneTrace : Trace :=
  .fresh [fun token => Map.oneByOne.runnable.next ⟨token, .default, 0⟩ (.many ⟨[.empty, .empty], []⟩),
    fun _ => .ask (.sleep (.ofMillis 10) none) fun _ => .ask (.stop [1]) fun _ => .succeed (.one .empty)]

/-- Its second element. -/
def LimitedRun.queued : LimitedRun :=
  ⟨⟨1, .default, 0⟩, Leaf.sleep (.ofMillis 10), .one .empty, 0, ⟨3, 4, "Sleep"⟩⟩

/-- The first element ends and passes its permit on to the second, which has been stopped before. -/
theorem queued_never_begins_of_oneByOne :
    let h := oneByOneTrace.history
    let begunAt := Map.oneByOne.begunAt ⟨1, .default, 0⟩ [.empty, .empty] oneByOneTrace 0 2
    oneByOneTrace.Adds 0 (fun _ => 0) ∧ oneByOneTrace.Launches 4 .queued ∧
    (h.world 22).isStopped 4 = true ∧ ¬ oneByOneTrace.HasBegun .queued 22 ∧
    ((h.world 27).limits.get? 0).map Limit.granted = some [3] ∧
    ¬ oneByOneTrace.HasBegun .queued 40 ∧
    h.ended? 40 3 = some (10, .error .cancelled) ∧ begunAt 40 = begunAt 22 := by
  intro h begunAt
  have adds : oneByOneTrace.Adds 0 fun _ => 0 := Trace.adds_alone _ _ 0
  have launches : oneByOneTrace.Launches 4 .queued := by with_unfolding_all rfl
  have stopped : (h.world 22).isStopped 4 = true := by with_unfolding_all rfl
  have unbegun : ¬ oneByOneTrace.HasBegun .queued 22 := by
    intro begun
    -- whoever executes its worker holds a permit
    have hunended : h.ended? 22 3 = none := by with_unfolding_all rfl
    have hholds := Trace.Executing.holds adds launches ⟨begun, hunended⟩
    have hnone : (h.world 22).heldBy 0 3 = 0 := by with_unfolding_all rfl
    exact Nat.ne_of_gt hholds hnone
  have hended : h.ended? 40 3 = some (10, .error .cancelled) := by with_unfolding_all rfl
  have running : (oneByOneTrace.machine 2).control = .running 0 ((Map.oneByOne.runnable.next
      ⟨1, .default, 0⟩ (.many ⟨[.empty, .empty], []⟩)).andThen .done) := by
    rw [Task.andThen_done]
    with_unfolding_all rfl
  obtain ⟨hruns, hmaps⟩ := queued_never_begins
  have hrun := hruns oneByOneTrace .queued (fun _ => 0) 4 22 40 adds launches (by decide) (by decide)
    stopped unbegun
  have hmap := hmaps oneByOneTrace .oneByOne ⟨1, .default, 0⟩ [.empty, .empty] [] .done 0 2 22 40 rfl
    running (by decide +kernel) (by with_unfolding_all rfl) (by decide)
  exact ⟨adds, launches, stopped, unbegun, by with_unfolding_all rfl, hrun.1, hended, hmap.1⟩

end Orchestra
