import Orchestra.Loop
import Orchestra.Pipeline.Build
import Orchestra.Proofs.Sequence.Script

/-!
# The four loops as one

The loops share one course and differ in what they hold. A plan says what a loop feeds to its body, what
it makes of an output, and what it returns if it is ended. With its plan each of the four loops is the
same script.
-/

namespace Orchestra

/-- What a loop does with what it holds between two rounds. -/
structure Plan (σ : Type) where
  /-- The next input of the body. -/
  input : σ → Data
  /-- What the loop returns if it is ended. -/
  result : σ → Data
  /-- Whether the loop gives up before the next round. -/
  weary : σ → Bool
  /-- What is held after an output. -/
  accept : σ → Data → Except RunError σ
  /-- Whether the loop ends after an output. -/
  satisfied : σ → Bool

namespace Loop

variable {σ : Type} (l : Loop) (plan : Plan σ)

/-- The end of a loop that has no round left. -/
def exhausted (result : Data) : Script :=
  if l.criteria.maxIterations.isSome then .done (.ok result) else .endless

/-- What follows a run of the body. -/
def after (goOn : σ → Script) (held : σ) : Outcome → Script
  | .ok output =>
    match plan.accept held output with
    | .error e => .done (.error e)
    | .ok held' => if plan.satisfied held' then .done (.ok (plan.result held')) else goOn held'
  | .error e =>
    if e.isCancelled then
      .look fun stopped => .done (if stopped then .ok (plan.result held) else .error e)
    else .done (.error e)

/-- Goes on with a reading of the clock, if there is a budget. -/
def timing (next : Nat → Script) : Script :=
  match l.criteria.budget with
  | none => next 0
  | some _ => .time next

/-- One round of a loop that is in time. -/
def round (goOn : σ → Script) (held : σ) : Script :=
  .look fun stopped =>
    if stopped || plan.weary held then .done (.ok (plan.result held))
    else .call l.body (plan.input held) (after plan goOn held)

/-- The loop with the given number of rounds left, since it has started. -/
def script (started : Nat) : Nat → σ → Script
  | 0, held => l.exhausted (plan.result held)
  | rounds + 1, held =>
    l.timing fun reading =>
      if l.criteria.usedUp started reading then .done (.ok (plan.result held))
      else l.round plan (script started rounds) held

/-- The loop from its start, with all its rounds left. -/
def start (held : σ) : Script :=
  l.timing fun started => l.script plan started l.rounds held

/-! ### The four loops -/

/-- The plan of the loop that returns its last output. -/
def lastPlan : Plan (Tracker Data × Data) where
  input held := held.2
  result held := held.2
  weary _ := false
  accept held output := .ok (l.observeForPredicate held.1 output, output)
  satisfied held := l.criteria.holdsOf held.1.value?

/-- The plan of the loop that returns all its outputs. -/
def unwindPlan : Plan (Tracker Data × List State × State) where
  input held := .one held.2.2
  result held := collected held.2.1
  weary _ := false
  accept held output := (output.toState l.body.name).map fun state =>
    (l.observeForPredicate held.1 (.one state), held.2.1 ++ [state], state)
  satisfied held := l.criteria.holdsOf held.1.value?

/-- The plan of the loop that returns its best output. -/
def bestPlan (patience : Option Nat) : Plan (Tracker Data × Nat × Data) where
  input held := held.2.2
  result held := held.1.value?.getD held.2.2
  weary _ := false
  accept held output :=
    .ok (l.observe held.1 output, l.staleAfter held.1 held.2.1 output, output)
  satisfied held := impatient patience held.2.1 || l.criteria.holdsOf held.1.value?

/-- The plan of the loop that retries its input. It holds the number of tries and the improvement,
if there is one. -/
def improvePlan (maxTries : Option Nat) (baseline : Data) : Plan (Nat × Option Data) where
  input _ := baseline
  result held := held.2.getD baseline
  weary held := impatient maxTries held.1
  accept held output := .ok (held.1 + 1,
    if (output.key l.criteria.key).below (baseline.key l.criteria.key) then some output else none)
  satisfied held := held.2.isSome || l.criteria.holdsOf (some baseline)

variable {l plan} {ctx : Context} {started : Nat}

theorem task_exhausted (result : Data) :
    (l.exhausted result).task ctx = l.outOfRounds result := by
  unfold exhausted outOfRounds
  split <;> rfl

theorem task_timing (next : Nat → Script) :
    (l.timing next).task ctx = l.timed fun reading => (next reading).task ctx := by
  unfold timing timed
  cases l.criteria.budget <;> rfl

/-- A round runs as a guarded attempt of the body. -/
theorem task_round (started rounds : Nat) (held : σ) :
    (l.script plan started (rounds + 1) held).task ctx =
      l.guarded ctx started (plan.result held) fun _ =>
        if plan.weary held then .succeed (plan.result held)
        else ctx.attempt l.body (plan.input held)
          (fun output => (after plan (l.script plan started rounds) held (.ok output)).task ctx)
          (.succeed (plan.result held)) := by
  rw [script, task_timing]
  refine congrArg l.timed (funext fun reading => ?_)
  split
  · rfl
  · refine congrArg (Task.ask (.isStopped ctx.token)) (funext fun stopped => ?_)
    cases stopped with
    | true => rfl
    | false =>
      cases plan.weary held with
      | true => rfl
      | false =>
        refine .trans ?_ (Task.andThen_done _)
        exact Script.task_call_attempt (k := .done) l.body (plan.input held)
          (after plan (l.script plan started rounds) held)
          (fun _ => (Task.andThen_done _).symm) fun _ => rfl

theorem after_ok {goOn : σ → Script} {held held' : σ} {output : Data}
    (accepted : plan.accept held output = .ok held') : after plan goOn held (.ok output) =
      if plan.satisfied held' then .done (.ok (plan.result held')) else goOn held' := by
  simp only [after, accepted]

theorem task_after_ok {goOn : σ → Script} {held held' : σ} {output : Data}
    (accepted : plan.accept held output = .ok held') :
    (after plan goOn held (.ok output)).task ctx =
      if plan.satisfied held' then .succeed (plan.result held') else (goOn held').task ctx := by
  rw [after_ok accepted]
  split <;> rfl

theorem task_script_last (rounds : Nat) (best : Tracker Data) (held : Data) :
    (l.script l.lastPlan started rounds (best, held)).task ctx =
      l.repeatLast ctx started rounds best held := by
  induction rounds generalizing best held with
  | zero => exact task_exhausted held
  | succ rounds ih =>
    rw [task_round, repeatLast]
    refine congrArg (l.guarded ctx started held) (funext fun _ => ?_)
    refine congrArg (ctx.attempt l.body held · (.succeed held)) (funext fun output => ?_)
    rw [task_after_ok rfl, ih]
    rfl

theorem task_script_unwind (rounds : Nat) (best : Tracker Data) (history : List State)
    (held : State) : (l.script l.unwindPlan started rounds (best, history, held)).task ctx =
      l.repeatCollecting ctx started rounds best history held := by
  induction rounds generalizing best history held with
  | zero => exact task_exhausted (collected history)
  | succ rounds ih =>
    rw [task_round, repeatCollecting]
    refine congrArg (l.guarded ctx started (collected history)) (funext fun _ => ?_)
    refine congrArg (ctx.attempt l.body (.one held) · (.succeed (collected history)))
      (funext fun output => ?_)
    cases houtput : output.toState l.body.name with
    | error e => simp only [after, unwindPlan, houtput, Except.map, Script.task, Task.fail]
    | ok state =>
      have haccept : l.unwindPlan.accept (best, history, held) output =
          .ok (l.observeForPredicate best (.one state), history ++ [state], state) := by
        simp only [unwindPlan, houtput, Except.map]
      rw [task_after_ok haccept, ih]
      rfl

theorem task_script_best (patience : Option Nat) (rounds : Nat) (best : Tracker Data) (stale : Nat)
    (held : Data) : (l.script (l.bestPlan patience) started rounds (best, stale, held)).task ctx =
      l.repeatBest ctx started patience rounds best stale held := by
  induction rounds generalizing best stale held with
  | zero => exact task_exhausted (best.value?.getD held)
  | succ rounds ih =>
    rw [task_round, repeatBest]
    refine congrArg (l.guarded ctx started (best.value?.getD held)) (funext fun _ => ?_)
    refine congrArg (ctx.attempt l.body held · (.succeed (best.value?.getD held)))
      (funext fun output => ?_)
    rw [task_after_ok rfl, ih]
    rfl

theorem task_script_improve (maxTries : Option Nat) (baseline : Data) (rounds tries : Nat) :
    (l.script (l.improvePlan maxTries baseline) started rounds (tries, none)).task ctx =
      l.retry ctx started maxTries baseline rounds tries := by
  induction rounds generalizing tries with
  | zero => exact task_exhausted baseline
  | succ rounds ih =>
    rw [task_round, retry]
    refine congrArg (l.guarded ctx started baseline) (funext fun _ => ?_)
    refine ite_congr rfl (fun _ => rfl) fun _ => ?_
    refine congrArg (ctx.attempt l.body baseline · (.succeed baseline)) (funext fun output => ?_)
    rw [task_after_ok rfl]
    cases (output.key l.criteria.key).below (baseline.key l.criteria.key) with
    | true => simp [improvePlan]
    | false => simp [improvePlan, ← ih]

end Loop

namespace LoopKind

/-- The script of the loop of a kind. -/
def script (l : Loop) (input : Data) : LoopKind → Script
  | last => l.start l.lastPlan (.empty, input)
  | unwind =>
    match input.toState "Unwind" with
    | .error e => .done (.error e)
    | .ok state => l.start l.unwindPlan (.empty, [], state)
  | best patience => l.start (l.bestPlan patience) (.empty, 0, input)
  | improve maxTries => l.start (l.improvePlan maxTries input) (0, none)

/-- It is the program of the loop. -/
theorem task_script (kind : LoopKind) (l : Loop) (ctx : Context) (input : Data) :
    (kind.script l input).task ctx = (kind.runnable l).next ctx input := by
  cases kind with
  | last =>
    simp only [script, runnable, Loop.last, Loop.start, Loop.task_timing, Loop.task_script_last]
  | unwind =>
    cases input with
    | one state =>
      simp only [script, runnable, Loop.unwind, Loop.start, Data.toState, Loop.task_timing,
        Loop.task_script_unwind]
    | many states => rfl
  | best patience =>
    simp only [script, runnable, Loop.best, Loop.start, Loop.task_timing, Loop.task_script_best]
  | improve maxTries =>
    simp only [script, runnable, Loop.improve, Loop.start, Loop.task_timing,
      Loop.task_script_improve]

end LoopKind

end Orchestra
