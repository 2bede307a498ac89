import Orchestra.Leaf.Timed
import Orchestra.Proofs.Loop.Held

/-!
# Stopped loops

A loop looks at its token right before each run of its body, and once more if the body was cancelled. So
no run of the body starts in a stopped context, and a loop whose body acknowledges a stop returns what it held
before that run. An error is returned as it is: a cancellation only if the loop has just seen that its
context is not stopped.
-/

namespace Orchestra

theorem RunError.eq_cancelled_of_isCancelled {e : RunError} (he : e.isCancelled = true) :
    e = .cancelled := by
  cases e with
  | cancelled => rfl
  | _ => contradiction

/-- Whether a run was cancelled. -/
def Outcome.isCancelled : Outcome → Bool
  | .ok _ => false
  | .error e => e.isCancelled

theorem Outcome.eq_cancelled_of_isCancelled {o : Outcome} (ho : o.isCancelled = true) :
    o = .error .cancelled := by
  cases o with
  | ok => contradiction
  | error e => exact congrArg Except.error (RunError.eq_cancelled_of_isCancelled ho)

namespace Loop

variable {σ : Type} {l : Loop} {plan : Plan σ} {started rounds : Nat} {held : σ} {es : List Event}

/-- A loop that calls its body has just seen that its token is not stopped. -/
theorem Stands.of_call {part : Runnable} {d : Data} {next : Outcome → Script}
    (stands : Stands l plan started rounds held es (.call part d next)) : part = l.body ∧
      (∃ before, es = before ++ [.looked false]) ∧ Event.outputs es = [] ∧
      ∃ goOn, next = after plan goOn held := by
  generalize hs : Script.call part d next = s at stands
  cases stands with
  | calling inTime =>
    cases hs
    exact ⟨rfl, ⟨_, rfl⟩, by simp [inTime.outputs], _, rfl⟩
  | _ => cases hs

/-- A loop that sees a stop returns what it held before the round. -/
theorem Stands.of_look {next : Bool → Script}
    (stands : Stands l plan started rounds held es (.look next)) :
    Event.outputs es = [] ∧ next true = .done (.ok (plan.result held)) := by
  generalize hs : Script.look next = s at stands
  cases stands with
  | looking inTime =>
    cases hs
    exact ⟨inTime.outputs, rfl⟩
  | wondering inTime =>
    cases hs
    exact ⟨by simp [inTime.outputs], rfl⟩
  | _ => cases hs

/-- A loop that is cancelled has just seen that its token is not stopped. -/
theorem Stands.of_cancelled {e : RunError} (he : e.isCancelled = true)
    (refuses : ∀ held output e, plan.accept held output = .error e → e.isCancelled = false)
    (stands : Stands l plan started rounds held es (.done (.error e))) :
    ∃ before, es = before ++ [.looked false] := by
  generalize hs : Script.done (.error e) = s at stands
  cases stands with
  | refused _ _ refusal =>
    cases hs
    rw [refuses _ _ _ refusal] at he
    contradiction
  | failed _ _ hfailed =>
    cases hs
    rw [hfailed] at he
    contradiction
  | @cancelled _ before _ _ _ _ _ stopped =>
    cases stopped with
    | true => cases hs
    | false => exact ⟨before ++ [_, _], (List.append_assoc before [_, _] [_]).symm⟩
  | _ => cases hs

end Loop

namespace LoopKind

variable {kind : LoopKind} {l : Loop} {input : Data} {es : List Event}

/-- Whatever does not begin with an error of the input or with a look at the clock is in a round. -/
theorem exists_stands {s : Script} (goes : (kind.script l input).Goes es s) :
    (∃ e, e.isCancelled = false ∧ s = .done (.error e)) ∨ (∃ next, s = .time next) ∨
      ∃ σ, ∃ plan : Plan σ, ∃ first started left last es₁ es₂, kind.Starts l input plan first ∧
        Loop.Rounds l plan started l.rounds first es₁ left last ∧
        Loop.Stands l plan started left last es₂ s ∧
          ∃ before, Event.outputs before = [] ∧ es = before ++ (es₁ ++ es₂) := by
  rcases kind.starts l input with ⟨e, hscript, he⟩ | ⟨σ, plan, first, starts⟩
  · rw [hscript] at goes
    exact .inl ⟨e, he, goes.of_done.2⟩
  · rw [starts.script] at goes
    rcases Loop.exists_rounds_of_goes_start goes with ⟨-, next, hs⟩ | hin
    · exact .inr (.inl ⟨next, hs⟩)
    · obtain ⟨started, before, left, last, es₁, es₂, reads, through, stands, hes⟩ := hin
      exact .inr (.inr ⟨σ, plan, first, started, left, last, es₁, es₂, starts, through, stands,
        before, reads.outputs, hes⟩)

/-- A loop that calls its body has just seen that its token is not stopped. It returns what it holds if
the body acknowledges a stop, and any other error of the body. -/
theorem goes_to_call {part : Runnable} {d : Data} {next : Outcome → Script}
    (goes : (kind.script l input).Goes es (.call part d next)) :
    part = l.body ∧ (∃ before, es = before ++ [.looked false]) ∧
      ∃ held, kind.Holds l input (Event.outputs es) held ∧ ∀ e, next (.error e) =
        if e.isCancelled then .look fun stopped => .done (if stopped then .ok held else .error e)
        else .done (.error e) := by
  obtain ⟨e, -, hs⟩ | ⟨_, hs⟩ | ⟨σ, plan, first, started, left, last, es₁, es₂, hin⟩ :=
    exists_stands goes
  · cases hs
  · cases hs
  · obtain ⟨starts, through, stands, before, hbefore, rfl⟩ := hin
    obtain ⟨rfl, ⟨last', rfl⟩, hnone, goOn, rfl⟩ := stands.of_call
    refine ⟨rfl, ⟨before ++ (es₁ ++ last'), by simp⟩, plan.result last, ?_, fun e => rfl⟩
    rw [Event.outputs_append, Event.outputs_append, hbefore, hnone, List.append_nil]
    exact starts.holds _ _ _ _ through

/-- A loop that sees a stop returns what it holds. -/
theorem goes_to_look {next : Bool → Script} (goes : (kind.script l input).Goes es (.look next)) :
    ∃ held, kind.Holds l input (Event.outputs es) held ∧ next true = .done (.ok held) := by
  obtain ⟨e, -, hs⟩ | ⟨_, hs⟩ | ⟨σ, plan, first, started, left, last, es₁, es₂, hin⟩ :=
    exists_stands goes
  · cases hs
  · cases hs
  · obtain ⟨starts, through, stands, before, hbefore, rfl⟩ := hin
    obtain ⟨hnone, hnext⟩ := stands.of_look
    refine ⟨plan.result last, ?_, hnext⟩
    rw [Event.outputs_append, Event.outputs_append, hbefore, hnone, List.append_nil]
    exact starts.holds _ _ _ _ through

/-- A loop that is cancelled has just seen that its token is not stopped. -/
theorem goes_to_cancelled (goes : (kind.script l input).Goes es (.done (.error .cancelled))) :
    ∃ before, es = before ++ [.looked false] := by
  obtain ⟨e, he, hs⟩ | ⟨_, hs⟩ | ⟨σ, plan, first, started, left, last, es₁, es₂, hin⟩ :=
    exists_stands goes
  · cases hs
    contradiction
  · cases hs
  · obtain ⟨starts, -, stands, before, -, rfl⟩ := hin
    obtain ⟨last', rfl⟩ := stands.of_cancelled rfl starts.refuses
    exact ⟨before ++ (es₁ ++ last'), by simp⟩

/-- For a loop of each kind, every input, and every schedule. The loop runs as its script. No run of the
body starts while the context is stopped. The loop is never cancelled while its context is stopped. If it
looks at its token when the context is stopped, it returns what it holds. If a run of the body is cancelled
while the context is stopped, the loop returns what it held before that run; any other error of the body,
and a cancellation while the context is not stopped, is the error of the loop. -/
theorem keeps_result_of_stop (kind : LoopKind) (l : Loop) (ctx : Context) (input : Data)
    {sched : Schedule} {task : TaskId} {p : Point} (ready : p.Ready task) :
    let loop := (kind.runnable l).next ctx input
    let plays := Script.Plays sched task ctx p (kind.script l input)
    (∀ q o, loop.Comes sched task p q o ↔ ∃ es, plays es q (.done o)) ∧
    (∀ es q part d next, plays es q (.call part d next) →
      part = l.body ∧ q.world.isStopped ctx.token = false) ∧
    (∀ q, loop.Comes sched task p q (.error .cancelled) →
      q.world.isStopped ctx.token = false) ∧
    (∀ es q next, plays es q (.look next) → q.world.isStopped ctx.token = true →
      ∃ held, kind.Holds l input (Event.outputs es) held ∧
        loop.Comes sched task p q.looked (.ok held)) ∧
    ∀ es q d next k e, plays es q (.call l.body d next) →
      (l.body.next ctx d).Comes sched task q k (.error e) →
        let recorded := k.noted ctx l.body.name true
        (e = .cancelled → k.world.isStopped ctx.token = true →
          ∃ held, kind.Holds l input (Event.outputs es) held ∧
            loop.Comes sched task p recorded.looked (.ok held)) ∧
        (e = .cancelled → k.world.isStopped ctx.token = false →
          loop.Comes sched task p recorded.looked (.error e)) ∧
        (e ≠ .cancelled → loop.Comes sched task p recorded (.error e)) := by
  intro loop plays
  have hloop : loop = (kind.script l input).task ctx := (kind.task_script l ctx input).symm
  refine ⟨fun q o => ?_, fun es q part d next hplays => ?_, fun q comes => ?_,
    fun es q next hplays hstopped => ?_, fun es q d next k e hplays comes => ?_⟩
  · rw [hloop]
    exact Script.comes_iff ready
  · obtain ⟨hpart, ⟨before, rfl⟩, -⟩ := goes_to_call hplays.goes
    exact ⟨hpart, hplays.stopped_eq⟩
  · rw [hloop] at comes
    obtain ⟨es, hplays⟩ := (Script.comes_iff ready).mp comes
    obtain ⟨before, rfl⟩ := goes_to_cancelled hplays.goes
    exact hplays.stopped_eq
  · obtain ⟨held, hheld, hnext⟩ := goes_to_look hplays.goes
    refine ⟨held, hheld, ?_⟩
    rw [hloop, hplays.comes_iff ready, Script.comes_look_iff, hstopped, hnext]
    exact Task.comes_done_iff.mpr ⟨rfl, rfl⟩
  · obtain ⟨-, -, held, hheld, hnext⟩ := goes_to_call hplays.goes
    have hafter {q' : Point} {o : Outcome}
        (rest : ((next (.error e)).task ctx).Comes sched task (k.noted ctx l.body.name true) q' o) :
        loop.Comes sched task p q' o := by
      rw [hloop, hplays.comes_iff ready, Script.comes_call_iff (hplays.ready ready)]
      exact ⟨k, .error e, comes, rest⟩
    rw [hnext] at hafter
    refine ⟨?_, ?_, fun hother => ?_⟩
    · rintro rfl hstopped
      refine ⟨held, hheld, hafter (Script.comes_look_iff.mpr ?_)⟩
      rw [show (k.noted ctx l.body.name true).world.isStopped ctx.token = true from hstopped]
      exact Task.comes_done_iff.mpr ⟨rfl, rfl⟩
    · rintro rfl hrunning
      refine hafter (Script.comes_look_iff.mpr ?_)
      rw [show (k.noted ctx l.body.name true).world.isStopped ctx.token = false from hrunning]
      exact Task.comes_done_iff.mpr ⟨rfl, rfl⟩
    · rw [if_neg (mt RunError.eq_cancelled_of_isCancelled hother)] at hafter
      exact hafter (Task.comes_done_iff.mpr ⟨rfl, rfl⟩)

/-- A loop over a delay that acknowledges a stop. -/
def naps : Loop :=
  ⟨Leaf.delayed (.ofMillis 30) none "nap", ⟨some 3, none, none, State.minEnergy⟩⟩

/-- The schedule under which the second run of the delay is stopped. -/
def disturbed : Schedule :=
  fun m => if m = 8 then .stop [1] else .next

/-- The state after a delay. -/
def rested : State :=
  State.empty.withEntry "finished_by" (.str "nap")

/-- The point before the second round. -/
def secondRound : Point :=
  (Point.first.looked.whenOver disturbed 0 6
    (naps.body.next ⟨1, .default, 0⟩ (.one .empty))).noted ⟨1, .default, 0⟩ "nap" false

/-- The first run of the delay is over in time, -/
theorem comes_of_first_nap : (naps.body.next ⟨1, .default, 0⟩ (.one .empty)).Comes disturbed 0
    Point.first.looked
    (Point.first.looked.whenOver disturbed 0 6 (naps.body.next ⟨1, .default, 0⟩ (.one .empty)))
    (.ok (.one rested)) :=
  Machine.comes_of_result? 6 (by with_unfolding_all rfl)

/-- and the second one acknowledges the stop. -/
theorem exists_comes_of_second_nap : ∃ k : Point, k.world.isStopped 1 = true ∧
    (naps.body.next ⟨1, .default, 0⟩ (.one rested)).Comes disturbed 0 secondRound.looked k
      (.error .cancelled) := by
  have hcancelled : (Machine.result? disturbed 0 6 secondRound.looked.moment
      ⟨secondRound.world, .running 0 (naps.body.next ⟨1, .default, 0⟩ (.one rested))⟩).any
        (fun r => r.1.world.isStopped 1 && r.2.isCancelled) = true := by
    decide +kernel
  obtain ⟨k, o, comes, htest⟩ := Machine.exists_comes_of_result? 6 hcancelled
  obtain ⟨hstopped, ho⟩ := (Bool.and_eq_true _ _).mp htest
  obtain rfl : o = .error .cancelled := Outcome.eq_cancelled_of_isCancelled ho
  exact ⟨k, hstopped, comes⟩

/-- The loop is stopped while its body runs for the second time, and returns the first output. -/
theorem keeps_result_of_naps : ∃ r : Point, r.world.isStopped 1 = true ∧
    ((LoopKind.last.runnable naps).next ⟨1, .default, 0⟩ (.one .empty)).Comes disturbed 0 .first r
      (.ok (.one rested)) := by
  let ctx : Context := ⟨1, .default, 0⟩
  have hplays : Script.Plays disturbed 0 ctx .first (LoopKind.last.script naps (.one .empty))
      [.looked false, .returned naps.body (.one .empty) (.ok (.one rested)), .looked false]
      secondRound.looked (.call naps.body (.one rested) (Loop.after naps.lastPlan
        (naps.script naps.lastPlan 0 1) (.empty, .one rested))) := by
    refine .look_of_eq (by with_unfolding_all rfl) ?_
    refine .call comes_of_first_nap ?_
    exact .look_of_eq (by with_unfolding_all rfl) (.nil _ _)
  obtain ⟨k, hstopped, hcancelled⟩ := exists_comes_of_second_nap
  obtain ⟨-, -, -, -, hcalls⟩ := LoopKind.last.keeps_result_of_stop naps ctx (.one .empty)
    Point.ready_first
  obtain ⟨hkeeps, -, -⟩ := hcalls _ _ _ _ _ _ hplays hcancelled
  obtain ⟨held, hheld, hcomes⟩ := hkeeps rfl hstopped
  cases hheld
  exact ⟨(k.noted ctx naps.body.name true).looked, hstopped, hcomes⟩

end LoopKind

end Orchestra
