import Orchestra.Proofs.Caller.Phases
import Orchestra.Proofs.Calls.Uses

/-!
# Calls and their returns

A call is an execution of a runnable by a task: it begins when the task comes to it, and returns when the
task goes on with its outcome. A call is recorded in its last step before it returns. In a pipeline nothing
else is recorded, at whatever depth and in whatever task, so what is recorded are the returns of calls.
-/

namespace Orchestra

/-- A program that records nothing but the calls of known runnables. These record nothing else either, nor
do the children that are started on the way. -/
inductive Task.Calls (known : Runnable → Prop) : Task → Prop
  | done (o : Outcome) : Calls known (.done o)
  | panic (p : Payload) : Calls known (.panic p)
  | endless : Calls known .endless
  | ask {r : Request} {next : r.Answer → Task} (other : r.records = false)
    (rest : ∀ a, Calls known (next a)) : Calls known (.ask r next)
  | spawn {name : String} {parent : TokenId} {body : TokenId → Task} {next : Child → Task}
    (child : ∀ token, Calls known (body token)) (rest : ∀ c, Calls known (next c)) :
    Calls known (.spawn name parent body next)
  | execute (ctx : Context) {r : Runnable} (input : Data) {rest : Outcome → Task} (hr : known r)
    (call : Calls known (r.next ctx input)) (hrest : ∀ o, Calls known (rest o)) :
    Calls known ((ctx.execute r input).andThen rest)

/-- A runnable whose programs record nothing but the calls of known runnables. -/
def Runnable.Calls (r : Runnable) (known : Runnable → Prop) : Prop :=
  ∀ (ctx : Context) input, (r.next ctx input).Calls known

variable {known pool : Runnable → Prop} {ctx : Context} {r : Runnable} {input : Data}

namespace Context

/-- An execution of a known runnable is such a program, -/
theorem calls_execute (hr : known r) (calls : r.Calls known) : (ctx.execute r input).Calls known := by
  rw [← Task.andThen_done (ctx.execute r input)]
  exact .execute ctx input hr (calls ctx input) .done

/-- and so is a run of it. -/
theorem calls_run (hr : known r) (calls : r.Calls known) (limit : Option LimitId) (token : TokenId) :
    (ctx.run r input limit token).Calls known := by
  cases limit with
  | none => exact calls_execute hr calls
  | some l =>
    refine .ask rfl fun granted => ?_
    cases granted with
    | true => exact calls_execute hr calls
    | false => exact .done _

end Context

/-- A program that uses known runnables which do so. -/
theorem Task.Uses.calls {part : Runnable → Prop} {t : Task} (uses : t.Uses part)
    (h : ∀ x, part x → known x ∧ x.Calls known) : t.Calls known := by
  induction uses with
  | done o => exact .done o
  | panic p => exact .panic p
  | endless => exact .endless
  | ask plain _ ih => exact .ask (Request.records_of_isPlain plain) ih
  | execute ctx input hr _ ih => exact .execute ctx input (h _ hr).1 ((h _ hr).2 ctx input) ih
  | start ctx input limit hr _ ih =>
    exact .spawn (Context.calls_run (h _ hr).1 (h _ hr).2 limit) ih

/-- A leaf of the library records nothing. -/
theorem Task.AsksOnce.calls {trackers : TrackerId → Prop} {t : Task} (once : t.AsksOnce trackers) :
    t.Calls known := by
  cases once with
  | done o => exact .done o
  | ask unrecorded _ ends =>
    refine .ask unrecorded fun a => ?_
    obtain ⟨o, ho⟩ := ends a
    exact ho ▸ .done o

/-! ### What a pipeline calls -/

/-- The runnables of a pool and those that they are composed of. -/
inductive Runnable.Within (pool : Runnable → Prop) : Runnable → Prop
  | pooled {r : Runnable} (h : pool r) : Within pool r
  | part {r x : Runnable} (within : Within pool r) (h : x.IsPartOf r) : Within pool x

/-- Any fan-ins and folds, over the leaves of the library and any others that record nothing themselves,
but may call runnables of a pool. -/
def Parts.calling (pool : Runnable → Prop) : Parts where
  leaf r := r.OfLibrary (fun _ => True) ∨ r.Calls (Runnable.Within pool)
  fanIn _ := True
  combine _ := True
  initial _ := True

/-- A pipeline that is composed of them records the calls of its parts only. -/
theorem Runnable.Composed.calls (composed : r.Composed (.calling pool)) (within : r.Within pool) :
    r.Calls (Within pool) := by
  revert within
  refine composed.of_uses (P := fun r => r.Within pool → r.Calls (Within pool)) ?_ ?_
  · rintro r (library | calls) -
    · exact fun ctx input => (library.asksOnce input).calls
    · exact calls
  · intro r part uses parts ih within ctx input
    refine (uses ctx input).calls fun x hx => ?_
    exact ⟨within.part (parts x hx), ih x hx (within.part (parts x hx))⟩

/-! ### Calls in a trace -/

namespace Trace

variable {tr : Trace} {i j k : Nat} {o : Outcome} {s : Task}

/-- A call: a task comes to the execution of a runnable. -/
structure Call (tr : Trace) where
  ctx : Context
  runnable : Runnable
  input : Data
  task : TaskId
  first : Nat
  rest : Outcome → Task
  begins : (tr.machine first).control = .running task ((ctx.execute runnable input).andThen rest)

namespace Call

variable {call : tr.Call}

/-- The episode of a call. -/
def episode (call : tr.Call) : tr.Episode :=
  ⟨call.task, call.first, call.ctx.execute call.runnable call.input, call.rest, call.begins⟩

/-- At a moment the call has just returned with an outcome. -/
def Returns (call : tr.Call) (i : Nat) (o : Outcome) : Prop :=
  call.episode.Left i (.done o)

/-- What is recorded of a call. -/
def record (call : tr.Call) (o : Outcome) : Request :=
  .record call.ctx.profile call.runnable.name (Outcome.isError o)

/-- At a moment the call is about to be recorded. -/
def Records (call : tr.Call) (i : Nat) (o : Outcome) : Prop :=
  call.episode.Left i (.ask (call.record o) fun _ => .done o)

/-- A call that panics does not return. -/
theorem not_returns_of_panic {p : Payload} (left : call.episode.Left i (.panic p)) :
    ¬ call.Returns j o :=
  left.not_done_of_panic

/-- A call is recorded in the step in which it returns. -/
theorem Returns.recorded (returns : call.Returns i o) : ∃ j, i = j + 1 ∧ call.Records j o := by
  have parts : call.episode.part = (call.runnable.next call.ctx call.input).andThen fun o =>
    .ask (call.record o) fun _ => .done o := rfl
  rcases Episode.Left.former_or_latter parts returns with ⟨s, -, hs, hdone⟩ | ⟨j, o', ends, left⟩
  · cases s with
    | done o => exact absurd rfl (hdone o)
    | panic | endless | ask | spawn => cases hs
  · have records : call.Records j o' := Episode.Left.of_former ends
    rcases left.head with ⟨-, hs⟩ | ⟨e, next, left⟩
    · cases hs
    · cases next with
      | answer asks answers =>
        cases asks
        obtain ⟨rfl, -⟩ := answers.at_once rfl
        obtain ⟨rfl, heq⟩ := left.eq_part nofun nofun
        cases heq
        exact ⟨_, rfl, records⟩
      | spawn spawns => cases spawns

theorem Records.running (records : call.Records i o) :
    (tr.machine i).control = .running call.task (.ask (call.record o) fun _ => call.rest o) :=
  Episode.Left.running records

/-- No more than one call returns at a moment: whatever returns then is a call of the same task, is recorded by
the same request and followed by the same. -/
theorem Returns.unique {call' : tr.Call} {o' : Outcome} (returns : call.Returns i o)
    (returns' : call'.Returns i o') :
    call.task = call'.task ∧ call.record o = call'.record o' ∧ call.rest o = call'.rest o' := by
  obtain ⟨j, rfl, records⟩ := returns.recorded
  obtain ⟨j', hj, records'⟩ := returns'.recorded
  obtain rfl := Nat.succ.inj hj
  have heq := (Episode.Left.running returns).symm.trans (Episode.Left.running returns')
  injection heq with htask hrest
  have heq := records.running.symm.trans records'.running
  injection heq with _ hask
  injection hask with hrecord
  exact ⟨htask, hrecord, hrest⟩

/-- It returns in the step in which it is recorded. -/
theorem Records.returns (records : call.Records i o)
    (step : (tr.machine i).Step (tr.machine (i + 1))) : call.Returns (i + 1) o := by
  have hgone : (tr.history.world i).waiting call.task (call.record o) (fun _ => call.rest o) ∉
      (tr.machine (i + 1)).world.suspended := fun hs => by
    have hmachine : tr.machine i = ⟨tr.history.world i,
        .running call.task (.ask (call.record o) fun _ => call.rest o)⟩ :=
      congrArg (Machine.mk _) records.running
    have sound := tr.sound_at i
    rw [hmachine] at step sound
    generalize tr.machine (i + 1) = b at step hs
    cases step with
    | answer there =>
      exact (sound.runs _ _ rfl).2.2 _ ((World.steady_answer? there).suspended ▸ hs) rfl
    | suspend unanswered => exact absurd unanswered nofun
  obtain ⟨j, a, hj, answers, running, waits⟩ :=
    of_ask_of_step records.running step (Nat.lt_succ_self i) hgone
  obtain ⟨rfl, -⟩ := answers.at_once rfl
  exact Episode.Left.answer records answers waits running

end Call

/-! ### What a part does next -/

/-- A program that does not record anything next, and that starts nothing but programs which record calls of
known runnables only. -/
def Quiet (known : Runnable → Prop) : Task → Prop
  | .ask r _ => r.records = false
  | .spawn _ _ body _ => ∀ token, (body token).Calls known
  | _ => True

theorem Quiet.andThen {f : Outcome → Task} (quiet : Quiet known s) (hs : ∀ o, s ≠ .done o) :
    Quiet known (s.andThen f) := by
  cases s with
  | done o => exact absurd rfl (hs o)
  | panic | endless => trivial
  | ask | spawn => exact quiet

/-- Whatever is left of a part that records nothing but the calls of known runnables is quiet, or is about to
record such a call. -/
theorem Episode.Left.quiet_or_records {e : tr.Episode} (left : e.Left i s)
    (calls : e.part.Calls known) : Quiet known s ∨ ∃ call : tr.Call, ∃ o next,
      known call.runnable ∧ call.Records i o ∧ s = .ask (call.record o) next := by
  generalize hpart : e.part = t at calls
  induction calls generalizing e s with
  | done | panic | endless =>
    obtain ⟨-, rfl⟩ := left.eq_part (hpart ▸ nofun) (hpart ▸ nofun)
    rw [hpart]
    exact .inl trivial
  | ask other _ ih =>
    rcases left.head with ⟨-, rfl⟩ | ⟨e', next, left⟩
    · rw [hpart]
      exact .inl other
    · cases next with
      | answer asks =>
        cases hpart.symm.trans asks
        exact ih _ left rfl
      | spawn spawns => cases hpart.symm.trans spawns
  | spawn child _ _ ih =>
    rcases left.head with ⟨-, rfl⟩ | ⟨e', next, left⟩
    · rw [hpart]
      exact .inl child
    · cases next with
      | answer asks => cases hpart.symm.trans asks
      | spawn spawns =>
        cases hpart.symm.trans spawns
        exact ih _ left rfl
  | @execute ctx r input rest hr _ _ ihcall ihrest =>
    have parts : e.part = (r.next ctx input).andThen fun o =>
        .ask (.record ctx.profile r.name (Outcome.isError o)) fun _ => rest o := by
      rw [hpart, Context.execute, Task.andThen_assoc]
      rfl
    rcases left.former_or_latter parts with ⟨s', inner, rfl, hs'⟩ | ⟨j, o, ends, left⟩
    · rcases ihcall inner rfl with quiet | ⟨call, o, next, hknown, records, rfl⟩
      · exact .inl (quiet.andThen hs')
      · exact .inr ⟨call, o, _, hknown, records, rfl⟩
    · rcases left.head with ⟨hi, rfl⟩ | ⟨e', next, left⟩
      · obtain rfl : i = j := hi
        have begins := e.begins
        rw [hpart, Task.andThen_assoc] at begins
        let call : tr.Call := ⟨ctx, r, input, e.task, e.first, _, begins⟩
        have ends : (call.episode.former (t := r.next ctx input) rfl).Left i (.done o) := ends
        exact .inr ⟨call, o, _, hr, ends.of_former, rfl⟩
      · cases next with
        | answer asks =>
          cases asks
          exact ihrest _ left rfl
        | spawn spawns => cases spawns

end Trace

end Orchestra
