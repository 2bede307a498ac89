import Orchestra.Proofs.World.Evaluation

/-!
# Scripts

A script is the program of a composite in which its parts are left whole: it looks at its token or at its
clock, calls a part, or records a call, and goes on with what it has seen. Where it goes depends on the events
alone. So two scripts that go on with the same events play in the same way: their parts are called on
the same inputs at the same moments in the same worlds.
-/

namespace Orchestra

/-- The program of a composite. -/
inductive Script where
  | done (o : Outcome)
  | endless
  | look (next : Bool → Script)
  | time (next : Nat → Script)
  | call (part : Runnable) (input : Data) (next : Outcome → Script)
  | note (name : String) (failed : Bool) (rest : Script)

/-- What a script sees. -/
inductive Event where
  | looked (stopped : Bool)
  | timed (reading : Nat)
  | returned (part : Runnable) (input : Data) (o : Outcome)
  | noted (name : String) (failed : Bool)

/-- The output of a part. -/
def Event.output? : Event → Option Data
  | returned _ _ (.ok d) => some d
  | _ => none

/-- The outputs of the parts, in the order in which they came. -/
def Event.outputs (es : List Event) : List Data :=
  es.filterMap output?

theorem Event.mem_outputs {d : Data} {es : List Event} (h : d ∈ outputs es) :
    ∃ part input, returned part input (.ok d) ∈ es := by
  obtain ⟨e, he, hd⟩ := List.mem_filterMap.mp h
  cases e with
  | returned part input o =>
    cases o with
    | ok d' =>
      cases hd
      exact ⟨part, input, he⟩
    | error => cases hd
  | _ => cases hd

/-- The part that was called, with its input. -/
def Event.call? : Event → Option (Runnable × Data)
  | returned part input _ => some (part, input)
  | _ => none

/-- The calls of parts that have returned, in their order. -/
def Event.calls (es : List Event) : List (Runnable × Data) :=
  es.filterMap call?

namespace Event

variable {es fs : List Event} {part : Runnable} {input : Data}

@[simp] theorem calls_nil : calls [] = [] := rfl

@[simp] theorem calls_looked (stopped : Bool) : calls (looked stopped :: es) = calls es := rfl

@[simp] theorem calls_timed (reading : Nat) : calls (timed reading :: es) = calls es := rfl

@[simp] theorem calls_returned (o : Outcome) :
    calls (returned part input o :: es) = (part, input) :: calls es := rfl

@[simp] theorem calls_append : calls (es ++ fs) = calls es ++ calls fs :=
  List.filterMap_append

end Event

namespace Script

/-- The part that a script is about to call, with its input. -/
def call? : Script → Option (Runnable × Data)
  | call part input _ => some (part, input)
  | _ => none

/-- The calls that have begun by the time a script is to go on: those that have returned, and the one
to come if there is one. -/
def begun (es : List Event) (s : Script) : List (Runnable × Data) :=
  Event.calls es ++ s.call?.toList

@[simp] theorem begun_done (es : List Event) (o : Outcome) : begun es (done o) = Event.calls es :=
  List.append_nil _

theorem begun_append (es fs : List Event) (s : Script) :
    begun (es ++ fs) s = Event.calls es ++ begun fs s := by
  rw [begun, Event.calls_append, List.append_assoc]
  rfl

/-- The program as a task. -/
def task (ctx : Context) : Script → Task
  | done o => .done o
  | endless => .endless
  | look next => .ask (.isStopped ctx.token) fun stopped => (next stopped).task ctx
  | time next => .ask .stopwatch fun reading => (next reading).task ctx
  | call part input next => (ctx.execute part input).andThen fun o => (next o).task ctx
  | note name failed rest => .ask (.record ctx.profile name failed) fun _ => rest.task ctx

/-- What a composite that holds data makes of an error of a part: a cancellation may acknowledge a stop.
It goes on by `k`. -/
def afterError (k : Outcome → Script) (held : Data) (e : RunError) : Script :=
  if e.isCancelled then .look fun stopped => k (if stopped then .ok held else .error e)
  else k (.error e)

/-- A call whose errors are dealt with in this way is an attempt of the part. -/
theorem task_call_attempt {ctx : Context} {held : Data} {k : Outcome → Script}
    {onOutput : Data → Task} (part : Runnable) (input : Data) (next : Outcome → Script)
    (hok : ∀ d, (next (.ok d)).task ctx = (onOutput d).andThen fun o => (k o).task ctx)
    (herror : ∀ e, next (.error e) = afterError k held e) :
    (call part input next).task ctx =
      (ctx.attempt part input onOutput (.succeed held)).andThen fun o => (k o).task ctx := by
  rw [Context.attempt, Task.andThen_assoc]
  refine congrArg (ctx.execute part input).andThen (funext fun o => ?_)
  cases o with
  | ok d => exact hok d
  | error e =>
    rw [herror, afterError]
    dsimp only
    split
    · refine congrArg (Task.ask (.isStopped ctx.token)) (funext fun stopped => ?_)
      cases stopped <;> rfl
    · rfl

/-- Where a script goes with events. -/
inductive Goes : Script → List Event → Script → Prop
  | nil (s : Script) : Goes s [] s
  | look {next : Bool → Script} {es : List Event} {s : Script} (stopped : Bool)
    (rest : Goes (next stopped) es s) : Goes (look next) (.looked stopped :: es) s
  | time {next : Nat → Script} {es : List Event} {s : Script} (reading : Nat)
    (rest : Goes (next reading) es s) : Goes (time next) (.timed reading :: es) s
  | call {part : Runnable} {input : Data} {next : Outcome → Script} {es : List Event} {s : Script}
    (o : Outcome) (rest : Goes (next o) es s) :
    Goes (call part input next) (.returned part input o :: es) s
  | note {name : String} {failed : Bool} {t : Script} {es : List Event} {s : Script}
    (rest : Goes t es s) : Goes (note name failed t) (.noted name failed :: es) s

theorem Goes.of_done {o : Outcome} {es : List Event} {s : Script} (goes : (done o).Goes es s) :
    es = [] ∧ s = done o := by
  cases goes
  exact ⟨rfl, rfl⟩

theorem Goes.of_endless {es : List Event} {s : Script} (goes : endless.Goes es s) :
    es = [] ∧ s = endless := by
  cases goes
  exact ⟨rfl, rfl⟩

/-- A script goes on from where it has come to. -/
theorem goes_append_iff {s u : Script} {es fs : List Event} :
    s.Goes (es ++ fs) u ↔ ∃ t, s.Goes es t ∧ t.Goes fs u := by
  constructor
  · intro goes
    induction es generalizing s with
    | nil => exact ⟨s, .nil s, goes⟩
    | cons e es ih =>
      cases goes with
      | look b rest =>
        obtain ⟨t, first, second⟩ := ih rest
        exact ⟨t, .look b first, second⟩
      | time reading rest =>
        obtain ⟨t, first, second⟩ := ih rest
        exact ⟨t, .time reading first, second⟩
      | call o rest =>
        obtain ⟨t, first, second⟩ := ih rest
        exact ⟨t, .call o first, second⟩
      | note rest =>
        obtain ⟨t, first, second⟩ := ih rest
        exact ⟨t, .note first, second⟩
  · rintro ⟨t, first, second⟩
    induction first with
    | nil => exact second
    | look b _ ih => exact .look b (ih second)
    | time reading _ ih => exact .time reading (ih second)
    | call o _ ih => exact .call o (ih second)
    | note _ ih => exact .note (ih second)

end Script

/-- The world after a call has been recorded. -/
def World.noted (w : World) (ctx : Context) (name : String) (failed : Bool) : World :=
  { w with profiles := w.profiles.modify ctx.profile fun p => p.record name .zero failed }

namespace Point

variable {p : Point} {task : TaskId}

/-- The point after a look. -/
def looked (p : Point) : Point :=
  ⟨p.moment + 1, p.world⟩

/-- The point after a reading of the clock. -/
def timed (p : Point) : Point :=
  ⟨p.moment + 1, { p.world with stopwatch := p.world.stopwatch.next }⟩

/-- The point after a record. -/
def noted (p : Point) (ctx : Context) (name : String) (failed : Bool) : Point :=
  ⟨p.moment + 1, p.world.noted ctx name failed⟩

theorem Ready.looked (ready : p.Ready task) : p.looked.Ready task :=
  ready

theorem Ready.timed (ready : p.Ready task) : p.timed.Ready task := by
  have there : p.world.answer? task none .stopwatch =
      some (p.world.stopwatch.next.reading, p.timed.world) := rfl
  exact ready.next there

theorem Ready.noted (ready : p.Ready task) (ctx : Context) (name : String) (failed : Bool) :
    (p.noted ctx name failed).Ready task := by
  have there : p.world.answer? task none (.record ctx.profile name failed) =
      some ((), p.world.noted ctx name failed) := rfl
  exact ready.next there

end Point

namespace Script

/-- A script plays from one point to another, where its parts and looks bring about the events. -/
inductive Plays (sched : Schedule) (task : TaskId) (ctx : Context) :
    Point → Script → List Event → Point → Script → Prop
  | nil (p : Point) (s : Script) : Plays sched task ctx p s [] p s
  | look {p q : Point} {next : Bool → Script} {es : List Event} {s : Script}
    (rest : Plays sched task ctx p.looked (next (p.world.isStopped ctx.token)) es q s) :
    Plays sched task ctx p (look next) (.looked (p.world.isStopped ctx.token) :: es) q s
  | time {p q : Point} {next : Nat → Script} {es : List Event} {s : Script}
    (rest : Plays sched task ctx p.timed (next p.timed.world.stopwatch.reading) es q s) :
    Plays sched task ctx p (time next) (.timed p.timed.world.stopwatch.reading :: es) q s
  | call {p k q : Point} {part : Runnable} {input : Data} {next : Outcome → Script} {o : Outcome}
    {es : List Event} {s : Script} (comes : (part.next ctx input).Comes sched task p k o)
    (rest : Plays sched task ctx (k.noted ctx part.name (Outcome.isError o)) (next o)
      es q s) :
    Plays sched task ctx p (call part input next) (.returned part input o :: es) q s
  | note {p q : Point} {name : String} {failed : Bool} {t : Script} {es : List Event} {s : Script}
    (rest : Plays sched task ctx (p.noted ctx name failed) t es q s) :
    Plays sched task ctx p (note name failed t) (.noted name failed :: es) q s

variable {sched : Schedule} {task : TaskId} {ctx : Context} {p q k : Point} {s t : Script}
  {es fs : List Event} {o : Outcome}

namespace Plays

/-- It goes where the events lead, -/
theorem goes (plays : Plays sched task ctx p s es q t) : s.Goes es t := by
  induction plays with
  | nil => exact .nil _
  | look _ ih => exact .look _ ih
  | time _ ih => exact .time _ ih
  | call _ _ ih => exact .call _ ih
  | note _ ih => exact .note ih

/-- and every other script that goes on with these events plays alike. -/
theorem alike (plays : Plays sched task ctx p s es q t) {s' t' : Script} (goes : s'.Goes es t') :
    Plays sched task ctx p s' es q t' := by
  induction plays generalizing s' with
  | nil =>
    cases goes
    exact .nil _ _
  | look _ ih =>
    cases goes with
    | look _ rest => exact .look (ih rest)
  | time _ ih =>
    cases goes with
    | time _ rest => exact .time (ih rest)
  | call comes _ ih =>
    cases goes with
    | call _ rest => exact .call comes (ih rest)
  | note _ ih =>
    cases goes with
    | note rest => exact .note (ih rest)

/-- It passes every point between the events. -/
theorem split {s' : Script} (plays : Plays sched task ctx p s (es ++ fs) k s') :
    ∃ q t, Plays sched task ctx p s es q t ∧ Plays sched task ctx q t fs k s' := by
  induction es generalizing p s with
  | nil => exact ⟨p, s, .nil p s, plays⟩
  | cons e es ih =>
    cases plays with
    | look rest =>
      obtain ⟨q, t, first, second⟩ := ih rest
      exact ⟨q, t, .look first, second⟩
    | time rest =>
      obtain ⟨q, t, first, second⟩ := ih rest
      exact ⟨q, t, .time first, second⟩
    | call comes rest =>
      obtain ⟨q, t, first, second⟩ := ih rest
      exact ⟨q, t, .call comes first, second⟩
    | note rest =>
      obtain ⟨q, t, first, second⟩ := ih rest
      exact ⟨q, t, .note first, second⟩

/-- It goes on from where it has come to. -/
theorem append {u : Script} (first : Plays sched task ctx p s es q t)
    (second : Plays sched task ctx q t fs k u) : Plays sched task ctx p s (es ++ fs) k u := by
  induction first with
  | nil => exact second
  | look _ ih => exact .look (ih second)
  | time _ ih => exact .time (ih second)
  | call comes _ ih => exact .call comes (ih second)
  | note _ ih => exact .note (ih second)

/-- A look that shows what is known. -/
theorem look_of_eq {next : Bool → Script} {b : Bool} (h : p.world.isStopped ctx.token = b)
    (rest : Plays sched task ctx p.looked (next b) es q t) :
    Plays sched task ctx p (.look next) (.looked b :: es) q t := by
  subst h
  exact .look rest

/-- An outcome of a part is what the part has come to. -/
theorem exists_comes (plays : Plays sched task ctx p s es q t) {part : Runnable} {input : Data}
    (h : .returned part input o ∈ es) :
    ∃ k k', (part.next ctx input).Comes sched task k k' o := by
  induction plays with
  | nil => contradiction
  | look _ ih | time _ ih | note _ ih => exact ih ((List.mem_cons.mp h).resolve_left nofun)
  | call comes _ ih =>
    rcases List.mem_cons.mp h with heq | h
    · cases heq
      exact ⟨_, _, comes⟩
    · exact ih h

/-- Without an event a script stays where it is. -/
theorem eq_of_nil (plays : Plays sched task ctx p s [] q t) : q = p ∧ t = s := by
  cases plays
  exact ⟨rfl, rfl⟩

/-- A look shows whether the token is stopped. -/
theorem stopped_eq {b : Bool} (plays : Plays sched task ctx p s (es ++ [.looked b]) q t) :
    q.world.isStopped ctx.token = b := by
  obtain ⟨k, s', -, last⟩ := plays.split
  cases last with
  | look rest =>
    obtain ⟨rfl, -⟩ := rest.eq_of_nil
    rfl

/-- Parts that return at once stop nothing. -/
theorem isStopped_eq (plays : Plays sched task ctx p s es q t)
    (hparts : ∀ part x o, .returned part x o ∈ es → ∃ o', part.next ctx x = .done o')
    (token : TokenId) : q.world.isStopped token = p.world.isStopped token := by
  induction plays with
  | nil => rfl
  | look _ ih | time _ ih => exact ih fun part x o h => hparts part x o (List.mem_cons_of_mem _ h)
  | call comes _ ih =>
    obtain ⟨o', ho'⟩ := hparts _ _ _ (List.mem_cons_self ..)
    rw [ho'] at comes
    obtain ⟨rfl, -⟩ := Task.comes_done_iff.mp comes
    exact ih fun part x o h => hparts part x o (List.mem_cons_of_mem _ h)
  | note _ ih => exact ih fun part x o h => hparts part x o (List.mem_cons_of_mem _ h)

theorem ready (plays : Plays sched task ctx p s es q t) (ready : p.Ready task) : q.Ready task := by
  induction plays with
  | nil => exact ready
  | look _ ih => exact ih ready.looked
  | time _ ih => exact ih ready.timed
  | call comes _ ih => exact ih ((comes.ready ready).noted _ _ _)
  | note _ ih => exact ih (ready.noted _ _ _)

end Plays

/-- A look takes one moment. -/
theorem comes_look_iff {next : Bool → Script} : ((look next).task ctx).Comes sched task p q o ↔
    ((next (p.world.isStopped ctx.token)).task ctx).Comes sched task p.looked q o :=
  Task.comes_ask_iff rfl

/-- So does a reading of the clock. -/
theorem comes_time_iff {next : Nat → Script} : ((time next).task ctx).Comes sched task p q o ↔
    ((next p.timed.world.stopwatch.reading).task ctx).Comes sched task p.timed q o :=
  Task.comes_ask_iff rfl

/-- A record takes one moment. -/
theorem comes_note_iff {name : String} {failed : Bool} :
    ((note name failed t).task ctx).Comes sched task p q o ↔
      (t.task ctx).Comes sched task (p.noted ctx name failed) q o :=
  Task.comes_ask_iff rfl

/-- A call takes as long as the part, and one moment to be recorded. -/
theorem comes_call_iff (ready : p.Ready task) {part : Runnable} {input : Data}
    {next : Outcome → Script} : ((call part input next).task ctx).Comes sched task p q o ↔
      ∃ k o', (part.next ctx input).Comes sched task p k o' ∧ ((next o').task ctx).Comes sched task
        (k.noted ctx part.name (Outcome.isError o')) q o := by
  simp only [Script.task, Context.execute, Task.andThen_assoc, Task.ask_andThen,
    Task.done_andThen]
  rw [Task.comes_andThen_iff ready]
  exact exists_congr fun k => exists_congr fun o' => and_congr_right fun _ => Task.comes_ask_iff rfl

/-- A script that has played comes to what the rest of it comes to. -/
theorem Plays.comes_iff (plays : Plays sched task ctx p s es q t) (ready : p.Ready task) :
    (s.task ctx).Comes sched task p k o ↔ (t.task ctx).Comes sched task q k o := by
  induction plays with
  | nil => exact Iff.rfl
  | look _ ih =>
    rw [comes_look_iff]
    exact ih ready.looked
  | time _ ih =>
    rw [comes_time_iff]
    exact ih ready.timed
  | @call p first q part input next o₁ es t comes _ ih =>
    rw [comes_call_iff ready, ← ih ((comes.ready ready).noted _ _ _)]
    constructor
    · rintro ⟨first', o₂, comes', rest⟩
      obtain ⟨rfl, rfl⟩ := comes.unique comes'
      exact rest
    · exact fun rest => ⟨first, o₁, comes, rest⟩
  | note _ ih =>
    rw [comes_note_iff]
    exact ih (ready.noted _ _ _)

/-- A script comes to an outcome if it plays up to it. -/
theorem comes_iff (ready : p.Ready task) : (s.task ctx).Comes sched task p q o ↔
    ∃ es, Plays sched task ctx p s es q (.done o) := by
  constructor
  · intro comes
    induction s generalizing p with
    | done o' =>
      obtain ⟨rfl, rfl⟩ := Task.comes_done_iff.mp comes
      exact ⟨[], .nil _ _⟩
    | endless => exact absurd comes (Task.not_comes_endless ready)
    | look next ih =>
      obtain ⟨es, plays⟩ := ih _ ready.looked (comes_look_iff.mp comes)
      exact ⟨_, .look plays⟩
    | time next ih =>
      obtain ⟨es, plays⟩ := ih _ ready.timed (comes_time_iff.mp comes)
      exact ⟨_, .time plays⟩
    | call part input next ih =>
      obtain ⟨k, o', first, rest⟩ := (comes_call_iff ready).mp comes
      obtain ⟨es, plays⟩ := ih o' ((first.ready ready).noted _ _ _) rest
      exact ⟨_, .call first plays⟩
    | note name failed rest ih =>
      obtain ⟨es, plays⟩ := ih (ready.noted _ _ _) (comes_note_iff.mp comes)
      exact ⟨_, .note plays⟩
  · rintro ⟨es, plays⟩
    exact (plays.comes_iff ready).mpr (Task.comes_done_iff.mpr ⟨rfl, rfl⟩)

/-- A script that never waits for ever comes to an outcome if its parts return whenever they are called. -/
theorem exists_plays_done (hendless : ∀ es q, ¬ Plays sched task ctx p s es q .endless)
    (returns : ∀ es q part d next, Plays sched task ctx p s es q (.call part d next) →
      ∃ k o, (part.next ctx d).Comes sched task q k o) :
    ∃ es q o, Plays sched task ctx p s es q (.done o) := by
  suffices hfrom : ∀ t es k, Plays sched task ctx p s es k t →
      ∃ es q o, Plays sched task ctx p s es q (.done o) from hfrom s [] p (.nil _ _)
  intro t
  induction t with
  | done o => exact fun es k plays => ⟨es, k, o, plays⟩
  | endless => exact fun es k plays => absurd plays (hendless es k)
  | look next ih => exact fun es k plays => ih _ _ _ (plays.append (.look (.nil _ _)))
  | time next ih => exact fun es k plays => ih _ _ _ (plays.append (.time (.nil _ _)))
  | call part input next ih =>
    intro es k plays
    obtain ⟨k', o, comes⟩ := returns es k part input next plays
    exact ih o _ _ (plays.append (.call comes (.nil _ _)))
  | note name failed rest ih => exact fun es k plays => ih _ _ (plays.append (.note (.nil _ _)))

end Script

end Orchestra
