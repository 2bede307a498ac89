import Orchestra.Proofs.Profile.Steps
import Orchestra.Proofs.Tracking.Pipelines
import Orchestra.Proofs.World.Alone

/-!
# A tracking leaf that concurrent tasks share

In a world in which pipelines share a tracking leaf, at each moment one task calls the leaf, or its tracker
is reset from outside, or the tracker stays as it is. So the calls that concurrent tasks make follow each
other in some order, whatever turns the tasks have, and every statement about calls in any order holds of
them.
-/

namespace Orchestra

/-- Only an offer to a tracker changes it. -/
theorem World.tracker_answer? {w w' : World} {task : TaskId} {deadline : Option Nat} {r : Request}
    {a : r.Answer} {tracker : TrackerId} (there : w.answer? task deadline r = some (a, w'))
    (other : ∀ key s, r ≠ .offer tracker key s) :
    w'.cells.trackers.get? tracker = w.cells.trackers.get? tracker := by
  cases hoffer : r.isOffer with
  | false => rw [trackers_answer? there hoffer]
  | true =>
    cases r with
    | offer tracker' key s =>
      cases there
      refine (Table.get?_modify _ _ _ _).trans (if_neg ?_)
      rintro rfl
      exact other key s rfl
    | _ => contradiction

namespace Machine

variable {l : TrackingLeaf} {a b : Machine} {w w' : World} {task : TaskId} {t : Task}
  {input : State} {rest : Outcome → Task} {reset : Bool}

/-- A task that comes to a call of the leaf makes it in one step, and goes on with what the leaf puts
out. -/
theorem Step.calls (step : Step a b) (running : a.control = .running task t)
    (begins : l.Begins t input rest) :
    ∃ output, b.control = .running task (rest (.ok (.one output))) ∧
      l.Calls a.world input output b.world := by
  obtain ⟨w, control⟩ := a
  obtain ⟨ctx, rfl⟩ := begins
  obtain rfl : control = _ := running
  have hstep : Step ⟨w, .running task (.ask (.offer l.tracker (l.key input) input) fun best =>
      rest (.ok (.one (if l.outputBest then best.getD input else input))))⟩ b := step
  cases hstep with
  | answer there => exact ⟨_, rfl, task, ctx, .answer there⟩
  | suspend unanswered => contradiction

/-- Every task offers states to the tracker of the leaf only where it calls the leaf. -/
structure Tracks (l : TrackingLeaf) (a : Machine) : Prop where
  running : ∀ task t, a.control = .running task t → t.Tracks l
  requests : ∀ s ∈ a.world.suspended, ∀ key x, s.request ≠ .offer l.tracker key x
  waiting : ∀ s ∈ a.world.suspended, ∀ ans, (s.next ans).Tracks l

/-- A task that begins with such a program is no exception. -/
theorem tracks_begun {program : Task} (h : program.Tracks l) :
    (∀ key x, (w.begun program).request ≠ .offer l.tracker key x) ∧
      ∀ ans, ((w.begun program).next ans).Tracks l :=
  ⟨nofun, fun _ => h⟩

theorem Step.tracks (step : Step a b) (tracks : a.Tracks l) : b.Tracks l := by
  have hwaits : ∀ s ∈ b.world.suspended,
      (∀ key x, s.request ≠ .offer l.tracker key x) ∧ ∀ ans, (s.next ans).Tracks l := by
    intro s hs
    rcases step.waited hs with hs | ⟨_, _, _, _, _, running, rfl⟩ | ⟨running, unanswered⟩
    · exact ⟨tracks.requests s hs, tracks.waiting s hs⟩
    · exact tracks_begun ((tracks.running _ _ running).1 _)
    · refine ⟨fun key x heq => ?_, (tracks.running _ _ running).2⟩
      rw [heq] at unanswered
      contradiction
  refine ⟨fun task t running => ?_, fun s hs => (hwaits s hs).1, fun s hs => (hwaits s hs).2⟩
  cases step with
  | answer =>
    cases running
    exact (tracks.running _ _ rfl).2 _
  | spawn =>
    cases running
    exact (tracks.running _ _ rfl).2 _
  | resume found =>
    cases running
    exact tracks.waiting _ (List.mem_of_find?_eq_some found) _
  | _ => contradiction

/-- A step is a call of the leaf, or it leaves its tracker alone. -/
theorem Step.calls_or_same (step : Step a b) (tracks : a.Tracks l) :
    (∃ task t input rest, a.control = .running task t ∧ l.Begins t input rest) ∨
      b.world.cells.trackers.get? l.tracker = a.world.cells.trackers.get? l.tracker := by
  have hsame (cells : b.world.cells = a.world.cells) :
      b.world.cells.trackers.get? l.tracker = a.world.cells.trackers.get? l.tracker := by
    rw [cells]
  cases step with
  | @answer w w' task r next ans there =>
    by_cases hoffer : ∃ key s, r = .offer l.tracker key s
    · obtain ⟨key, s, heq⟩ := hoffer
      obtain ⟨input, rest, begins⟩ := (tracks.running _ _ rfl).1 key s heq
      exact .inl ⟨task, _, input, rest, rfl, begins⟩
    · exact .inr (World.tracker_answer? there fun key s heq => hoffer ⟨key, s, heq⟩)
  | suspend =>
    obtain ⟨limits, hworld⟩ := World.suspend_eq _ _ _ _
    exact .inr (hsame hworld.cells)
  | spawn => exact .inr (hsame (World.cells_spawn _ _ _ _))
  | done | panic => exact .inr (hsame (World.cells_finish _ _ _))
  | endless | turn | drive | stay => exact .inr rfl
  | resume found there =>
    have hrequest := tracks.requests _ (List.mem_of_find?_eq_some found)
    have htracker := World.tracker_answer? there hrequest
    exact .inr htracker
  | clock => exact .inr (hsame (World.same_wakeAll _ _).cells)

/-- What may be done from outside by whoever uses pipelines that share the leaf, and whether the tracker of
the leaf is reset then. -/
inductive SharedUse (l : TrackingLeaf) : Bool → Machine → Machine → Prop
  /-- A run of a pipeline is started. -/
  | start (w : World) (ctx : Context) {r : Runnable} (composed : r.Composed (.tracking l))
    (input : Data) (limit : Option LimitId) :
    SharedUse l false ⟨w, .idle⟩ ⟨(w.spawn r.name ctx.token (ctx.run r input limit)).2, .idle⟩
  /-- A program begins to drive the world that executes pipelines, or waits for their runs. -/
  | enter (w : World) {program : Task} (tracks : program.Tracks l) (outer : w.outer = none) :
    SharedUse l false ⟨w, .idle⟩
      ⟨{ w with outer := some w.tasks.size }.addTask "" none program, .idle⟩
  | leave (w : World) (outer : ∀ task, w.outer = some task → w.resume? task = none) :
    SharedUse l false ⟨w, .idle⟩ ⟨{ w with outer := none }, .idle⟩
  | reset (w : World) :
    SharedUse l true ⟨w, .idle⟩
      ⟨{ w with cells := { w.cells with
        trackers := w.cells.trackers.modify l.tracker fun _ => .empty } }, .idle⟩
  /-- Something else that leaves the tracker alone, such as a stop. -/
  | other {w w' : World} (steady : w.Steady w')
    (same : w'.cells.trackers.get? l.tracker = w.cells.trackers.get? l.tracker) :
    SharedUse l false ⟨w, .idle⟩ ⟨w', .idle⟩

namespace SharedUse

/-- Nobody runs then. -/
theorem idle (use : SharedUse l reset a b) : a.control = .idle ∧ b.control = .idle := by
  cases use <;> exact ⟨rfl, rfl⟩

/-- These are things that may be done from outside. -/
theorem touch (use : SharedUse l reset a b) : Touch a b := by
  cases use with
  | start w ctx composed input limit => exact .start w _ _ _
  | enter w tracks outer => exact .enter w _ outer
  | leave w outer => exact .leave w outer
  | reset w =>
    exact .change ⟨rfl, rfl, rfl, .refl _, rfl, fun _ => rfl, rfl, List.Subset.refl _⟩
  | other steady => exact .change steady

theorem tracks (use : SharedUse l reset a b) (tracks : a.Tracks l) : b.Tracks l := by
  have hnew {program : Task} (hprogram : program.Tracks l)
      (hsuspended : b.world.suspended = a.world.suspended ++ [a.world.begun program]) :
      b.Tracks l := by
    refine ⟨fun task t running => absurd (use.idle.2.symm.trans running) nofun, ?_, ?_⟩
    · rw [hsuspended]
      exact List.forall_mem_append.mpr
        ⟨tracks.requests, List.forall_mem_singleton.mpr (tracks_begun hprogram).1⟩
    · rw [hsuspended]
      exact List.forall_mem_append.mpr
        ⟨tracks.waiting, List.forall_mem_singleton.mpr (tracks_begun hprogram).2⟩
  cases use with
  | start w ctx composed input limit =>
    exact hnew (Context.tracks_run composed.tracks limit _) (World.spawn_keeps _ _ _ _).2.2
  | enter w hprogram => exact hnew hprogram (World.same_addTask _ _ _ _).suspended
  | leave | reset => exact ⟨nofun, tracks.requests, tracks.waiting⟩
  | other steady =>
    exact ⟨nofun, steady.suspended ▸ tracks.requests, steady.suspended ▸ tracks.waiting⟩

/-- The tracker is reset, or left alone. -/
theorem trackers (use : SharedUse l reset a b) :
    if reset then b.world.cells.trackers = a.world.cells.trackers.modify l.tracker fun _ => .empty
    else b.world.cells.trackers.get? l.tracker = a.world.cells.trackers.get? l.tracker := by
  cases use with
  | start w ctx composed input limit =>
    exact congrArg (fun cells => cells.trackers.get? l.tracker) (World.cells_spawn _ _ _ _)
  | enter w =>
    exact congrArg (fun cells => cells.trackers.get? l.tracker) (World.same_addTask _ _ _ _).cells
  | leave | reset => rfl
  | other _ same => exact same

end SharedUse

end Machine

namespace Trace

open Machine TrackingLeaf

variable {tr : Trace} {l : TrackingLeaf} {reset : Nat → Bool} {m k : Nat}
  {input input' output output' : State}

/-- A world is used by pipelines that share a leaf, with a tracker to which nothing has been offered at
first: at each moment it takes a step, or something is done to it from outside, by which the tracker may be
reset. -/
structure Shares (tr : Trace) (l : TrackingLeaf) (reset : Nat → Bool) : Prop where
  idle : (tr.machine 0).control = .idle
  nobody : (tr.machine 0).world.suspended = []
  fresh : l.Fresh (tr.machine 0).world
  moves : ∀ m, (tr.machine m).Step (tr.machine (m + 1)) ∧ reset m = false ∨
    SharedUse l (reset m) (tr.machine m) (tr.machine (m + 1)) ∨
    tr.machine (m + 1) = tr.machine m ∧ reset m = false

/-- At a moment a task calls the leaf with a state, and goes on with what the leaf puts out. -/
def CallsAt (tr : Trace) (l : TrackingLeaf) (m : Nat) (input output : State) : Prop :=
  ∃ task t rest, (tr.machine m).control = .running task t ∧ l.Begins t input rest ∧
    (tr.machine (m + 1)).control = .running task (rest (.ok (.one output))) ∧
    l.Calls (tr.machine m).world input output (tr.machine (m + 1)).world

/-- What happens to the tracker at a moment: a call, a reset or neither. -/
structure Happens (tr : Trace) (l : TrackingLeaf) (reset : Nat → Bool) (m : Nat) (a : Option Act) :
    Prop where
  call : ∀ input output, a = some (.call input output) ↔ tr.CallsAt l m input output
  reset : a = some .reset ↔ reset m = true

/-- There is no more than one call at a moment. -/
theorem CallsAt.unique (calls : tr.CallsAt l m input output) (calls' : tr.CallsAt l m input' output') :
    input = input' ∧ output = output' := by
  obtain ⟨task, t, rest, running, begins, -, call⟩ := calls
  obtain ⟨task', t', rest', running', begins', -, call'⟩ := calls'
  cases running.symm.trans running'
  obtain rfl := begins.input_eq begins'
  exact ⟨rfl, (calls_iff.mp call).2.trans (calls_iff.mp call').2.symm⟩

namespace Shares

/-- At no moment does a task offer a state to the tracker in another way than by a call. -/
theorem tracks (shares : tr.Shares l reset) (m : Nat) : (tr.machine m).Tracks l := by
  induction m with
  | zero =>
    have hnobody := shares.nobody
    refine ⟨fun task t running => ?_, fun s hs => ?_, fun s hs => ?_⟩
    · exact absurd (shares.idle.symm.trans running) nofun
    · exact absurd (hnobody ▸ hs) List.not_mem_nil
    · exact absurd (hnobody ▸ hs) List.not_mem_nil
  | succ m ih =>
    rcases shares.moves m with ⟨step, -⟩ | use | ⟨still, -⟩
    · exact step.tracks ih
    · exact use.tracks ih
    · exact still ▸ ih

/-- A task that comes to a call makes it, unless the world stands still. -/
theorem callsAt {task : TaskId} {t : Task} {rest : Outcome → Task} (shares : tr.Shares l reset)
    (running : (tr.machine m).control = .running task t) (begins : l.Begins t input rest)
    (moved : tr.machine (m + 1) ≠ tr.machine m) : ∃ output, tr.CallsAt l m input output := by
  rcases shares.moves m with ⟨step, -⟩ | use | ⟨still, -⟩
  · obtain ⟨output, running', call⟩ := step.calls running begins
    exact ⟨output, task, t, rest, running, begins, running', call⟩
  · exact absurd (use.idle.1.symm.trans running) nofun
  · exact absurd still moved

/-- At each moment the leaf is called, or its tracker is reset, or it stays as it is. -/
theorem calls_or_trackers (shares : tr.Shares l reset) (m : Nat) :
    (∃ input output, tr.CallsAt l m input output) ∧ reset m = false ∨
      if reset m then (tr.machine (m + 1)).world.cells.trackers =
        (tr.machine m).world.cells.trackers.modify l.tracker fun _ => .empty
      else (tr.machine (m + 1)).world.cells.trackers.get? l.tracker =
        (tr.machine m).world.cells.trackers.get? l.tracker := by
  rcases shares.moves m with ⟨step, hreset⟩ | use | ⟨still, hreset⟩
  · rcases step.calls_or_same (shares.tracks m) with ⟨task, t, input, rest, running, begins⟩ | same
    · obtain ⟨output, calls⟩ := shares.callsAt running begins (step.ne_of_running running)
      exact .inl ⟨⟨input, output, calls⟩, hreset⟩
    · exact .inr (by rwa [hreset])
  · exact .inr use.trackers
  · exact .inr (by rw [hreset, still]; rfl)

/-- No task calls the leaf when its tracker is reset. -/
theorem not_callsAt (shares : tr.Shares l reset) (hreset : reset m = true) :
    ¬ tr.CallsAt l m input output := by
  rintro ⟨task, t, rest, running, -⟩
  rcases shares.moves m with ⟨-, hnot⟩ | use | ⟨-, hnot⟩
  · exact Bool.false_ne_true (hnot.symm.trans hreset)
  · exact absurd (use.idle.1.symm.trans running) nofun
  · exact Bool.false_ne_true (hnot.symm.trans hreset)

/-- So at each moment one thing happens to the tracker at most, -/
theorem exists_happens (shares : tr.Shares l reset) (m : Nat) : ∃ a, tr.Happens l reset m a := by
  -- Calls are looked for first: there is none at a reset, but a moment without a reset may have one.
  by_cases hcalls : ∃ input output, tr.CallsAt l m input output
  · obtain ⟨input, output, calls⟩ := hcalls
    refine ⟨some (.call input output), fun input' output' => ⟨fun heq => ?_, fun calls' => ?_⟩, ?_⟩
    · cases heq
      exact calls
    · obtain ⟨rfl, rfl⟩ := calls.unique calls'
      rfl
    · exact ⟨nofun, fun hreset => absurd calls (shares.not_callsAt hreset)⟩
  · refine ⟨if reset m then some .reset else none,
      fun input output => ⟨fun heq => ?_, fun calls => ?_⟩, ?_⟩
    · split at heq <;> cases heq
    · exact absurd ⟨input, output, calls⟩ hcalls
    · cases reset m <;> simp

/-- and these things follow each other in the order of the moments. -/
theorem interleaves (shares : tr.Shares l reset) {act : Nat → Option Act}
    (happens : ∀ m, tr.Happens l reset m (act m)) (k : Nat) :
    l.Interleaves (tr.machine 0).world ((List.range k).filterMap act) (tr.machine k).world := by
  induction k with
  | zero => exact .start
  | succ k ih =>
    rw [List.range_succ, List.filterMap_append]
    have htrackers := shares.calls_or_trackers k
    obtain ⟨hcall, hreset⟩ := happens k
    cases h : act k with
    | none =>
      have hfalse : reset k = false := by
        rw [Bool.eq_false_iff, Ne, ← hreset, h]
        nofun
      rw [List.filterMap_cons_none h, List.filterMap_nil, List.append_nil]
      rcases htrackers with ⟨⟨input, output, calls⟩, -⟩ | same
      · exact absurd (h.symm.trans ((hcall input output).mpr calls)) nofun
      · rw [hfalse] at same
        exact ih.other same
    | some a =>
      rw [List.filterMap_cons_some h, List.filterMap_nil]
      cases a with
      | call input output =>
        obtain ⟨task, t, rest, -, -, -, call⟩ := (hcall input output).mp h
        exact ih.call call
      | reset =>
        have htrue : reset k = true := hreset.mp h
        rcases htrackers with ⟨-, hfalse⟩ | cleared
        · exact absurd (hfalse.symm.trans htrue) Bool.false_ne_true
        · rw [htrue] at cleared
          exact ih.reset cleared

end Shares

end Trace

/-- A tracking leaf is safe to share: whatever order calls and resets come in, the tracker says of the
calls since the last reset which states were the best, and so does what each of these calls puts out of
those before it. The calls that the concurrent tasks of a world make come in such an order, whichever
pipelines they run and whatever turns they have. -/
theorem tracking_order_safe (l : TrackingLeaf) :
    (∀ w input, ∃ output w', l.Calls w input output w') ∧
    (∀ w acts w', l.Fresh w → l.Interleaves w acts w' →
      ∃ t, w'.cells.trackers.get? l.tracker = some t ∧
        l.OrderSafe (TrackingLeaf.sinceReset acts) t ∧
        ∀ v acts' v', l.Fresh v → l.Interleaves v acts' v' →
          (TrackingLeaf.inputs acts').Perm (TrackingLeaf.inputs acts) →
          (v'.cells.trackers.get? l.tracker).bind Tracker.key? = t.key?) ∧
    ∀ (tr : Trace) reset, tr.Shares l reset → ∃ act : Nat → Option TrackingLeaf.Act,
      (∀ m, tr.Happens l reset m (act m)) ∧
      (∀ m task t input rest, (tr.machine m).control = .running task t → l.Begins t input rest →
        tr.machine (m + 1) ≠ tr.machine m → ∃ output, act m = some (.call input output)) ∧
      ∀ k, ∃ t, (tr.history.world k).cells.trackers.get? l.tracker = some t ∧
        l.OrderSafe (TrackingLeaf.sinceReset ((List.range k).filterMap act)) t := by
  refine ⟨l.exists_calls, fun w acts w' fresh interleaves => ?_, fun tr reset shares => ?_⟩
  · obtain ⟨ht, emits⟩ := interleaves.tracker fresh
    refine ⟨_, ht, emits.orderSafe, fun v acts' v' fresh' interleaves' hperm => ?_⟩
    rw [(interleaves'.tracker fresh').1]
    exact Tracker.key?_ofOffers_perm hperm
  · obtain ⟨act, happens⟩ := Classical.skolem.mp shares.exists_happens
    refine ⟨act, happens, fun m task t input rest running begins moved => ?_, fun k => ?_⟩
    · obtain ⟨output, calls⟩ := shares.callsAt running begins moved
      exact ⟨output, ((happens m).call input output).mpr calls⟩
    · obtain ⟨ht, emits⟩ := (shares.interleaves happens k).tracker shares.fresh
      exact ⟨_, ht, emits.orderSafe⟩

/-! ### A run with a reset -/

/-- A session with one tracker. -/
def trackingWorld : World :=
  { (Session.ofConfig .default).world with cells := ⟨.empty, Table.empty.push .empty⟩ }

theorem sound_trackingWorld : Machine.Sound ⟨trackingWorld, .idle⟩ :=
  Machine.sound_of_no_tasks rfl rfl

/-- The tracker is reset. -/
def Machine.resetTracker (l : TrackingLeaf) (a : Machine) : Machine :=
  ⟨{ a.world with cells := { a.world.cells with
    trackers := a.world.cells.trackers.modify l.tracker fun _ => .empty } }, .idle⟩

/-- The session with a run of a pipeline that has been started. -/
def Machine.trackingRun (r : Runnable) (input : Data) : Machine :=
  ⟨(trackingWorld.spawn r.name 0 (Context.run ⟨0, .default, 0⟩ r input none)).2, .idle⟩

theorem Machine.sharedUse_resetTracker {l : TrackingLeaf} {a : Machine} (idle : a.control = .idle) :
    SharedUse l true a (a.resetTracker l) := by
  obtain ⟨w, control⟩ := a
  obtain rfl : control = .idle := idle
  exact .reset w

namespace Trace

/-- The run, with a reset of the tracker after some steps. -/
def resetRun (l : TrackingLeaf) (r : Runnable) (input : Data) (n : Nat)
    (idle : (Machine.next^[n] (.trackingRun r input)).control = .idle) : Trace :=
  .cons ⟨trackingWorld, .idle⟩
    (.interrupted (.trackingRun r input)
      ((Machine.next^[n] (.trackingRun r input)).resetTracker l) n
      (sound_trackingWorld.spawn _ _ _) (.inr (Machine.sharedUse_resetTracker idle).touch))
    (.inr (.start trackingWorld _ _ _)) sound_trackingWorld

theorem shares_resetRun {l : TrackingLeaf} {r : Runnable} {input : Data} {n : Nat}
    {idle : (Machine.next^[n] (.trackingRun r input)).control = .idle} (first : l.tracker = 0)
    (composed : r.Composed (.tracking l)) :
    (resetRun l r input n idle).Shares l (fun m => m = n + 1) where
  idle := rfl
  nobody := rfl
  fresh := by
    rw [TrackingLeaf.Fresh, first]
    rfl
  moves m := by
    cases m with
    | zero => exact .inr (.inl (.start trackingWorld ⟨0, .default, 0⟩ composed input none))
    | succ m =>
      by_cases h : m = n
      · subst h
        rw [decide_eq_true rfl]
        have hbefore : (resetRun l r input m idle).machine (m + 1) = _ := interruptedMachine_at
        have hafter : (resetRun l r input m idle).machine (m + 1 + 1) = _ := interruptedMachine_after
        rw [hbefore, hafter]
        exact .inr (.inl (Machine.sharedUse_resetTracker idle))
      · have hreset : decide (m + 1 = n + 1) = false :=
          decide_eq_false fun heq => h (Nat.succ.inj heq)
        have hnext : (resetRun l r input n idle).machine (m + 1 + 1) =
            ((resetRun l r input n idle).machine (m + 1)).next := interruptedMachine_succ h
        rw [hnext]
        rcases Machine.step_next ((resetRun l r input n idle).sound_at (m + 1)) with
          step | ⟨-, still⟩
        · exact .inl ⟨step, hreset⟩
        · exact .inr (.inr ⟨still, hreset⟩)

end Trace

/-- A leaf that puts out the best state. -/
def sharedLeaf : TrackingLeaf :=
  ⟨State.minEnergy, true, 0⟩

/-- Children that share it. -/
def sharedMap : Map :=
  .ofWorker sharedLeaf.runnable

/-- The states with which they call it: a negative zero, and a positive one between two infinities. -/
def sharedStates : List State :=
  [⟨0x8000000000000000⟩, .infinity, .zero, .infinity].map State.empty.withEnergy

/-- The tracker is reset once the first child is over. -/
def sharedTrace : Trace :=
  .resetRun sharedLeaf sharedMap.runnable (.many ⟨sharedStates, []⟩) 12 (by with_unfolding_all rfl)

/-- The negative zero is forgotten then, and the best state is the positive one of the third child. -/
theorem tracking_order_safe_of_sharedTrace :
    ∃ act t, (∀ m, sharedTrace.Happens sharedLeaf (fun m => m = 13) m (act m)) ∧
      (∃ output, act 10 = some (.call sharedStates[0] output)) ∧ act 13 = some .reset ∧
      (∃ output, act 26 = some (.call sharedStates[3] output)) ∧
      (sharedTrace.history.world 30).cells.trackers.get? 0 = some t ∧ t.observed = 3 ∧
      t.key? = some .zero ∧
      ∀ call ∈ TrackingLeaf.sinceReset ((List.range 30).filterMap act),
        Double.zero.rank ≤ call.1.minEnergy.rank := by
  have hleaf : sharedLeaf.runnable.Composed (.tracking sharedLeaf) := .leaf (.inl rfl)
  obtain ⟨act, happens, hcalls, hsafe⟩ := (tracking_order_safe sharedLeaf).2.2 sharedTrace _
    (Trace.shares_resetRun rfl (.map hleaf))
  obtain ⟨t, ht, safe⟩ := hsafe 30
  have hobserved : ((sharedTrace.history.world 30).cells.trackers.get? 0).map Tracker.observed =
      some 3 := by
    with_unfolding_all rfl
  have hkey : ((sharedTrace.history.world 30).cells.trackers.get? 0).bind Tracker.key? =
      some .zero := by
    with_unfolding_all rfl
  have ht : (sharedTrace.history.world 30).cells.trackers.get? 0 = some t := ht
  rw [ht] at hobserved hkey
  have hcall (m : Nat) (s : State) (task : TaskId)
      (running : (sharedTrace.machine m).control = .running task
        ((sharedLeaf.runnable.next ⟨task + 1, .default, 0⟩ (.one s)).andThen fun o =>
          .ask (.record 0 "TrackMin" (Outcome.isError o)) fun _ => .done o))
      (moved : ((sharedTrace.machine (m + 1)).world.cells.trackers.get? 0).map Tracker.observed ≠
        ((sharedTrace.machine m).world.cells.trackers.get? 0).map Tracker.observed) :
      ∃ output, act m = some (.call s output) := by
    refine hcalls m task _ s _ running ⟨_, rfl⟩ fun still => moved ?_
    rw [still]
  refine ⟨act, t, happens, ?_, (happens 13).reset.mpr rfl, ?_, ht, Option.some.inj hobserved, hkey,
    ((safe.least _).mp hkey).2⟩
  · exact hcall 10 _ 1 (by with_unfolding_all rfl) (by decide +kernel)
  · exact hcall 26 _ 4 (by with_unfolding_all rfl) (by decide +kernel)

end Orchestra
