import Orchestra.Proofs.Caller.Episodes
import Orchestra.Proofs.Children.Runs
import Orchestra.Proofs.Panic.Returning
import Orchestra.Proofs.Permits.Holders
import Orchestra.Proofs.World.Alone

/-!
# Panics are contained

A panic ends the task in which it happens, and nothing else. Whatever that task was about is cut short:
the part that panics, and each part around it that runs in the same task, is never over, so what would
follow it does not come to pass, and that is where a call is recorded. To everybody else the task has
failed, under the name of the runnable whose run it was.
-/

namespace Orchestra

namespace World

variable {w w' : World} {task other : TaskId} {name : String}

/-- The name of a task. -/
def name? (w : World) (task : TaskId) : Option String :=
  (w.tasks.get? task).map TaskState.name

theorem name?_congr (h : w'.tasks = w.tasks) : w'.name? task = w.name? task := by
  rw [name?, name?, h]

theorem name?_answer? {deadline : Option Nat} {r : Request} {a : r.Answer}
    (there : w.answer? task deadline r = some (a, w')) : w'.name? other = w.name? other := by
  cases r with
  | acquire limit token =>
    rcases answer?_acquire there with ⟨-, -, rfl⟩ | ⟨-, -, rfl⟩ | ⟨-, l, l', -, -, rfl⟩
    · exact name?_congr (same_changeLimit w limit _).tasks
    · rfl
    · cases a with
      | false => rfl
      | true =>
        simp only [name?, if_true, Table.get?_modify]
        split
        · cases w.tasks.get? other <;> rfl
        · rfl
  | _ => exact name?_congr (answer?_keeps there fun _ => rfl).1

theorem name?_finish (w : World) (task other : TaskId) (ending : Ending) :
    (w.finish task ending).name? other = w.name? other := by
  cases ht : w.tasks.get? task with
  | none => rw [finish, ht]
  | some t =>
    rw [finish_eq ht]
    refine (name?_congr (same_wakeAll _ _).tasks).trans ?_
    refine Eq.trans ?_ (name?_congr (same_releaseAll w t.held).tasks)
    simp only [name?, markEnded, Table.get?_modify]
    split
    · cases (w.releaseAll t.held).tasks.get? other <;> rfl
    · rfl

theorem name?_addTask (h : w.name? other = some name) (added : String) (token : Option TokenId)
    (program : Task) : (w.addTask added token program).name? other = some name := by
  have hne : other ≠ w.tasks.size := by
    rintro rfl
    rw [name?, (w.tasks.get?_eq_none_iff _).mpr (Nat.le_refl _)] at h
    contradiction
  rw [name?, (same_addTask w added token program).tasks, pushTask, Table.get?_push, if_neg hne]
  exact h

theorem name?_spawn (h : w.name? other = some name) (started : String) (parent : TokenId)
    (body : TokenId → Task) : (w.spawn started parent body).2.name? other = some name :=
  name?_addTask (w := { w with tokens := w.tokens.addBelow parent, spawned := true }) h started _ _

/-- A task that ends, does so under its name. -/
theorem ended?_finish_of_name (h : w.name? task = some name) (ending : Ending) :
    ∃ place, (w.finish task ending).ended? task = some (place, ending.outcome name) := by
  obtain ⟨t, ht, rfl⟩ := Option.map_eq_some_iff.mp h
  have ht' : (w.releaseAll t.held).tasks.get? task = some t := (same_releaseAll w t.held).tasks ▸ ht
  refine ⟨(w.releaseAll t.held).order, ?_⟩
  rw [finish_eq ht, (same_wakeAll _ _).steady.ended, ended?_markEnded _ _ ht', if_pos rfl]

/-- From one world to another a task may have ended, given permits back and woken others; whatever else
tasks have or share is the same. -/
structure Spares (w : World) (task : TaskId) (w' : World) : Prop where
  others : ∀ other, other ≠ task → w'.tasks.get? other = w.tasks.get? other
  suspended : w'.suspended = w.suspended
  stopped : ∀ token, w'.isStopped token = w.isStopped token
  profiles : w'.profiles = w.profiles
  cells : w'.cells = w.cells
  clock : w'.now = w.now

/-- The end of a task spares the others. -/
theorem spares_finish (w : World) (task : TaskId) (ending : Ending) :
    w.Spares task (w.finish task ending) := by
  cases ht : w.tasks.get? task with
  | none =>
    rw [finish, ht]
    exact ⟨fun _ _ => rfl, rfl, fun _ => rfl, rfl, rfl, rfl⟩
  | some t =>
    obtain ⟨hclock, -, hsuspended⟩ := finish_keeps w task ending
    refine ⟨fun other hne => ?_, hsuspended, isStopped_finish w task ending, ?_, ?_, hclock⟩ <;>
      rw [finish_eq ht]
    · rw [(same_wakeAll _ _).tasks, markEnded, Table.get?_modify, if_neg (Ne.symm hne),
        (same_releaseAll w t.held).tasks]
    · exact ((blind_wakeAll _).profiles _).trans ((blind_releaseAll t.held).profiles w)
    · exact (same_wakeAll _ _).cells.trans (same_releaseAll w t.held).cells

end World

namespace Machine

variable {a b : Machine} {task : TaskId} {name : String}

/-- A step renames nobody. -/
theorem Step.name? (step : Step a b) (h : a.world.name? task = some name) :
    b.world.name? task = some name := by
  cases step with
  | answer there => exact (World.name?_answer? there).trans h
  | resume found there => exact (World.name?_answer? there).trans h
  | suspend =>
    obtain ⟨limits, hsame⟩ := World.suspend_eq _ _ _ _
    exact (World.name?_congr hsame.tasks).trans h
  | spawn => exact World.name?_spawn h _ _ _
  | done | panic => exact (World.name?_finish _ _ _ _).trans h
  | endless | turn | drive | stay => exact h
  | clock => exact (World.name?_congr (World.same_wakeAll _ _).tasks).trans h

end Machine

namespace Trace

variable {tr : Trace} {i j k m : Nat} {task : TaskId} {name : String} {r : Runnable} {c : Child}
  {p : Payload}

/-- Whatever is done from outside, nobody is renamed. -/
def KeepsNames (tr : Trace) : Prop :=
  ∀ i task name, (tr.machine i).Touch (tr.machine (i + 1)) →
    (tr.history.world i).name? task = some name → (tr.history.world (i + 1)).name? task = some name

theorem name?_of_le (named : tr.KeepsNames) (hij : i ≤ j)
    (h : (tr.history.world i).name? task = some name) :
    (tr.history.world j).name? task = some name := by
  induction hij with
  | refl => exact h
  | @step j _ ih =>
    rcases tr.move j with (step | touch) | still
    · exact step.name? ih
    · exact named j task name touch ih
    · rw [show tr.history.world (j + 1) = tr.history.world j from
        congrArg Machine.world (still (j + 1) (Nat.le_succ j))]
      exact ih

/-- A run has the name of its runnable, from its start on. -/
theorem StartsRun.name? (starts : tr.StartsRun m r c) (named : tr.KeepsNames) (hmi : m < i) :
    (tr.history.world i).name? c.id = some r.name := by
  refine name?_of_le named hmi ?_
  obtain ⟨name, parent, body, ⟨ctx, input, limit, rfl, -, -⟩, hspawn⟩ := starts
  obtain rfl := congrArg Prod.fst hspawn
  have hworld : ((tr.machine m).world.spawn r.name parent body).2 = tr.history.world (m + 1) :=
    congrArg Prod.snd hspawn
  have htasks := (World.same_addTask { (tr.machine m).world with
    tokens := (tr.machine m).world.tokens.addBelow parent, spawned := true } r.name
    (some (tr.machine m).world.tokens.size) (body (tr.machine m).world.tokens.size)).tasks
  rw [← hworld, World.name?, World.spawn, htasks, World.pushTask, Table.get?_push, if_pos rfl]
  rfl

/-- It runs after its start only. -/
theorem StartsRun.lt_of_running (starts : tr.StartsRun m r c) {t : Task}
    (running : (tr.machine k).control = .running c.id t) : m < k := by
  refine Nat.lt_of_not_le fun hkm => ?_
  have hlt := ((tr.sound_at k).runs _ t running).1
  rw [starts.id_eq] at hlt
  exact Nat.not_lt_of_le (tr.history.later_of_le hkm).size hlt

section Panic

variable (running : (tr.machine k).control = .running task (.panic p))
  (moved : tr.machine (k + 1) ≠ tr.machine k)

include running moved

/-- A task that panics ends with the failure under its name. -/
theorem ended?_of_panic (named : (tr.history.world k).name? task = some name) :
    ∃ place, ∀ j, k < j →
      tr.history.ended? j task = some (place, .error (.panicked name p.text)) := by
  obtain ⟨place, hended⟩ := World.ended?_finish_of_name named (.panicked p)
  have hworld : tr.history.world (k + 1) = (tr.history.world k).finish task (.panicked p) :=
    congrArg Machine.world (machine_of_panic running moved)
  rw [← hworld] at hended
  exact ⟨place, fun j hkj => (tr.history.later_of_le hkj).ended task _ hended⟩

/-- This step spares the others. -/
theorem spares_of_panic : (tr.history.world k).Spares task (tr.history.world (k + 1)) := by
  have hworld : tr.history.world (k + 1) = (tr.history.world k).finish task (.panicked p) :=
    congrArg Machine.world (machine_of_panic running moved)
  rw [hworld]
  exact World.spares_finish _ _ _

/-- A task that has panicked has no program any more, -/
theorem not_program_of_panic {t : Task} (hkj : k < j) : ¬ (tr.machine j).Program task t :=
  fun program => moved (stands_of_over running nofun nofun hkj program (k + 1) (Nat.le_succ k))

/-- so that it records nothing. -/
theorem profiles_of_panic (hkj : k ≤ j) (acts : (tr.machine j).actor? = some task) :
    (tr.history.world (j + 1)).profiles = (tr.history.world j).profiles := by
  rcases Nat.eq_or_lt_of_le hkj with rfl | hlt
  · exact (spares_of_panic running moved).profiles
  have hgone {t : Task} : ¬ (tr.machine j).Program task t := not_program_of_panic running moved hlt
  rcases tr.move j with (step | touch) | still
  · show (tr.machine (j + 1)).world.profiles = (tr.machine j).world.profiles
    generalize tr.machine j = a at step acts hgone ⊢
    generalize tr.machine (j + 1) = b at step ⊢
    cases step with
    | @resume w _ _ s _ found =>
      cases acts
      obtain rfl : s.id = _ := by simpa using List.find?_some found
      exact absurd (.waiting (List.mem_of_find?_eq_some found)) hgone
    | stay => rfl
    | turn | drive | clock => contradiction
    | answer | suspend | spawn | done | panic | endless =>
      cases acts
      exact absurd (.running rfl) hgone
  · rw [touch.actor?_eq] at acts
    contradiction
  · exact congrArg (fun a => a.world.profiles) (still (j + 1) (Nat.le_succ j))

end Panic

/-- A task has panicked at a moment, and this is contained. -/
structure Contains (tr : Trace) (name : String) (task : TaskId) (k : Nat) (p : Payload) : Prop where
  /-- It has failed under its name, with the text of the panic, -/
  failed : ∃ place, ∀ j, k < j →
    tr.history.ended? j task = some (place, .error (.panicked name p.text))
  /-- which acknowledges no stop. -/
  genuine : (RunError.panicked name p.text).isCancelled = false
  /-- Nobody else is affected by the step. -/
  spared : (tr.history.world k).Spares task (tr.history.world (k + 1))
  /-- From then on everything goes on as in the trace in which its program has returned the failure. -/
  ordinary : ∃ tr' : Trace,
    tr'.machine 0 = ⟨tr.history.world k, .running task (.done (.error (.panicked name p.text)))⟩ ∧
    ∀ j, tr'.machine (j + 1) = (tr.machine (k + 1 + j)).returning task
  /-- No part of its program that it was about is ever over, so that none is recorded, -/
  unfinished : ∀ e : tr.Episode, e.task = task → e.On k → ∀ j o, ¬ e.Left j (.done o)
  /-- and it records nothing else. -/
  silent : ∀ j, k ≤ j → (tr.machine j).actor? = some task →
    (tr.history.world (j + 1)).profiles = (tr.history.world j).profiles

/-- A panic of a task is contained. -/
theorem contains_of_panic (running : (tr.machine k).control = .running task (.panic p))
    (moved : tr.machine (k + 1) ≠ tr.machine k)
    (named : (tr.history.world k).name? task = some name) : tr.Contains name task k p where
  failed := ended?_of_panic running moved named
  genuine := rfl
  spared := spares_of_panic running moved
  ordinary := by
    obtain ⟨t, ht, rfl⟩ := Option.map_eq_some_iff.mp named
    exact exists_returning running moved ht
  unfinished e htask on j o left := by
    subst htask
    exact not_program_of_panic running moved (on.2 j o left) (.running left.running)
  silent _ := profiles_of_panic running moved

end Trace

/-- For a pipeline of the library's composites, over leaves of any kind that start nothing but runs, that
has been started as a run, in every trace in which nobody is renamed from outside: each task that has been
started below the run is the run of a runnable. Whenever a part of such a run, or of the run itself, comes
to a panic, the part is not over, and the panic is contained in the task of the run, which has failed
under the name of its runnable. -/
theorem Runnable.Composed.contains_panics {r : Runnable} (composed : r.Composed .running) {tr : Trace}
    (named : tr.KeepsNames) {m : Nat} {root : Child} (starts : tr.StartsRun m r root) :
    (∀ i c, tr.Below m root.id i c → ∃ r', tr.StartsRun i r' c) ∧
    ∀ i r' c, tr.StartsRun i r' c → ∀ (e : tr.Episode) k p, e.task = c.id → e.Left k (.panic p) →
      tr.machine (k + 1) ≠ tr.machine k → e.On k ∧ tr.Contains r'.name c.id k p := by
  refine ⟨fun i c below => starts.below composed.startsRuns below, ?_⟩
  intro i r' c starts' e k p htask left moved
  have running : (tr.machine k).control = .running c.id (.panic p) := htask ▸ left.running
  refine ⟨left.on_of_panic, Trace.contains_of_panic running moved ?_⟩
  exact starts'.name? named (starts'.lt_of_running running)

/-- A sequence whose second component panics. -/
def fragile : Branch :=
  ⟨[Leaf.identity, Leaf.explode (.slice "static boom")], some "Fragile"⟩

/-- It runs beside a delay, under best effort. -/
def sturdy : Branches :=
  ⟨[fragile.runnable, Leaf.sleep (.ofMillis 10)], .collect, some .bestEffort, none, false⟩

theorem composed_sturdy : sturdy.runnable.Composed .running := by
  have hfragile : fragile.runnable.Composed .running := by
    refine .branch (List.forall_mem_cons.mpr ⟨.leaf (.inl .identity), ?_⟩)
    exact List.forall_mem_singleton.mpr (.leaf (.inr fun _ _ => trivial))
  refine .branches (List.forall_mem_cons.mpr ⟨hfragile, ?_⟩) trivial
  exact List.forall_mem_singleton.mpr (.leaf (.inl (.sleep (.ofMillis 10))))

namespace Trace

/-- A world that is left to itself renames nobody, -/
theorem keepsNames_alone (a : Machine) (sound : a.Sound) : (alone a sound).KeepsNames := by
  intro i task name _ h
  have hnext : (alone a sound).machine (i + 1) = ((alone a sound).machine i).next :=
    Function.iterate_succ_apply' Machine.next i a
  show ((alone a sound).machine (i + 1)).world.name? task = some name
  rw [hnext]
  rcases Machine.step_next ((alone a sound).sound_at i) with step | ⟨-, still⟩
  · exact step.name? h
  · rw [still]
    exact h

/-- A run in a session of its own, from its start on. -/
def ofRun (r : Runnable) (input : Data) : Trace :=
  let w := (Session.ofConfig .default).world
  let body := Context.run ⟨0, .default, 0⟩ r input none
  have sound : Machine.Sound ⟨w, .idle⟩ := Machine.sound_of_no_tasks rfl rfl
  .cons ⟨w, .idle⟩ (.alone ⟨(w.spawn r.name 0 body).2, .idle⟩ (sound.spawn _ _ _))
    (.inr (.start w r.name 0 body)) sound

theorem startsRun_ofRun (r : Runnable) (input : Data) :
    (ofRun r input).StartsRun 0 r ⟨0, 1, r.name⟩ :=
  ⟨_, _, _, ⟨⟨0, .default, 0⟩, input, none, rfl, rfl, rfl⟩, rfl⟩

/-- nor does the start of a run. -/
theorem keepsNames_ofRun (r : Runnable) (input : Data) : (ofRun r input).KeepsNames := by
  intro i task name touch h
  cases i with
  | zero => exact absurd h nofun
  | succ i => exact keepsNames_alone _ ((ofRun r input).sound_at 1) i task name touch h

end Trace

/-- The branches in a session of their own. -/
def sturdyTrace : Trace :=
  .ofRun sturdy.runnable (.one .empty)

/-- The execution of the sequence. -/
def fragileEpisode : sturdyTrace.Episode where
  task := 1
  first := 8
  part := fragile.runnable.next ⟨2, .default, 0⟩ (.one .empty)
  rest o := .ask (.record 0 "Fragile" (Outcome.isError o)) fun _ => .done o
  begins := by with_unfolding_all rfl

/-- The sequence fails under its name, with the text of the panic, and is not recorded. The branches
have the output of the delay, and a marker for the failure. -/
theorem contains_panics_of_sturdy :
    let tr := sturdyTrace
    (tr.machine 11).control = .running 1 (.panic (.slice "static boom")) ∧
    (∃ r, tr.StartsRun 3 r ⟨1, 2, "Fragile"⟩) ∧
    tr.Contains "Fragile" 1 11 (.slice "static boom") ∧
    (∀ j o, ¬ fragileEpisode.Left j (.done o)) ∧
    ∃ place, tr.history.ended? 28 0 = some (place, .ok (.many ⟨[.empty],
      [⟨0, "Fragile", "runnable Fragile panicked: static boom"⟩]⟩)) := by
  intro tr
  have below : tr.Below 0 0 3 ⟨1, 2, "Fragile"⟩ :=
    .child (Nat.zero_le 3) ⟨_, _, _, _, by with_unfolding_all rfl, by with_unfolding_all rfl⟩
  have starts' : tr.StartsRun 3 fragile.runnable ⟨1, 2, "Fragile"⟩ :=
    ⟨_, _, _, ⟨⟨1, .default, 0⟩, .one .empty, none, rfl, rfl, rfl⟩, by with_unfolding_all rfl⟩
  have running : (tr.machine 11).control = .running 1 (.panic (.slice "static boom")) := by
    with_unfolding_all rfl
  have moved : tr.machine 12 ≠ tr.machine 11 := fun heq => by
    have hidle : (tr.machine 12).control = .idle := by with_unfolding_all rfl
    rw [heq, running] at hidle
    contradiction
  have on : fragileEpisode.On 11 := by
    refine ⟨by decide, fun k o left => Nat.lt_of_not_le fun hle => ?_⟩
    have hrecords : (tr.machine k).records "Fragile" = true := by
      rw [Machine.records, left.running]
      rfl
    have hnone : ∀ k ≤ 11, (tr.machine k).records "Fragile" = false := by decide +kernel
    rw [hnone k hle] at hrecords
    contradiction
  obtain ⟨hruns, hcontains⟩ := composed_sturdy.contains_panics
    (Trace.keepsNames_ofRun sturdy.runnable (.one .empty)) (Trace.startsRun_ofRun _ _)
  let e : tr.Episode := ⟨1, 11, .panic (.slice "static boom"), .done, running⟩
  obtain ⟨-, contains⟩ := hcontains 3 _ _ starts' e 11 _ rfl .begins moved
  refine ⟨running, hruns 3 _ below, contains, contains.unfinished _ rfl on, ?_⟩
  exact ⟨_, by with_unfolding_all rfl⟩

end Orchestra
