import Orchestra.Proofs.World.Running

/-!
# The history of a running world

The moves of a world make a history, in which each task that ends has run from its first request to
its outcome. So what is proved of all runs in all histories holds of every task of every world that
is run, whatever the other tasks do and whatever is done from outside.
-/

namespace Orchestra

open Relation

namespace Machine

variable {a b : Machine}

/-- A move leaves a wait as it is, or the task whose turn it is goes on with the answer. -/
theorem Move.waits (move : Move a b) (sound : Sound a) {s : Suspended}
    (hs : s ∈ a.world.suspended) :
    s ∈ b.world.suspended ∨ ∃ answer w,
      a.world.answer? s.id s.deadline s.request = some (answer, w) ∧ w.Later b.world ∧
        b.world.tasks = w.tasks ∧ b.world.now = a.world.now ∧
        b.control = .running s.id (s.next answer) := by
  rcases move with step | touch
  · cases step with
    | answer there => exact .inl ((World.steady_answer? there).suspended ▸ hs)
    | suspend =>
      obtain ⟨limits, hsame⟩ := World.suspend_eq _ _ _ _
      exact .inl (hsame.suspended ▸ List.mem_append_left _ hs)
    | spawn => exact .inl ((World.spawn_keeps _ _ _ _).2.2 ▸ List.mem_append_left _ hs)
    | done | panic => exact .inl ((World.finish_keeps _ _ _).2.2.symm ▸ hs)
    | endless | turn | drive | stay => exact .inl hs
    | clock =>
      exact .inl ((World.suspended_moveTo _ _).symm ▸ hs)
    | @resume w w' task s' answer found there =>
      have hid : s'.id = task := by simpa using List.find?_some found
      by_cases hsame : s.id = task
      · have hfound := sound.found hs
        rw [hsame] at hfound
        obtain rfl : s' = s := Option.some.inj (found.symm.trans hfound)
        subst hsame
        refine .inr ⟨answer, w', there, ?_, rfl, (World.steady_answer? there).clock, rfl⟩
        exact World.later_of_tasks (Nat.le_refl _) (Nat.le_refl _) (.refl _) fun _ => rfl
      · refine .inl (List.mem_filter.mpr ⟨?_, by simpa using hsame⟩)
        rw [(World.steady_answer? there).suspended]
        exact hs
  · cases touch with
    | start => exact .inl ((World.spawn_keeps _ _ _ _).2.2 ▸ List.mem_append_left _ hs)
    | enter => exact .inl ((World.same_addTask _ _ _ _).suspended ▸ List.mem_append_left _ hs)
    | leave => exact .inl hs
    | change steady => exact .inl (steady.suspended ▸ hs)

/-- Time passes only when no child has ended that is waited for, and up to the next timer. -/
theorem Move.patient (move : Move a b) (sound : Sound a) {s : Suspended}
    (hs : s ∈ a.world.suspended) (hlt : a.world.now < b.world.now) :
    a.world.childEnded s.request = false ∧ ∀ due, s.deadline = some due → b.world.now ≤ due := by
  have hno {n : Nat} (heq : n = a.world.now) (hlt : a.world.now < n) : False := by
    rw [heq] at hlt
    exact Nat.lt_irrefl _ hlt
  rcases move with step | touch
  · cases step with
    | answer there | resume found there => exact (hno (World.steady_answer? there).clock hlt).elim
    | suspend =>
      obtain ⟨limits, hsame⟩ := World.suspend_eq _ _ _ _
      exact (hno hsame.clock hlt).elim
    | spawn => exact (hno (World.spawn_keeps _ _ _ _).1 hlt).elim
    | done | panic => exact (hno (World.finish_keeps _ _ _).1 hlt).elim
    | endless | turn | drive | stay => exact (hno rfl hlt).elim
    | @clock w instant queue outer le before =>
      refine ⟨(sound.nobody queue outer hs).1, fun due hdue => ?_⟩
      rw [World.clock_moveTo]
      exact before s hs due hdue
  · cases touch with
    | start => exact (hno (World.spawn_keeps _ _ _ _).1 hlt).elim
    | enter w program =>
      exact (hno (World.same_addTask { w with outer := some w.tasks.size } "" none program).clock
        hlt).elim
    | leave => exact (hno rfl hlt).elim
    | change steady => exact (hno steady.clock hlt).elim

/-- While a task runs nothing is done from outside. -/
theorem Move.step {task : TaskId} {t : Task} (move : Move a b) (running : a.control = .running task t) :
    Step a b := by
  refine move.resolve_right fun touch => ?_
  cases touch <;> contradiction

theorem Move.later (move : Move a b) (sound : Sound a) : a.world.Later b.world :=
  move.elim (fun step => step.later sound) Touch.later

theorem Move.sound (move : Move a b) (sound : Sound a) : Sound b :=
  Moves.sound (.single move) sound

/-- A task that was cut off: it is neither running nor waiting, and has not ended. -/
structure Lost (a : Machine) (task : TaskId) : Prop where
  size : task < a.world.tasks.size
  unended : a.world.ended? task = none
  unwaiting : ∀ s ∈ a.world.suspended, s.id ≠ task
  unrunning : ∀ rest, a.control ≠ .running task rest

namespace Lost

variable {w w' : World} {c : Control} {task : TaskId}

/-- What begins and ends nothing does not bring a task back, -/
theorem steady (lost : Lost ⟨w, c⟩ task) (steady : w.Steady w') : Lost ⟨w', c⟩ task where
  size := steady.size ▸ lost.size
  unended := (steady.ended task).trans lost.unended
  unwaiting := steady.suspended ▸ lost.unwaiting
  unrunning := lost.unrunning

/-- nor does the start of another task, -/
theorem addTask (lost : Lost ⟨w, c⟩ task) (name : String) (token : Option TokenId)
    (program : Task) : Lost ⟨w.addTask name token program, c⟩ task where
  size := by
    rw [(World.same_addTask w name token program).tasks]
    exact (Table.size_push _ _).symm ▸ Nat.lt_succ_of_lt lost.size
  unended := (World.ended?_addTask w name token program task).trans lost.unended
  unwaiting := (World.same_addTask w name token program).suspended ▸ List.forall_mem_append.mpr
    ⟨lost.unwaiting, List.forall_mem_singleton.mpr (Nat.ne_of_gt lost.size)⟩
  unrunning := lost.unrunning

theorem spawn (lost : Lost ⟨w, c⟩ task) (name : String) (parent : TokenId)
    (body : TokenId → Task) : Lost ⟨(w.spawn name parent body).2, c⟩ task :=
  (lost.steady (World.steady_addBelow w parent)).addTask name _ _

/-- nor the end of another task, -/
theorem finish {task' : TaskId} {t : Task} (lost : Lost ⟨w, .running task' t⟩ task)
    (ending : Ending) : Lost ⟨w.finish task' ending, .idle⟩ task := by
  have hne : task' ≠ task := fun heq => lost.unrunning t (heq ▸ rfl)
  refine ⟨?_, ?_, (World.finish_keeps w task' ending).2.2 ▸ lost.unwaiting, nofun⟩
  · exact (World.size_finish w task' ending).symm ▸ lost.size
  · exact (World.ended?_finish_of_ne w hne ending).trans lost.unended

/-- nor a turn of another task. -/
theorem control {c' : Control} (lost : Lost ⟨w, c⟩ task)
    (hc : ∀ rest, c' ≠ .running task rest) : Lost ⟨w, c'⟩ task :=
  { lost with unrunning := hc }

end Lost

theorem Move.lost {task : TaskId} (move : Move a b) (lost : Lost a task) : Lost b task := by
  have hrest {w : World} {task' : TaskId} {t t' : Task} (lost : Lost ⟨w, .running task' t⟩ task) :
      Lost ⟨w, .running task' t'⟩ task :=
    lost.control fun rest heq => by
      cases heq
      exact lost.unrunning _ rfl
  rcases move with step | touch
  · cases step with
    | answer there => exact hrest (lost.steady (World.steady_answer? there))
    | @suspend w task' r next =>
      obtain ⟨limits, hsame⟩ := World.suspend_eq w task' r next
      have hne : task' ≠ task := by
        rintro rfl
        exact lost.unrunning _ rfl
      refine Lost.steady ?_ hsame.steady
      exact ⟨lost.size, lost.unended, List.forall_mem_append.mpr
        ⟨lost.unwaiting, List.forall_mem_singleton.mpr hne⟩, nofun⟩
    | spawn => exact hrest (lost.spawn _ _ _)
    | done | panic => exact lost.finish _
    | endless | stay => exact lost.control nofun
    | turn => exact ⟨lost.size, lost.unended, lost.unwaiting, nofun⟩
    | drive => exact lost.control nofun
    | resume found there =>
      have lost' := lost.steady (World.steady_answer? there)
      have hs := lost.unwaiting _ (List.mem_of_find?_eq_some found)
      have hid := List.find?_some found
      refine ⟨lost'.size, lost'.unended, fun s hs => lost'.unwaiting s (List.mem_filter.mp hs).1,
        fun rest heq => ?_⟩
      cases heq
      exact hs (by simpa using hid)
    | @clock w instant =>
      have lost' : Lost ⟨{ w with now := instant }, .idle⟩ task := { lost with }
      exact lost'.steady (World.same_wakeAll _ _).steady
  · cases touch with
    | start => exact lost.spawn _ _ _
    | enter w program =>
      have lost' : Lost ⟨{ w with outer := some w.tasks.size }, .idle⟩ task := { lost with }
      exact lost'.addTask "" none program
    | leave => exact { lost with }
    | change steady => exact lost.steady steady

end Machine

/-- A world that is run, at every moment. It moves from one moment to the next, or stands still
for good. -/
structure Trace where
  machine : Nat → Machine
  move : ∀ m, (machine m).Move (machine (m + 1)) ∨ ∀ k, m ≤ k → machine k = machine m
  sound : (machine 0).Sound

namespace Trace

variable {tr : Trace}

theorem sound_at (tr : Trace) (m : Nat) : (tr.machine m).Sound := by
  induction m with
  | zero => exact tr.sound
  | succ m ih =>
    rcases tr.move m with move | still
    · exact move.sound ih
    · exact (still (m + 1) (Nat.le_succ m)).symm ▸ ih

/-- The history of a world that is run. -/
def history (tr : Trace) : History where
  world m := (tr.machine m).world
  later m := by
    rcases tr.move m with move | still
    · exact move.later (tr.sound_at m)
    · rw [still (m + 1) (Nat.le_succ m)]
      exact .refl _

/-- A task that waits has not ended. -/
theorem ended?_of_waits {m : Nat} {s : Suspended} (hs : s ∈ (tr.machine m).world.suspended) :
    tr.history.ended? m s.id = none :=
  ((tr.sound_at m).waits s hs).2

/-- Whoever ends later has not stood still. -/
theorem move_of_ended {m k : Nat} {task : TaskId} (hnone : tr.history.ended? m task = none)
    (hended : (tr.history.ended? k task).isSome) :
    m < k ∧ (tr.machine m).Move (tr.machine (m + 1)) := by
  have hmk : m < k := History.lt_of_ended? hnone hended
  refine ⟨hmk, (tr.move m).resolve_right fun still => ?_⟩
  have hsame : tr.history.world k = tr.history.world m :=
    congrArg Machine.world (still k (Nat.le_of_lt hmk))
  rw [History.ended?, hsame, ← History.ended?, hnone] at hended
  contradiction

/-- Whoever has ended waits no more. -/
theorem gone_of_ended {m k : Nat} {s : Suspended} (hs : s ∈ (tr.machine m).world.suspended)
    (hended : (tr.history.ended? k s.id).isSome) :
    m ≤ k ∧ s ∉ (tr.machine k).world.suspended := by
  refine ⟨Nat.le_of_lt (move_of_ended (ended?_of_waits hs) hended).1, fun hs' => ?_⟩
  rw [ended?_of_waits hs'] at hended
  contradiction

/-- A task that waits, and does not wait so any more later, goes on at some moment with the answer to
its request. -/
theorem resumes {m k : Nat} {s : Suspended} (hs : s ∈ (tr.machine m).world.suspended)
    (hmk : m ≤ k) (hgone : s ∉ (tr.machine k).world.suspended) :
    ∃ j answer w, m ≤ j ∧ j < k ∧ (tr.machine (j + 1)).control = .running s.id (s.next answer) ∧
      (tr.history.world j).answer? s.id s.deadline s.request = some (answer, w) ∧
      w.Later (tr.history.world (j + 1)) ∧ tr.history.clock (j + 1) = tr.history.clock j ∧
      ∀ i, m ≤ i → i ≤ j → s ∈ (tr.machine i).world.suspended := by
  obtain ⟨d, rfl⟩ := Nat.exists_eq_add_of_le hmk
  induction d generalizing m with
  | zero => exact absurd hs hgone
  | succ d ih =>
    have move := (tr.move m).resolve_right fun still => by
      rw [still _ hmk] at hgone
      exact hgone hs
    rcases move.waits (tr.sound_at m) hs with
      hs' | ⟨answer, w, there, hlater, -, hclock, hrunning⟩
    · rw [show m + (d + 1) = m + 1 + d by omega] at hgone
      obtain ⟨j, answer, w, hmj, hjk, hrunning, there, hlater, hclock, hwaits⟩ :=
        ih hs' (Nat.le_add_right _ _) hgone
      refine ⟨j, answer, w, by omega, by omega, hrunning, there, hlater, hclock, fun i hi hij => ?_⟩
      rcases Nat.eq_or_lt_of_le hi with rfl | hlt
      · exact hs
      · exact hwaits i hlt hij
    · refine ⟨m, answer, w, Nat.le_refl m, by omega, hrunning, there, hlater, hclock,
        fun i hi hij => ?_⟩
      rw [Nat.le_antisymm hij hi]
      exact hs

/-- A request made when the wait begins is answered by the world that lets the task go on. -/
theorem answers {m j : Nat} {s : Suspended} {answer : s.request.Answer} {w : World} (hmj : m ≤ j)
    (there : (tr.history.world j).answer? s.id s.deadline s.request = some (answer, w))
    (hlater : w.Later (tr.history.world (j + 1)))
    (hclock : tr.history.clock (j + 1) = tr.history.clock j)
    (hwaits : ∀ i, m < i → i ≤ j → s ∈ (tr.machine i).world.suspended)
    (hdeadline : (tr.history.world m).deadline? s.request = s.deadline)
    (hbegins : tr.history.clock (m + 1) = tr.history.clock m)
    (first : m < j → (tr.history.world m).answer? s.id s.deadline s.request = none) :
    tr.history.Answers s.id m s.request j answer where
  le := hmj
  first hlt := hdeadline ▸ first hlt
  answer := ⟨w, hdeadline ▸ there, hlater⟩
  atOnce := hclock
  waiting i hmi hij hlt := by
    rcases Nat.eq_or_lt_of_le hmi with rfl | hmi
    · rw [hbegins] at hlt
      exact absurd hlt (Nat.lt_irrefl _)
    · have move := (tr.move i).resolve_right fun still => by
        have hsame : tr.history.world (i + 1) = tr.history.world i :=
          congrArg Machine.world (still (i + 1) (Nat.le_succ i))
        rw [History.clock, History.clock, hsame] at hlt
        exact Nat.lt_irrefl _ hlt
      have hpatient := move.patient (tr.sound_at i) (hwaits i hmi (Nat.le_of_lt hij)) hlt
      rw [hdeadline]
      exact hpatient

/-- A running task takes a step, unless the world stands still. -/
theorem step_of_running {m k : Nat} {task : TaskId} {t : Task}
    (running : (tr.machine m).control = .running task t) (hmk : m ≤ k)
    (hmoved : tr.machine k ≠ tr.machine m) :
    m < k ∧ (tr.machine m).Sound ∧ tr.machine m = ⟨tr.history.world m, .running task t⟩ ∧
      Machine.Step (tr.machine m) (tr.machine (m + 1)) := by
  have hmachine : tr.machine m = ⟨tr.history.world m, .running task t⟩ := by
    rw [← running]
    rfl
  have hlt : m < k := Nat.lt_of_le_of_ne hmk fun heq => hmoved (heq ▸ rfl)
  have move := (tr.move m).resolve_right fun still => hmoved (still k hmk)
  exact ⟨hlt, tr.sound_at m, hmachine, move.step running⟩

/-- If the running task ends later, the world does not stand still. -/
theorem moved_of_ended {m k : Nat} {task : TaskId} {t : Task}
    (running : (tr.machine m).control = .running task t)
    (hended : (tr.history.ended? k task).isSome) : m ≤ k ∧ tr.machine k ≠ tr.machine m := by
  have hnone : tr.history.ended? m task = none := ((tr.sound_at m).runs task t running).2.1
  refine ⟨Nat.le_of_lt (move_of_ended hnone hended).1, fun heq => ?_⟩
  have hsame : tr.history.world k = tr.history.world m := congrArg Machine.world heq
  rw [History.ended?, hsame, ← History.ended?, hnone] at hended
  contradiction

/-- A task that is cut off remains so. -/
theorem lost_of_le {m k : Nat} {task : TaskId} (lost : (tr.machine m).Lost task) (hmk : m ≤ k) :
    (tr.machine k).Lost task := by
  induction hmk with
  | refl => exact lost
  | @step k _ ih =>
    rcases tr.move k with move | still
    · exact move.lost ih
    · exact (still (k + 1) (Nat.le_succ k)).symm ▸ ih

/-! ### What a running task comes to -/

section Running

variable {m k : Nat} {task : TaskId} {place : Nat} {o : Outcome}

/-- A task that is over ends with its outcome. -/
theorem of_done (running : (tr.machine m).control = .running task (.done o)) (hmk : m ≤ k)
    (hmoved : tr.machine k ≠ tr.machine m) :
    ∃ place, tr.history.ended? k task = some (place, o) := by
  obtain ⟨hlt, sound, hmachine, step⟩ := step_of_running running hmk hmoved
  rw [hmachine] at step sound
  generalize hnext : tr.machine (m + 1) = b at step
  cases step with
  | done =>
    have hworld : tr.history.world (m + 1) = (tr.history.world m).finish task (.returned o) :=
      congrArg Machine.world hnext
    obtain ⟨place, name, hended⟩ := World.ended?_finish (sound.runs _ _ rfl).1 (.returned o)
    exact ⟨place, (tr.history.later_of_le hlt).ended task _ (hworld ▸ hended)⟩

/-- A task that panics ends with the panic as its error. -/
theorem of_panic {payload : Payload}
    (running : (tr.machine m).control = .running task (.panic payload)) (hmk : m ≤ k)
    (hmoved : tr.machine k ≠ tr.machine m) :
    ∃ place name, tr.history.ended? k task = some (place, .error (.panicked name payload)) := by
  obtain ⟨hlt, sound, hmachine, step⟩ := step_of_running running hmk hmoved
  rw [hmachine] at step sound
  generalize hnext : tr.machine (m + 1) = b at step
  cases step with
  | panic =>
    have hworld : tr.history.world (m + 1) = (tr.history.world m).finish task (.panicked payload) :=
      congrArg Machine.world hnext
    obtain ⟨place, name, hended⟩ := World.ended?_finish (sound.runs _ _ rfl).1 (.panicked payload)
    exact ⟨place, name, (tr.history.later_of_le hlt).ended task _ (hworld ▸ hended)⟩

/-- A task that reaches its horizon is cut off, -/
theorem lost_of_endless (running : (tr.machine m).control = .running task .endless) (hmk : m ≤ k)
    (hmoved : tr.machine k ≠ tr.machine m) : (tr.machine k).Lost task := by
  obtain ⟨hlt, sound, hmachine, step⟩ := step_of_running running hmk hmoved
  rw [hmachine] at step sound
  generalize hnext : tr.machine (m + 1) = b at step
  cases step with
  | endless =>
    obtain ⟨hsize, hnone, hothers⟩ := sound.runs _ _ rfl
    refine lost_of_le ?_ hlt
    rw [hnext]
    exact ⟨hsize, hnone, hothers, nofun⟩

/-- and does not end. -/
theorem of_endless (running : (tr.machine m).control = .running task .endless) :
    tr.history.ended? k task = none := by
  cases hended : tr.history.ended? k task with
  | none => rfl
  | some e =>
    obtain ⟨hmk, hmoved⟩ := moved_of_ended running (by rw [hended]; rfl)
    have hnone : tr.history.ended? k task = none := (lost_of_endless running hmk hmoved).unended
    rw [hended] at hnone
    contradiction

/-- A task that asks goes on with an answer, at once or after a wait, unless it keeps waiting. -/
theorem of_ask_of_step {r : Request} {next : r.Answer → Task}
    (running : (tr.machine m).control = .running task (.ask r next))
    (step : (tr.machine m).Step (tr.machine (m + 1))) (hlt : m < k)
    (hgone : (tr.history.world m).waiting task r next ∉ (tr.machine k).world.suspended) :
    ∃ j a, j < k ∧ tr.history.Answers task m r j a ∧
      (tr.machine (j + 1)).control = .running task (next a) ∧
      ∀ i, m < i → i ≤ j →
        (tr.history.world m).waiting task r next ∈ (tr.machine i).world.suspended := by
  have hmachine : tr.machine m = ⟨tr.history.world m, .running task (.ask r next)⟩ :=
    congrArg (Machine.mk _) running
  rw [hmachine] at step
  generalize hnext : tr.machine (m + 1) = b at step
  cases step with
  | @answer _ w' _ _ _ a there =>
    have hworld : tr.history.world (m + 1) = w' := congrArg Machine.world hnext
    refine ⟨m, a, hlt, ?_, congrArg Machine.control hnext,
      fun i hmi him => absurd hmi (Nat.not_lt_of_le him)⟩
    exact
      { le := Nat.le_refl m
        first := fun hlt => absurd hlt (Nat.lt_irrefl m)
        answer := ⟨w', there, hworld ▸ .refl _⟩
        atOnce := (congrArg World.now hworld).trans (World.steady_answer? there).clock
        waiting := fun j hmj hjm => absurd hjm (Nat.not_lt_of_le hmj) }
  | suspend unanswered =>
    have hworld : tr.history.world (m + 1) = (tr.history.world m).suspend task r next :=
      congrArg Machine.world hnext
    obtain ⟨limits, hsame⟩ := World.suspend_eq (tr.history.world m) task r next
    rw [← hworld] at hsame
    have hs : (tr.history.world m).waiting task r next ∈ (tr.machine (m + 1)).world.suspended :=
      hsame.suspended ▸ List.mem_append_right _ (List.mem_singleton.mpr rfl)
    obtain ⟨j, a, w, hmj, hjk, hrunning, there, hlater, hclock, hwaits⟩ := resumes hs hlt hgone
    refine ⟨j, a, hjk, ?_, hrunning, hwaits⟩
    exact tr.answers (s := (tr.history.world m).waiting task r next) (Nat.le_of_succ_le hmj) there
      hlater hclock (fun i hi hij => hwaits i hi hij) rfl hsame.clock fun _ => unanswered

/-- So it does unless the world stands still. -/
theorem of_ask {r : Request} {next : r.Answer → Task}
    (running : (tr.machine m).control = .running task (.ask r next)) (hmk : m ≤ k)
    (hmoved : tr.machine k ≠ tr.machine m)
    (hgone : (tr.history.world m).waiting task r next ∉ (tr.machine k).world.suspended) :
    ∃ j a, j < k ∧ tr.history.Answers task m r j a ∧
      (tr.machine (j + 1)).control = .running task (next a) ∧
      ∀ i, m < i → i ≤ j →
        (tr.history.world m).waiting task r next ∈ (tr.machine i).world.suspended := by
  obtain ⟨hlt, -, -, step⟩ := step_of_running running hmk hmoved
  exact of_ask_of_step running step hlt hgone

/-- It goes on if it ends later. -/
theorem of_ask_of_ended {r : Request} {next : r.Answer → Task}
    (running : (tr.machine m).control = .running task (.ask r next))
    (hended : (tr.history.ended? k task).isSome) :
    ∃ j a, tr.history.Answers task m r j a ∧
      (tr.machine (j + 1)).control = .running task (next a) ∧
      ∀ i, m < i → i ≤ j →
        (tr.history.world m).waiting task r next ∈ (tr.machine i).world.suspended := by
  obtain ⟨hmk, hmoved⟩ := moved_of_ended running hended
  obtain ⟨j, a, -, hasked⟩ := of_ask running hmk hmoved fun hs => by
    rw [show tr.history.ended? k task = none from ended?_of_waits hs] at hended
    contradiction
  exact ⟨j, a, hasked⟩

/-- A task that starts a child goes on, and the child waits to begin. -/
theorem of_spawn {name : String} {parent : TokenId} {body : TokenId → Task} {next : Child → Task}
    (running : (tr.machine m).control = .running task (.spawn name parent body next))
    (hmk : m ≤ k) (hmoved : tr.machine k ≠ tr.machine m) :
    m < k ∧ tr.history.world (m + 1) = ((tr.history.world m).spawn name parent body).2 ∧
      (tr.machine (m + 1)).control =
        .running task (next ((tr.history.world m).spawn name parent body).1) ∧
      (tr.history.world m).begun (body (tr.history.world m).tokens.size) ∈
        (tr.machine (m + 1)).world.suspended := by
  obtain ⟨hlt, -, hmachine, step⟩ := step_of_running running hmk hmoved
  rw [hmachine] at step
  generalize hnext : tr.machine (m + 1) = b at step
  cases step with
  | spawn =>
    refine ⟨hlt, congrArg Machine.world hnext, rfl, ?_⟩
    rw [(World.spawn_keeps _ _ _ _).2.2]
    exact List.mem_append_right _ (List.mem_singleton.mpr rfl)

end Running

/-- A running task that has ended by some moment has run from its present program to its outcome,
unless it has panicked. -/
theorem runs {m k : Nat} {task : TaskId} {t : Task} {place : Nat} {o : Outcome}
    (running : (tr.machine m).control = .running task t)
    (hended : tr.history.ended? k task = some (place, o)) :
    (∃ es m', tr.history.Runs task m t es m' o) ∨
      ∃ name message, o = .error (.panicked name message) := by
  have hsome : (tr.history.ended? k task).isSome := by
    rw [hended]
    rfl
  induction t generalizing m with
  | done o' =>
    obtain ⟨hmk, hmoved⟩ := moved_of_ended running hsome
    obtain ⟨place', hended'⟩ := of_done running hmk hmoved
    cases hended.symm.trans hended'
    exact .inl ⟨[], m, .done m _⟩
  | panic payload =>
    obtain ⟨hmk, hmoved⟩ := moved_of_ended running hsome
    obtain ⟨place', name, hended'⟩ := of_panic running hmk hmoved
    cases hended.symm.trans hended'
    exact .inr ⟨name, payload, rfl⟩
  | endless =>
    rw [of_endless running] at hended
    contradiction
  | ask r next ih =>
    obtain ⟨j, a, answers, running, -⟩ := of_ask_of_ended running hsome
    refine (ih a running).imp_left ?_
    rintro ⟨es, m', run⟩
    exact ⟨_, m', .ask answers run⟩
  | spawn name parent body next _ ih =>
    obtain ⟨hmk, hmoved⟩ := moved_of_ended running hsome
    obtain ⟨-, hworld, running, -⟩ := of_spawn running hmk hmoved
    refine (ih _ running).imp_left ?_
    rintro ⟨es, m', run⟩
    refine ⟨es, m', .spawn (hworld ▸ .refl _) ?_ run⟩
    exact (congrArg World.now hworld).trans (World.spawn_keeps _ _ _ _).1

/-- A task that has been started begins with its program, if it ends. -/
theorem begins {m k : Nat} {w : World} {program : Task}
    (hs : w.begun program ∈ (tr.machine m).world.suspended)
    (hended : (tr.history.ended? k w.tasks.size).isSome) :
    ∃ j, m ≤ j ∧ j < k ∧ (tr.machine (j + 1)).control = .running w.tasks.size program := by
  obtain ⟨hmk, hgone⟩ := gone_of_ended hs hended
  obtain ⟨j, answer, w', hmj, hjk, hrunning, -⟩ := resumes hs hmk hgone
  exact ⟨j, hmj, hjk, hrunning⟩

/-- At a moment a task starts a child. -/
def Starts (tr : Trace) (m : Nat) (parent : TaskId) (c : Child) : Prop :=
  (tr.machine m).Starts (tr.machine (m + 1)) parent c

/-- The children that are started from a moment on by a task, by its children and so on, each with
the moment of its start. -/
inductive Below (tr : Trace) (first : Nat) (root : TaskId) : Nat → Child → Prop
  | child {i : Nat} {c : Child} (le : first ≤ i) (starts : tr.Starts i root c) :
    Below tr first root i c
  | deeper {i j : Nat} {p c : Child} (below : Below tr first root i p) (lt : i < j)
      (starts : tr.Starts j p.id c) : Below tr first root j c

theorem Below.le {first i : Nat} {root : TaskId} {c : Child} (below : tr.Below first root i c) :
    first ≤ i := by
  induction below with
  | child le => exact le
  | deeper _ lt _ ih => exact Nat.le_trans ih (Nat.le_of_lt lt)

/-- A world that moves once more before. -/
def cons (a : Machine) (tr : Trace) (move : a.Move (tr.machine 0)) (sound : a.Sound) : Trace where
  machine
    | 0 => a
    | m + 1 => tr.machine m
  move
    | 0 => .inl move
    | m + 1 => (tr.move m).imp_right fun still k hmk => by
      cases k with
      | zero => exact absurd hmk (Nat.not_succ_le_zero m)
      | succ k => exact still k (Nat.le_of_succ_le_succ hmk)
  sound := sound

end Trace

end Orchestra
