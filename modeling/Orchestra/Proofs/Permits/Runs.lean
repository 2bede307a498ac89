import Orchestra.Proofs.Children.Accounts
import Orchestra.Proofs.Permits.Conserved

/-!
# Runs under a limit

A run that is started under a limit first asks for a permit. It is early as long as it has not been
let in: it waits to begin, asks, waits for the permit, has been refused, or has ended with a
cancellation. It leaves this stage in one way only, with a permit and before its token is stopped, to
execute its runnable; and it holds the permit as long as it does.
-/

namespace Orchestra

/-- A run that is started under a limit, as a child with a token of its own. -/
structure LimitedRun where
  ctx : Context
  runnable : Runnable
  input : Data
  limit : LimitId
  child : Child

namespace LimitedRun

variable {run : LimitedRun}

/-- Its program. -/
def program (run : LimitedRun) : Task :=
  run.ctx.run run.runnable run.input (some run.limit) run.child.token

/-- What it does once it has been let in. -/
def execution (run : LimitedRun) : Task :=
  { run.ctx with token := run.child.token }.execute run.runnable run.input

/-- How it goes on when its request for a permit is answered. -/
def admission (run : LimitedRun) (granted : Bool) : Task :=
  if granted then run.execution else .fail .cancelled

theorem program_eq (run : LimitedRun) :
    run.program = .ask (.acquire run.limit run.child.token) run.admission :=
  rfl

/-- It waits to begin. -/
def beginning (run : LimitedRun) (order : Nat) : Suspended :=
  ⟨run.child.id, .now, fun _ => run.program, none, order⟩

/-- It waits for a permit. -/
def queueing (run : LimitedRun) (order : Nat) : Suspended :=
  ⟨run.child.id, .acquire run.limit run.child.token, run.admission, none, order⟩

/-- It has not begun to execute its runnable. -/
inductive Early (run : LimitedRun) (a : Machine) : Prop
  | begins (order : Nat) (mem : run.beginning order ∈ a.world.suspended)
  | asks (control : a.control = .running run.child.id run.program)
  | queues (order : Nat) (mem : run.queueing order ∈ a.world.suspended)
  | refused (control : a.control = .running run.child.id (.fail .cancelled))
  | past (place : Nat) (ended : a.world.ended? run.child.id = some (place, .error .cancelled))

/-- It waits to begin, or for its permit. -/
inductive Waits (run : LimitedRun) (a : Machine) : Prop
  | begins (order : Nat) (mem : run.beginning order ∈ a.world.suspended)
  | asks (control : a.control = .running run.child.id run.program)
  | queues (order : Nat) (mem : run.queueing order ∈ a.world.suspended)

theorem Waits.early (waits : run.Waits a) : run.Early a := by
  cases waits with
  | begins order mem => exact .begins order mem
  | asks control => exact .asks control
  | queues order mem => exact .queues order mem

/-- Its request for a permit is answered. -/
structure Decided (run : LimitedRun) (a b : Machine) (granted : Bool) : Prop where
  there : ∃ deadline w, a.world.answer? run.child.id deadline
    (.acquire run.limit run.child.token) = some (granted, w) ∧ b.world.tasks = w.tasks
  size : run.child.id < a.world.tasks.size
  control : b.control = .running run.child.id (run.admission granted)

/-- It has just been let in: it begins to execute its runnable. -/
structure LetIn (run : LimitedRun) (a b : Machine) : Prop where
  unstopped : a.world.isStopped run.child.token = false
  control : b.control = .running run.child.id run.execution
  holds : 0 < b.world.heldBy run.limit run.child.id

end LimitedRun

namespace Task

/-- No task goes on with itself. -/
theorem next_ne (t : Task) : ∀ (r : Request) (next : r.Answer → Task) (a : r.Answer),
    t = .ask r next → next a ≠ t := by
  induction t with
  | ask r next ih =>
    intro r' next' a heq hnext
    cases heq
    exact ih a r next a hnext rfl
  | _ => nofun

/-- An execution is not over at once. -/
theorem execute_ne_done (ctx : Context) (r : Runnable) (input : Data) (o : Outcome) :
    ctx.execute r input ≠ .done o := by
  unfold Context.execute
  cases r.next ctx input <;> nofun

end Task

namespace LimitedRun

open Machine

variable {run : LimitedRun} {a b : Machine}

/-- A run that waits remains so until its request is answered, -/
theorem Waits.move (waits : run.Waits a) (move : Move a b) (sound : Sound a) :
    run.Waits b ∨ ∃ granted, run.Decided a b granted := by
  cases waits with
  | begins order mem =>
    rcases move.waits sound mem with mem | ⟨now, w, there, -, -, -, control⟩
    · exact .inl (.begins order mem)
    · exact .inl (.asks control)
  | asks control =>
    have step := move.step control
    obtain ⟨w, c⟩ := a
    obtain rfl : c = .running run.child.id run.program := control
    rw [program_eq] at step sound
    cases step with
    | answer there => exact .inr ⟨_, ⟨_, _, there, rfl⟩, (sound.runs _ _ rfl).1, rfl⟩
    | suspend =>
      obtain ⟨limits, hsame⟩ := World.suspend_eq w run.child.id
        (.acquire run.limit run.child.token) run.admission
      refine .inl (.queues w.order ?_)
      rw [hsame.suspended]
      exact List.mem_append_right _ (List.mem_singleton.mpr rfl)
  | queues order mem =>
    rcases move.waits sound mem with mem | ⟨granted, w, there, -, tasks, -, control⟩
    · exact .inl (.queues order mem)
    · exact .inr ⟨granted, ⟨_, w, there, tasks⟩, (sound.waits _ mem).1, control⟩

/-- which lets it in or refuses it. -/
theorem Decided.early_or_letIn {granted : Bool} (decided : run.Decided a b granted) :
    run.Early b ∨ run.LetIn a b := by
  cases granted with
  | false => exact .inl (.refused decided.control)
  | true =>
    obtain ⟨deadline, w, there, tasks⟩ := decided.there
    obtain ⟨unstopped, holds⟩ := World.heldBy_of_admitted there decided.size
    exact .inr ⟨unstopped, decided.control, World.heldBy_congr tasks _ _ ▸ holds⟩

/-- A run that is early remains so or is let in. -/
theorem Early.move (early : run.Early a) (move : Move a b) (sound : Sound a) :
    run.Early b ∨ run.LetIn a b := by
  have hwaits (waits : run.Waits a) : run.Early b ∨ run.LetIn a b := by
    rcases waits.move move sound with waits | ⟨granted, decided⟩
    · exact .inl waits.early
    · exact decided.early_or_letIn
  cases early with
  | begins order mem => exact hwaits (.begins order mem)
  | asks control => exact hwaits (.asks control)
  | queues order mem => exact hwaits (.queues order mem)
  | refused control =>
    have step := move.step control
    obtain ⟨w, c⟩ := a
    obtain rfl : c = .running run.child.id (.fail .cancelled) := control
    cases step with
    | done =>
      obtain ⟨place, name, ended⟩ :=
        World.ended?_finish (sound.runs _ _ rfl).1 (.returned (.error .cancelled))
      exact .inl (.past place ended)
  | past place ended => exact .inl (.past place ((move.later sound).ended _ _ ended))

/-- While it is early it does not execute its runnable. -/
theorem Early.not_executing (early : run.Early a) (sound : Sound a) :
    a.control ≠ .running run.child.id run.execution := by
  intro control
  obtain ⟨-, hended, hothers⟩ := sound.runs _ _ control
  cases early with
  | begins order mem => exact hothers _ mem rfl
  | asks control' =>
    have hsame : run.program = run.execution := by
      have heq := control'.symm.trans control
      injection heq
    have hnext : run.admission true = run.program := hsame.symm
    exact Task.next_ne run.program (.acquire run.limit run.child.token) run.admission true
      run.program_eq hnext
  | queues order mem => exact hothers _ mem rfl
  | refused control' =>
    have hsame : Task.fail .cancelled = run.execution := by
      have heq := control'.symm.trans control
      injection heq
    exact Task.execute_ne_done _ _ _ _ hsame.symm
  | past place ended =>
    rw [hended] at ended
    contradiction

/-- If it has ended, it has ended with a cancellation, -/
theorem Early.outcome (early : run.Early a) (sound : Sound a) {place : Nat} {o : Outcome}
    (hended : a.world.ended? run.child.id = some (place, o)) : o = .error .cancelled := by
  have hnot (hnone : a.world.ended? run.child.id = none) : o = .error .cancelled := by
    rw [hnone] at hended
    contradiction
  cases early with
  | begins order mem => exact hnot (sound.waits _ mem).2
  | asks control => exact hnot (sound.runs _ _ control).2.1
  | queues order mem => exact hnot (sound.waits _ mem).2
  | refused control => exact hnot (sound.runs _ _ control).2.1
  | past place' hended' =>
    cases hended.symm.trans hended'
    rfl

/-- and all that it does is to ask for the permit and to fail. -/
theorem Early.running (early : run.Early a) (sound : Sound a) {t : Task}
    (control : a.control = .running run.child.id t) : t = run.program ∨ t = .fail .cancelled := by
  obtain ⟨-, hended, hothers⟩ := sound.runs _ _ control
  cases early with
  | begins order mem => exact absurd rfl (hothers _ mem)
  | asks control' =>
    have heq := control.symm.trans control'
    injection heq with _ heq
    exact .inl heq
  | queues order mem => exact absurd rfl (hothers _ mem)
  | refused control' =>
    have heq := control.symm.trans control'
    injection heq with _ heq
    exact .inr heq
  | past place hended' =>
    rw [hended] at hended'
    contradiction

end LimitedRun

/-! ### In a run of a world -/

namespace Trace

open Machine LimitedRun

variable {tr : Trace} {run : LimitedRun} {added : Nat → Nat} {m k n : Nat}

/-- At a moment a run is started under a limit, by a task or from outside. -/
def Launches (tr : Trace) (m : Nat) (run : LimitedRun) : Prop :=
  (tr.history.world m).spawn run.runnable.name run.ctx.token
    (run.ctx.run run.runnable run.input (some run.limit)) = (run.child, tr.history.world (m + 1))

/-- By a moment a run has begun to execute its runnable. -/
def HasBegun (tr : Trace) (run : LimitedRun) (m : Nat) : Prop :=
  ∃ j ≤ m, (tr.machine j).control = .running run.child.id run.execution

/-- At a moment a run is executing its runnable. -/
structure Executing (tr : Trace) (run : LimitedRun) (m : Nat) : Prop where
  begun : tr.HasBegun run m
  unended : tr.history.ended? m run.child.id = none

theorem Launches.child_id (launches : tr.Launches m run) :
    run.child.id = (tr.history.world m).tasks.size := by
  have hchild := congrArg Prod.fst launches
  exact congrArg Child.id hchild.symm

theorem Launches.child_token (launches : tr.Launches m run) :
    run.child.token = (tr.history.world m).tokens.size := by
  have hchild := congrArg Prod.fst launches
  exact congrArg Child.token hchild.symm

/-- A run that has been started waits to begin. -/
theorem Launches.early (launches : tr.Launches m run) : run.Early (tr.machine (m + 1)) := by
  refine .begins (tr.history.world m).order ?_
  have hworld := congrArg Prod.snd launches
  have hsuspended := (World.spawn_keeps (tr.history.world m) run.runnable.name run.ctx.token
    (run.ctx.run run.runnable run.input (some run.limit))).2.2
  rw [hworld] at hsuspended
  rw [show (tr.machine (m + 1)).world = tr.history.world (m + 1) from rfl, hsuspended]
  refine List.mem_append_right _ (List.mem_singleton.mpr ?_)
  rw [beginning, launches.child_id, program, launches.child_token]
  rfl

/-- It is early until it is let in. -/
theorem early_or_letIn (early : run.Early (tr.machine m)) (hmk : m ≤ k) :
    run.Early (tr.machine k) ∨
      ∃ j, m ≤ j ∧ j < k ∧ run.LetIn (tr.machine j) (tr.machine (j + 1)) := by
  induction hmk with
  | refl => exact .inl early
  | @step k hmk ih =>
    rcases ih with early | ⟨j, hmj, hjk, letIn⟩
    · rcases tr.move k with move | still
      · exact (early.move move (tr.sound_at k)).imp_right fun letIn =>
          ⟨k, hmk, Nat.lt_succ_self k, letIn⟩
      · exact .inl (still (k + 1) (Nat.le_succ k) ▸ early)
    · exact .inr ⟨j, hmj, Nat.lt_succ_of_lt hjk, letIn⟩

/-- A run does not begin to execute before it has been started, -/
theorem Launches.lt_of_running (launches : tr.Launches m run) {t : Task}
    (control : (tr.machine k).control = .running run.child.id t) : m < k := by
  refine Nat.lt_of_not_le fun hkm => ?_
  have hsize := ((tr.sound_at k).runs _ _ control).1
  rw [launches.child_id] at hsize
  exact Nat.not_le_of_lt hsize (tr.history.later_of_le hkm).size

/-- nor before it has been let in, -/
theorem HasBegun.letIn (launches : tr.Launches m run) (begun : tr.HasBegun run k) :
    ∃ j, m < j ∧ j < k ∧ run.LetIn (tr.machine j) (tr.machine (j + 1)) := by
  obtain ⟨i, hik, control⟩ := begun
  rcases early_or_letIn launches.early (launches.lt_of_running control) with early | letIn
  · exact absurd control (early.not_executing (tr.sound_at i))
  · obtain ⟨j, hmj, hji, letIn⟩ := letIn
    exact ⟨j, hmj, Nat.lt_of_lt_of_le hji hik, letIn⟩

/-- and it holds its permit while it does. -/
theorem Executing.holds (adds : tr.Adds run.limit added) (launches : tr.Launches m run)
    (executing : tr.Executing run k) : 0 < (tr.machine k).world.heldBy run.limit run.child.id := by
  obtain ⟨j, -, hjk, letIn⟩ := executing.begun.letIn launches
  exact heldBy_of_le adds hjk letIn.holds executing.unended

/-- So no more runs execute at once than there are permits. -/
theorem length_executing_le {id : LimitId} {total : Nat} {runs : List LimitedRun}
    (adds : tr.Adds id added) (balanced : Balanced id total (tr.machine k))
    (distinct : (runs.map fun run => run.child.id).Nodup)
    (executing : ∀ run ∈ runs, run.limit = id ∧ (∃ m, tr.Launches m run) ∧ tr.Executing run k) :
    runs.length ≤ total := by
  have hle := balanced.length_le distinct fun task htask => by
    obtain ⟨run, hrun, rfl⟩ := List.mem_map.mp htask
    obtain ⟨rfl, ⟨m, launches⟩, hexecuting⟩ := executing run hrun
    exact hexecuting.holds adds launches
  rwa [List.length_map] at hle

/-- A run that has been started and has not begun to execute is early. -/
theorem Launches.early_of_not_hasBegun (launches : tr.Launches m run) (hmk : m < k)
    (unbegun : ¬ tr.HasBegun run k) : run.Early (tr.machine k) := by
  refine (early_or_letIn launches.early hmk).resolve_right ?_
  rintro ⟨j, -, hjk, letIn⟩
  exact unbegun ⟨j + 1, hjk, letIn.control⟩

/-! ### After a stop -/

/-- A run that has not been let in when its token is stopped remains early for good. -/
theorem early_of_stopped (launches : tr.Launches m run) (hmk : m < k)
    (stopped : (tr.history.world k).isStopped run.child.token = true)
    (unbegun : ¬ tr.HasBegun run k) (hkn : k ≤ n) : run.Early (tr.machine n) := by
  refine (early_or_letIn (launches.early_of_not_hasBegun hmk unbegun) hkn).resolve_right ?_
  rintro ⟨j, hkj, -, letIn⟩
  have hstopped := (tr.history.later_of_le hkj).stopped _ stopped
  exact absurd (letIn.unstopped.symm.trans hstopped) Bool.false_ne_true

/-- So it never begins to execute its runnable. -/
theorem not_hasBegun_of_stopped (launches : tr.Launches m run) (hmk : m < k)
    (stopped : (tr.history.world k).isStopped run.child.token = true)
    (unbegun : ¬ tr.HasBegun run k) (n : Nat) : ¬ tr.HasBegun run n := by
  rintro ⟨j, -, control⟩
  rcases Nat.le_total j k with hjk | hkj
  · exact unbegun ⟨j, hjk, control⟩
  · have early := early_of_stopped launches hmk stopped unbegun hkj
    exact early.not_executing (tr.sound_at j) control

/-- A run that is started under a stopped token is one of these. -/
theorem Launches.not_hasBegun (launches : tr.Launches m run) (hkm : k ≤ m + 1) :
    ¬ tr.HasBegun run k := by
  rintro ⟨j, hjk, control⟩
  have hmj := launches.lt_of_running control
  obtain rfl : j = m + 1 := by omega
  exact launches.early.not_executing (tr.sound_at (m + 1)) control

/-- The token of a run is stopped together with that of its context. -/
theorem Launches.stopped (launches : tr.Launches m run) (hmk : m < k)
    (has : run.ctx.token < (tr.history.world m).tokens.size)
    (stopped : (tr.history.world k).isStopped run.ctx.token = true) :
    (tr.history.world k).isStopped run.child.token = true := by
  have hworld : _ = tr.history.world (m + 1) := congrArg Prod.snd launches
  have hgrows := (tr.history.later_of_le (Nat.succ_le_of_lt hmk)).tokens
  rw [← hworld, World.tokens_spawn] at hgrows
  rw [launches.child_token]
  exact Tokens.isStopped_below hgrows has stopped

end Trace

end Orchestra
