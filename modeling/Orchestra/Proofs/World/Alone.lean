import Mathlib.Logic.Function.Iterate
import Orchestra.Proofs.World.Trace
import Orchestra.Session

/-!
# A world left to itself

Without a task that drives it, a world has one way to go on: the running task makes its next request,
else the first task of the queue has its turn, else time passes up to the next timer, or by one
instant where there is no timer. So every world has a trace, in which time goes on once all tasks are
over.
-/

namespace Orchestra

namespace Machine

/-- The one way to go on. -/
def next : Machine → Machine
  | ⟨w, .running task (.done o)⟩ => ⟨w.finish task (.returned o), .idle⟩
  | ⟨w, .running task (.panic payload)⟩ => ⟨w.finish task (.panicked payload), .idle⟩
  | ⟨w, .running _ .endless⟩ => ⟨w, .idle⟩
  | ⟨w, .running task (.ask r next)⟩ =>
    match w.answer? task (w.deadline? r) r with
    | some (a, w) => ⟨w, .running task (next a)⟩
    | none => ⟨w.suspend task r next, .idle⟩
  | ⟨w, .running task (.spawn name parent body next)⟩ =>
    ⟨(w.spawn name parent body).2, .running task (next (w.spawn name parent body).1)⟩
  | ⟨w, .turnOf task⟩ =>
    match w.suspended.find? fun s => s.id = task with
    | none => ⟨w, .idle⟩
    | some s =>
      match w.answer? task s.deadline s.request with
      | none => ⟨w, .idle⟩
      | some (a, w) =>
        ⟨{ w with suspended := w.suspended.filter (fun s => s.id != task), spawned := false },
          .running task (s.next a)⟩
  | ⟨w, .idle⟩ =>
    match w.queue, w.outer with
    | task :: rest, _ => ⟨{ w with queue := rest }, .turnOf task⟩
    | [], none => ⟨w.moveTo (w.nextDeadline?.getD (w.now + 1)), .idle⟩
    | [], some _ => ⟨w, .idle⟩

/-- It is one of the steps of a world, unless the world waits for the task that drives it. -/
theorem step_next {a : Machine} (sound : a.Sound) :
    a.Step a.next ∨ a.control = .idle ∧ a.next = a := by
  obtain ⟨w, control⟩ := a
  cases control with
  | running task t =>
    refine .inl ?_
    cases t with
    | done o => exact .done
    | panic payload => exact .panic
    | endless => exact .endless
    | spawn name parent body next => exact .spawn
    | ask r next =>
      unfold Machine.next
      dsimp only
      split
      · next a w' there => exact .answer there
      · next unanswered => exact .suspend unanswered
  | turnOf task =>
    refine .inl ?_
    unfold Machine.next
    dsimp only
    split
    · next missing =>
      refine .stay ?_
      rw [World.resume?, missing]
    · next s found =>
      split
      · next unanswered =>
        refine .stay ?_
        rw [World.resume?, found]
        dsimp only
        rw [unanswered]
      · next a w' there => exact .resume found there
  | idle =>
    unfold Machine.next
    dsimp only
    split
    · next task rest queue => exact .inl (.turn queue)
    · next queue outer =>
      have hnobody : ∀ task, w.outer = some task → w.resume? task = none := fun task htask => by
        rw [outer] at htask
        contradiction
      refine .inl ?_
      cases hdue : w.nextDeadline? with
      | some due =>
        exact .clock queue hnobody (sound.clock_le queue hnobody hdue)
          (nextDeadline?_eq_some hdue).2
      | none =>
        refine .clock queue hnobody (Nat.le_succ _) fun s hs due hdeadline => ?_
        rw [nextDeadline?_eq_none hdue s hs] at hdeadline
        contradiction
    · exact .inr ⟨rfl, rfl⟩

theorem move_next {a : Machine} (sound : a.Sound) : a.Move a.next := by
  rcases step_next sound with step | ⟨idle, still⟩
  · exact .inl step
  · obtain ⟨w, control⟩ := a
    obtain rfl : control = .idle := idle
    rw [still]
    exact .inr (.change (.refl w))

/-- A world in which no task has been started is sound. -/
theorem sound_of_no_tasks {w : World} (tasks : w.tasks = .empty) (suspended : w.suspended = []) :
    Sound ⟨w, .idle⟩ where
  ordered task place o hended := by
    rw [World.ended?, tasks] at hended
    contradiction
  distinct := by
    rw [show Machine.world ⟨w, .idle⟩ = w from rfl, suspended]
    exact .nil
  waits := suspended ▸ nofun
  runs := nofun
  timed := suspended ▸ nofun
  woken := suspended ▸ nofun

/-- A new session in which programs have been started, each under a token of its own. -/
def fresh (programs : List (TokenId → Task)) : Machine :=
  ⟨programs.foldl (fun w program => (w.spawn "" 0 program).2) (Session.ofConfig .default).world,
    .idle⟩

theorem sound_fresh (programs : List (TokenId → Task)) : Sound (fresh programs) := by
  have hsound (w : World) (sound : Sound ⟨w, .idle⟩) : Sound
      ⟨programs.foldl (fun w program => (w.spawn "" 0 program).2) w, .idle⟩ := by
    induction programs generalizing w with
    | nil => exact sound
    | cons program rest ih => exact ih _ (sound.spawn "" 0 program)
  exact hsound _ (sound_of_no_tasks rfl rfl)

/-- All tasks are over. -/
structure Over (a : Machine) : Prop where
  control : a.control = .idle
  queue : a.world.queue = []
  outer : a.world.outer = none
  suspended : a.world.suspended = []

end Machine

namespace Trace

/-- The trace of a world that is left to itself. -/
def alone (a : Machine) (sound : a.Sound) : Trace where
  machine m := Machine.next^[m] a
  move m := by
    have hsound : (Machine.next^[m] a).Sound := by
      induction m with
      | zero => exact sound
      | succ m ih =>
        rw [Function.iterate_succ_apply']
        rcases Machine.step_next ih with step | ⟨-, still⟩
        · exact step.sound ih
        · rwa [still]
    rw [Function.iterate_succ_apply']
    refine (Machine.step_next hsound).imp .inl fun ⟨_, still⟩ k hmk => ?_
    obtain ⟨d, rfl⟩ := Nat.exists_eq_add_of_le' hmk
    rw [Function.iterate_add_apply]
    exact Function.iterate_fixed still d
  sound := sound

variable {a : Machine} {sound : a.Sound} {m : Nat}

/-- Once all tasks are over, only the clock moves. -/
theorem machine_of_over (hover : (Machine.next^[m] a).Over) (d : Nat) :
    (alone a sound).machine (m + d) =
      ⟨{ (Machine.next^[m] a).world with now := (Machine.next^[m] a).world.now + d }, .idle⟩ := by
  show Machine.next^[m + d] a = _
  induction d with
  | zero => exact congrArg (Machine.mk _) hover.control
  | succ d ih =>
    rw [← Nat.add_assoc, Function.iterate_succ_apply', ih]
    simp only [Machine.next, hover.queue, hover.outer, World.nextDeadline?, hover.suspended,
      World.moveTo, World.waiters]
    rfl

theorem world_of_over (hover : (Machine.next^[m] a).Over) (d : Nat) :
    (alone a sound).history.world (m + d) =
      { (Machine.next^[m] a).world with now := (Machine.next^[m] a).world.now + d } :=
  congrArg Machine.world (machine_of_over hover d)

/-- Nobody runs any more then. -/
theorem lt_of_running (hover : (Machine.next^[m] a).Over) {k : Nat} {task : TaskId} {t : Task}
    (running : ((alone a sound).machine k).control = .running task t) : k < m := by
  by_contra hle
  obtain ⟨d, rfl⟩ := Nat.exists_eq_add_of_le (Nat.le_of_not_lt hle)
  rw [machine_of_over hover] at running
  contradiction

/-- Time goes on, -/
theorem time_goes_on (hover : (Machine.next^[m] a).Over) (instant : Nat) :
    ∃ k, instant ≤ (alone a sound).history.clock k := by
  refine ⟨m + instant, ?_⟩
  rw [History.clock, world_of_over hover]
  exact Nat.le_add_left _ _

/-- and whatever has not been stopped by then is not stopped at all. -/
theorem not_stopped_of_over (hover : (Machine.next^[m] a).Over) {token : TokenId}
    (h : (Machine.next^[m] a).world.isStopped token = false) (k : Nat) :
    ((alone a sound).history.world k).isStopped token = false := by
  refine ((alone a sound).history.later_of_le (Nat.le_add_left k m)).not_stopped ?_
  rw [world_of_over hover]
  exact h

/-- A world that is left to itself for some steps, and then again after something was done to it. -/
def interruptedMachine (a b : Machine) (n m : Nat) : Machine :=
  if m ≤ n then Machine.next^[m] a else Machine.next^[m - (n + 1)] b

section Interrupted

variable {b : Machine} {n : Nat}

theorem interruptedMachine_at : interruptedMachine a b n n = Machine.next^[n] a :=
  if_pos (Nat.le_refl n)

theorem interruptedMachine_after : interruptedMachine a b n (n + 1) = b := by
  rw [interruptedMachine, if_neg (Nat.not_succ_le_self n), Nat.sub_self]
  rfl

theorem interruptedMachine_succ (h : m ≠ n) :
    interruptedMachine a b n (m + 1) = (interruptedMachine a b n m).next := by
  unfold interruptedMachine
  rcases Nat.lt_or_gt_of_ne h with hlt | hgt
  · rw [if_pos (Nat.succ_le_of_lt hlt), if_pos (Nat.le_of_lt hlt), Function.iterate_succ_apply']
  · rw [if_neg (by omega), if_neg (by omega), show m + 1 - (n + 1) = m - (n + 1) + 1 by omega,
      Function.iterate_succ_apply']

theorem sound_interruptedMachine (sound : a.Sound) (move : (Machine.next^[n] a).Move b) (m : Nat) :
    (interruptedMachine a b n m).Sound := by
  induction m with
  | zero => exact sound
  | succ m ih =>
    by_cases h : m = n
    · subst h
      rw [interruptedMachine_at] at ih
      rw [interruptedMachine_after]
      exact move.sound ih
    · rw [interruptedMachine_succ h]
      exact (Machine.move_next ih).sound ih

/-- Its trace. -/
def interrupted (a b : Machine) (n : Nat) (sound : a.Sound) (move : (Machine.next^[n] a).Move b) :
    Trace where
  machine := interruptedMachine a b n
  move m := by
    refine .inl ?_
    by_cases h : m = n
    · subst h
      rwa [interruptedMachine_at, interruptedMachine_after]
    · rw [interruptedMachine_succ h]
      exact Machine.move_next (sound_interruptedMachine sound move m)
  sound := sound

end Interrupted

/-- The trace of a new session in which programs have been started. -/
def fresh (programs : List (TokenId → Task)) : Trace :=
  alone (Machine.fresh programs) (Machine.sound_fresh programs)

end Trace

end Orchestra
