import Mathlib.Logic.Relation
import Orchestra.Proofs.World.History

/-!
# The steps of a world

The functions that run a world do so in small steps: a task that has its turn goes on with the answer
to its request, a running task asks, starts children, waits or ends, and time passes when nobody can
go on. `Machine.Step` lists these steps, and `Machine.Touch` what may be done to a world from outside
while no task is running.
-/

namespace Orchestra

/-- What a world is busy with: nothing, the turn of a task, or a task with the rest of its program. -/
inductive Control where
  | idle
  | turnOf (task : TaskId)
  | running (task : TaskId) (rest : Task)

/-- A world between two steps. -/
structure Machine where
  world : World
  control : Control

namespace Machine

/-- The steps in which a world runs. -/
inductive Step : Machine → Machine → Prop
  | answer {w w' : World} {task : TaskId} {r : Request} {next : r.Answer → Task} {a : r.Answer}
      (there : w.answer? task (w.deadline? r) r = some (a, w')) :
      Step ⟨w, .running task (.ask r next)⟩ ⟨w', .running task (next a)⟩
  | suspend {w : World} {task : TaskId} {r : Request} {next : r.Answer → Task}
      (unanswered : w.answer? task (w.deadline? r) r = none) :
      Step ⟨w, .running task (.ask r next)⟩ ⟨w.suspend task r next, .idle⟩
  | spawn {w : World} {task : TaskId} {name : String} {parent : TokenId} {body : TokenId → Task}
      {next : Child → Task} :
      Step ⟨w, .running task (.spawn name parent body next)⟩
        ⟨(w.spawn name parent body).2, .running task (next (w.spawn name parent body).1)⟩
  | done {w : World} {task : TaskId} {o : Outcome} :
      Step ⟨w, .running task (.done o)⟩ ⟨w.finish task (.returned o), .idle⟩
  | panic {w : World} {task : TaskId} {payload : Payload} :
      Step ⟨w, .running task (.panic payload)⟩ ⟨w.finish task (.panicked payload), .idle⟩
  | endless {w : World} {task : TaskId} : Step ⟨w, .running task .endless⟩ ⟨w, .idle⟩
  /-- The first task of the queue has its turn. -/
  | turn {w : World} {task : TaskId} {rest : List TaskId} (queue : w.queue = task :: rest) :
      Step ⟨w, .idle⟩ ⟨{ w with queue := rest }, .turnOf task⟩
  /-- The task that drives the world has its turn. -/
  | drive {w : World} {task : TaskId} (outer : w.outer = some task) :
      Step ⟨w, .idle⟩ ⟨w, .turnOf task⟩
  | resume {w w' : World} {task : TaskId} {s : Suspended} {a : s.request.Answer}
      (found : (w.suspended.find? fun s => s.id = task) = some s)
      (there : w.answer? task s.deadline s.request = some (a, w')) :
      Step ⟨w, .turnOf task⟩
        ⟨{ w' with suspended := w'.suspended.filter (fun s => s.id != task), spawned := false },
          .running task (s.next a)⟩
  | stay {w : World} {task : TaskId} (unanswered : w.resume? task = none) :
      Step ⟨w, .turnOf task⟩ ⟨w, .idle⟩
  /-- Time passes up to the next timer at most, and only when nobody can go on. -/
  | clock {w : World} {instant : Nat} (queue : w.queue = [])
      (outer : ∀ task, w.outer = some task → w.resume? task = none) (le : w.now ≤ instant)
      (before : ∀ s ∈ w.suspended, ∀ due, s.deadline = some due → instant ≤ due) :
      Step ⟨w, .idle⟩ ⟨w.moveTo instant, .idle⟩

/-- What may be done to a world from outside. -/
inductive Touch : Machine → Machine → Prop
  /-- A run is started. -/
  | start (w : World) (name : String) (parent : TokenId) (body : TokenId → Task) :
      Touch ⟨w, .idle⟩ ⟨(w.spawn name parent body).2, .idle⟩
  /-- A task begins to drive the world. -/
  | enter (w : World) (program : Task) (outer : w.outer = none) :
      Touch ⟨w, .idle⟩ ⟨{ w with outer := some w.tasks.size }.addTask "" none program, .idle⟩
  /-- The task that drives the world ends or gives up. -/
  | leave (w : World) (outer : ∀ task, w.outer = some task → w.resume? task = none) :
      Touch ⟨w, .idle⟩ ⟨{ w with outer := none }, .idle⟩
  /-- Tokens are stopped, contexts or limits are made, or something else is done by which no task
  begins or ends. -/
  | change {w w' : World} (steady : w.Steady w') : Touch ⟨w, .idle⟩ ⟨w', .idle⟩

/-- A step of the world, or something that is done to it. -/
def Move (a b : Machine) : Prop :=
  Step a b ∨ Touch a b

/-- From one machine to the next a task starts a child. -/
def Starts (a b : Machine) (parent : TaskId) (c : Child) : Prop :=
  ∃ name token body next, a.control = .running parent (.spawn name token body next) ∧
    a.world.spawn name token body = (c, b.world)

/-- Steps one after the other. -/
abbrev Steps : Machine → Machine → Prop :=
  Relation.ReflTransGen Step

/-- Moves one after the other. -/
abbrev Moves : Machine → Machine → Prop :=
  Relation.ReflTransGen Move

theorem Steps.moves {a b : Machine} (steps : Steps a b) : Moves a b :=
  Relation.ReflTransGen.mono (fun _ _ step => .inl step) _ _ steps

variable {w w' : World} {task : TaskId}

/-! ### Who may go on -/

/-- Whether a child that is waited for has ended depends on the endings of such children only. -/
theorem childEnded_congr_of_not_awaits {r : Request} (hr : r.awaits task = false)
    (h : ∀ task' ≠ task, w'.ended? task' = w.ended? task') : w'.childEnded r = w.childEnded r := by
  cases r with
  | nextChild pending patience =>
    have hiff : w'.childEnded (.nextChild pending patience) = false ↔
        w.childEnded (.nextChild pending patience) = false := by
      rw [World.childEnded_eq_false, World.childEnded_eq_false]
      refine forall₂_congr fun p hp => ?_
      have hne : p.id ≠ task := fun heq => by
        have hany := List.any_eq_false.mp hr p hp
        exact hany (decide_eq_true heq)
      rw [h p.id hne]
    exact Bool.eq_iff_iff.mpr (by simpa using not_congr hiff)
  | _ => rfl

theorem childEnded_congr (h : ∀ task, w'.ended? task = w.ended? task) (r : Request) :
    w'.childEnded r = w.childEnded r := by
  cases r with
  | nextChild pending patience =>
    have hcompletion : w'.completion? = w.completion? := funext fun p => by
      rw [World.completion?_eq, World.completion?_eq, h]
    rw [World.childEnded, World.childEnded, World.firstCompletion?, World.firstCompletion?,
      hcompletion]
  | _ => rfl

/-- Whoever waits for a child that has ended has an answer, -/
theorem answer?_of_childEnded {r : Request} (h : w.childEnded r = true) (deadline : Option Nat) :
    (w.answer? task deadline r).isSome := by
  cases r with
  | nextChild pending patience =>
    obtain ⟨c, hc⟩ := Option.isSome_iff_exists.mp h
    simp only [World.answer?, hc]
    rfl
  | _ => contradiction

/-- and so has whoever waits for a time that has come. -/
theorem answer?_of_isDue {r : Request} {deadline : Option Nat} (h : w.isDue deadline = true)
    (timed : ∀ due, deadline = some due → (∃ span token, r = .sleep span token) ∨
      ∃ pending, r = .nextChild pending (.untilDue due)) :
    (w.answer? task deadline r).isSome := by
  cases deadline with
  | none => contradiction
  | some due =>
    rcases timed due rfl with ⟨span, token, rfl⟩ | ⟨pending, rfl⟩
    · simp only [World.answer?, h, if_true]
      rfl
    · have hover : w.patienceOver (.untilDue due) = true := h
      simp only [World.answer?, hover, Bool.or_true, if_true]
      split <;> rfl

/-- Only waits for a time have timers. -/
theorem timed_deadline? {r : Request} {due : Nat} (h : w.deadline? r = some due) :
    (∃ span token, r = .sleep span token) ∨ ∃ pending, r = .nextChild pending (.untilDue due) := by
  cases r with
  | sleep span token => exact .inl ⟨span, token, rfl⟩
  | nextChild pending patience =>
    cases patience with
    | untilDue instant =>
      cases h
      exact .inr ⟨pending, rfl⟩
    | _ => contradiction
  | _ => contradiction

/-- Without an answer no child that is waited for has ended, and no timer has fired. -/
theorem of_answer?_eq_none {r : Request} {deadline : Option Nat}
    (h : w.answer? task deadline r = none)
    (timed : ∀ due, deadline = some due → (∃ span token, r = .sleep span token) ∨
      ∃ pending, r = .nextChild pending (.untilDue due)) :
    w.childEnded r = false ∧ w.isDue deadline = false := by
  constructor
  · refine Bool.eq_false_iff.mpr fun hended => ?_
    have hsome : (w.answer? task deadline r).isSome := answer?_of_childEnded hended deadline
    rw [h] at hsome
    contradiction
  · refine Bool.eq_false_iff.mpr fun hdue => ?_
    have hsome : (w.answer? task deadline r).isSome := answer?_of_isDue hdue timed
    rw [h] at hsome
    contradiction

end Machine

end Orchestra
