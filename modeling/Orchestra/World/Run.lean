import Orchestra.World

/-!
# Running a world

Tasks that may go on run in the order of the queue. Only when the queue is empty does the clock
move, and then to the next instant at which a timer fires; the tasks whose timers fire together are
queued in the order in which the timers were set.

A task may also drive the world from outside, as the flow that waits for a run does: it goes on when
the queue is empty, and ahead of the queue when the clock has just moved to the instant of its own
timer.
-/

namespace Orchestra.World

/-- The number of turns after which a run is cut off, which no run of a finite program reaches. -/
def horizon : Nat := 0x10000000000

/-- Lets the first task of the queue have its turn. -/
def turn? (w : World) : Option World :=
  match w.queue with
  | [] => none
  | task :: rest =>
    let w := { w with queue := rest }
    some ((w.resume? task).getD w)

/-- Lets the queue run empty, in at most `count` turns. -/
def settle : (count : Nat) → World → World
  | 0, w => w
  | count + 1, w =>
    match w.turn? with
    | some w => settle count w
    | none => w

/-- The earlier of two instants, where there are two. -/
def earlierInstant : Option Nat → Option Nat → Option Nat
  | some a, some b => some (min a b)
  | some a, none => some a
  | none, b => b

/-- The next instant at which a timer fires. -/
def nextDeadline? (w : World) : Option Nat :=
  (w.suspended.map Suspended.deadline).foldl earlierInstant none

/-- Whether the timer of a wait has fired at an instant. -/
def Suspended.dueAt (instant : Nat) (s : Suspended) : Bool :=
  match s.deadline with
  | some d => d ≤ instant
  | none => false

/-- Moves the clock to an instant and queues the tasks whose timers have fired by then. -/
def moveTo (w : World) (instant : Nat) : World :=
  let w := { w with now := instant }
  w.wakeAll (w.waiters (Suspended.dueAt instant))

/-- Runs everything that is due up to and including an instant, and moves the clock there. -/
def advanceTo (instant : Nat) : (count : Nat) → World → World
  | 0, w => w
  | count + 1, w =>
    let w := w.settle horizon
    match w.nextDeadline? with
    | some d =>
      if d ≤ instant then advanceTo instant count (w.moveTo d) else { w with now := instant }
    | none => { w with now := instant }

/-- Runs everything that is due in a span of time. -/
def advance (w : World) (span : Duration) : World :=
  w.advanceTo (w.now + span.nanos) horizon

/-- How a task ended, if it has. -/
def ending? (w : World) (task : TaskId) : Option Ending :=
  ((w.tasks.get? task).bind TaskState.result).map Prod.snd

/-- Whether the timer of a task has fired. -/
def timerFired (w : World) (task : TaskId) : Bool :=
  w.suspended.any fun s => s.id = task && Suspended.dueAt w.now s

/-- Lets a task drive the world until it ends. -/
def drive (task : TaskId) : (count : Nat) → World → World
  | 0, w => w
  | count + 1, w =>
    if (w.ending? task).isSome then w
    else
      match w.turn? with
      | some w => drive task count w
      | none =>
        match w.resume? task with
        | some w => drive task count w
        | none =>
          match w.nextDeadline? with
          | none => w
          | some d =>
            let w := w.moveTo d
            if w.timerFired task then drive task count ((w.resume? task).getD w)
            else drive task count w

/-- Runs a program as the task that drives the world, from its first step to its end. Without an
ending the program waits for something that never comes. -/
def perform (w : World) (program : Task) : Option Ending × World :=
  let task := w.tasks.size
  let w := { w with outer := some task }.addTask "" none program
  let w := drive task horizon ((w.resume? task).getD w)
  (w.ending? task, { w with outer := none })

end Orchestra.World
