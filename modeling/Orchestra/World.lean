import Orchestra.Profile
import Orchestra.Runnable
import Orchestra.World.Limit
import Orchestra.World.Stopwatch
import Orchestra.World.Token

/-!
# The surroundings of tasks

A world holds everything that tasks share: a clock, stop tokens, limits, profiles,
counters, trackers and the log, and the tasks themselves. One task runs at a time, from one wait to
the next; the tasks that may go on stand in a queue. Timers go by the clock, which only moves when told
to: what a task does up to its next wait takes no time on it. Another clock counts the time that code
takes.

A task waits for a time, for a child or for a permit. It is put into the queue when what it waits
for may have come, and looks itself whether it has. A task that has just started children is queued
once more at its first wait for them, right behind the children.
-/

namespace Orchestra

/-- How a task ended. -/
inductive Ending where
  | returned (outcome : Outcome)
  | panicked (payload : Payload)
deriving Repr

/-- What the parent of a task sees of its ending. -/
def Ending.outcome (name : String) : Ending → Outcome
  | returned o => o
  | panicked payload => .error (.panicked name payload.text)

namespace Request

/-- Whether a request ends when a token is stopped. -/
def endsWith (token : TokenId) : Request → Bool
  | .sleep _ (some t) => t = token
  | .nextChild _ (.untilStopped t) => t = token
  | .acquire _ t => t = token
  | _ => false

/-- Whether a request waits no longer once certain tokens are stopped. -/
def endedBy (stopped : TokenId → Bool) : Request → Bool
  | .sleep _ (some t) => stopped t
  | .nextChild _ (.untilStopped t) => stopped t
  | .acquire _ t => stopped t
  | _ => false

/-- Whether a request waits for a task to finish. -/
def awaits (task : TaskId) : Request → Bool
  | .nextChild pending _ => pending.any fun p => p.id = task
  | _ => false

/-- Whether a request waits for any child. -/
def awaitsChildren : Request → Bool
  | .nextChild .. => true
  | _ => false

end Request

/-- A task that does not run at present: it goes on once its request has an answer. A task that has
not run yet stands with a request that is answered at once. -/
structure Suspended where
  id : TaskId
  request : Request
  next : request.Answer → Task
  /-- The instant at which its timer fires. -/
  deadline : Option Nat
  /-- Its place among all waits, in the order in which they began. -/
  order : Nat

/-- What is known of a task apart from its program. -/
structure TaskState where
  name : String
  /-- The token made for the task, if there is one. -/
  token : Option TokenId
  /-- The limits of which the task holds a permit, once for each permit. -/
  held : List LimitId
  /-- How it ended, and its place among all endings. -/
  result : Option (Nat × Ending)
deriving Repr

/-- Everything that tasks share. -/
structure World where
  /-- The present instant. -/
  now : Nat
  /-- The clock for the time that code takes. -/
  stopwatch : Stopwatch
  /-- The number of waits and endings so far. -/
  order : Nat
  tokens : Tokens
  tasks : Table TaskState
  suspended : List Suspended
  /-- The tasks that may go on, in the order in which they will. -/
  queue : List TaskId
  /-- The task that drives the world from outside and never stands in the queue. -/
  outer : Option TaskId
  /-- Whether the running task has started children since its last wait. -/
  spawned : Bool
  limits : Table Limit
  profiles : Table Profile
  cells : Cells
  log : List LogEntry

namespace World

/-- The world in which nothing has happened. -/
def empty : World :=
  { now := 0, stopwatch := .still, order := 0, tokens := .empty, tasks := .empty, suspended := [],
    queue := [], outer := none, spawned := false, limits := .empty, profiles := .empty,
    cells := .empty, log := [] }

/-- The clock as it is shown: the whole milliseconds that have passed. -/
def clock (w : World) : Nat :=
  w.now / Duration.nanosPerMilli

/-- Whether a token is stopped. -/
def isStopped (w : World) (token : TokenId) : Bool :=
  w.tokens.isStopped token

/-! ### Waking -/

/-- Queues a task, unless it stands in the queue already or drives the world. -/
def wake (w : World) (task : TaskId) : World :=
  if w.outer = some task || w.queue.contains task then w
  else { w with queue := w.queue ++ [task] }

/-- Queues tasks one after the other. -/
def wakeAll (w : World) (tasks : List TaskId) : World :=
  tasks.foldl wake w

/-- The tasks whose wait satisfies a condition, in the order in which their waits began. -/
def waiters (w : World) (p : Suspended → Bool) : List TaskId :=
  (w.suspended.filter p).map Suspended.id

/-- Stops one token: everything below it is stopped too, and every wait that this ends may go on. The
waits on tokens below one that is no longer in use come last. -/
def stopOne (w : World) (token : TokenId) : World :=
  let reached := w.tokens.reached token
  let w := reached.foldl
    (fun w t => w.wakeAll (w.waiters fun s => s.request.endsWith t))
    { w with tokens := w.tokens.issueStop token }
  w.wakeAll (w.waiters fun s => s.request.endedBy w.isStopped)

/-- Stops tokens one after the other. -/
def stop (w : World) (tokens : List TokenId) : World :=
  tokens.foldl stopOne w

/-! ### Limits -/

/-- Changes a limit in a way that may let a task in, and wakes that task. -/
def changeLimit (w : World) (limit : LimitId) (change : Limit → Limit × Option TaskId) : World :=
  match w.limits.get? limit with
  | none => w
  | some l =>
    let (l, granted) := change l
    let w := { w with limits := w.limits.modify limit fun _ => l }
    match granted with
    | some task => w.wake task
    | none => w

/-- Gives a permit back. -/
def release (w : World) (limit : LimitId) : World :=
  w.changeLimit limit Limit.release

/-- Gives permits back, one after the other. -/
def releaseAll (w : World) (limits : List LimitId) : World :=
  limits.foldl release w

/-- Adds permits, one after the other. -/
def addPermits (w : World) (limit : LimitId) : (count : Nat) → World
  | 0 => w
  | count + 1 => (w.release limit).addPermits limit count

/-- Closes a limit and wakes every task in its queue. -/
def closeLimit (w : World) (limit : LimitId) : World :=
  match w.limits.get? limit with
  | none => w
  | some l =>
    let (l, waiting) := l.close
    let w := { w with limits := w.limits.modify limit fun _ => l }
    w.wakeAll waiting

/-- Lets a task in with a permit, which it then holds, or refuses it, or gives no answer yet. -/
def admit? (w : World) (task : TaskId) (limit : LimitId) : Option (Bool × World) :=
  match w.limits.get? limit with
  | none => some (false, w)
  | some l =>
    match l.admit? task with
    | none => none
    | some (granted, l) =>
      some (granted,
        { w with
          limits := w.limits.modify limit fun _ => l
          tasks := if granted then w.tasks.modify task fun t => { t with held := limit :: t.held }
            else w.tasks })

/-! ### Answers -/

/-- The completion of a pending child that has ended, with the place of its ending. -/
def completion? (w : World) (p : Pending) : Option (Nat × Completion) :=
  match w.tasks.get? p.id with
  | none => none
  | some t => t.result.map fun (order, ending) => (order, ⟨p.index, ending.outcome t.name⟩)

/-- The earlier of two completions. -/
def earlier : Option (Nat × Completion) → Option (Nat × Completion) → Option (Nat × Completion)
  | some a, some b => if b.1 < a.1 then some b else some a
  | some a, none => some a
  | none, b => b

/-- The completion of the pending child that ended first. -/
def firstCompletion? (w : World) (pending : List Pending) : Option Completion :=
  (pending.foldl (fun best p => earlier best (w.completion? p)) none).map Prod.snd

/-- Whether patience has ended. -/
def patienceOver (w : World) : Patience → Bool
  | .none => true
  | .untilStopped token => w.isStopped token
  | .untilDue instant => instant ≤ w.now
  | .forever => false

/-- When the timer of a request fires that is made now. -/
def deadline? (w : World) : Request → Option Nat
  | .sleep span _ => some (w.now + span.nanos)
  | .nextChild _ (.untilDue instant) => some instant
  | _ => none

/-- Whether the timer of a wait has fired. -/
def isDue (w : World) (deadline : Option Nat) : Bool :=
  match deadline with
  | some instant => instant ≤ w.now
  | none => false

/-- The answer to a request of a task, if there is one by now. Time comes before a stop where both
end a wait, and so does a completion; a stop comes before a permit. -/
def answer? (w : World) (task : TaskId) (deadline : Option Nat) :
    (r : Request) → Option (r.Answer × World)
  | .isStopped token => some (w.isStopped token, w)
  | .stop tokens => some ((), w.stop tokens)
  | .now => some (w.now, w)
  | .stopwatch =>
    some (w.stopwatch.next.reading, { w with stopwatch := w.stopwatch.next })
  | .sleep _ token =>
    if w.isDue deadline then some (true, w)
    else if token.any w.isStopped then some (false, w)
    else none
  | .nextChild pending patience =>
    match w.firstCompletion? pending with
    | some c => some (some c, w)
    | none => if pending.isEmpty || w.patienceOver patience then some (none, w) else none
  | .acquire limit token =>
    if w.isStopped token then
      some (false, w.changeLimit limit fun l => l.withdraw task)
    else w.admit? task limit
  | .newLimit permits =>
    some (w.limits.size, { w with limits := w.limits.push (.ofPermits permits) })
  | .record profile name failed =>
    some ((), { w with
      profiles := w.profiles.modify profile fun p => p.record name .zero failed })
  | .log entry => some ((), { w with log := w.log ++ [entry] })
  | .count counter =>
    some ((w.cells.counters.get? counter).getD 0,
      { w with cells := { w.cells with counters := w.cells.counters.modify counter (· + 1) } })
  | .offer tracker key state =>
    let trackers := w.cells.trackers.modify tracker fun t => t.offer key state
    some ((trackers.get? tracker).bind Tracker.value?,
      { w with cells := { w.cells with trackers } })

/-! ### Running a task from one wait to the next -/

/-- Adds a task with its program to the queue. -/
def addTask (w : World) (name : String) (token : Option TokenId) (program : Task) : World :=
  let id := w.tasks.size
  let start : Suspended := ⟨id, .now, fun _ => program, none, w.order⟩
  let w := { w with
    tasks := w.tasks.push ⟨name, token, [], none⟩
    suspended := w.suspended ++ [start]
    order := w.order + 1 }
  w.wake id

/-- Starts a task under a new token. -/
def spawn (w : World) (name : String) (parent : TokenId) (body : TokenId → Task) : Child × World :=
  let token := w.tokens.size
  let child : Child := ⟨w.tasks.size, token, name⟩
  let w := { w with tokens := w.tokens.addBelow parent, spawned := true }
  (child, w.addTask name (some token) (body token))

/-- Ends a task: its permits go back, its result is stored, and whoever waits for it is woken. -/
def finish (w : World) (task : TaskId) (ending : Ending) : World :=
  match w.tasks.get? task with
  | none => w
  | some t =>
    let w := w.releaseAll t.held
    let w := { w with
      tasks := w.tasks.modify task fun t =>
        { t with held := [], result := some (w.order, ending) }
      tokens := match t.token with
        | some token => w.tokens.close token
        | none => w.tokens
      order := w.order + 1 }
    w.wakeAll (w.waiters fun s => s.request.awaits task)

/-- Lets a task wait for the answer to its request. -/
def suspend (w : World) (task : TaskId) (r : Request) (next : r.Answer → Task) : World :=
  let limits := match r with
    | .acquire limit _ => w.limits.modify limit fun l => l.enqueue task
    | _ => w.limits
  let again := w.spawned && r.awaitsChildren
  let wait : Suspended := ⟨task, r, next, w.deadline? r, w.order⟩
  let w := { w with
    limits
    suspended := w.suspended ++ [wait]
    order := w.order + 1
    spawned := false }
  if again then w.wake task else w

/-- Runs a task until it waits or ends. -/
def exec (task : TaskId) : Task → World → World
  | .done outcome, w => w.finish task (.returned outcome)
  | .panic payload, w => w.finish task (.panicked payload)
  | .endless, w => w
  | .ask r next, w =>
    match w.answer? task (w.deadline? r) r with
    | some (a, w) => exec task (next a) w
    | none => w.suspend task r next
  | .spawn name parent body next, w =>
    let (child, w) := w.spawn name parent body
    exec task (next child) w

/-- Lets a suspended task go on, if its request has an answer by now. -/
def resume? (w : World) (task : TaskId) : Option World :=
  match w.suspended.find? fun s => s.id = task with
  | none => none
  | some s =>
    match w.answer? task s.deadline s.request with
    | none => none
    | some (a, w) =>
      some (exec task (s.next a)
        { w with suspended := w.suspended.filter (fun s => s.id != task), spawned := false })

end World

end Orchestra
