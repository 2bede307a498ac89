import Orchestra.Task

/-!
# Limits on concurrent tasks

A limit hands out permits in the order in which they were asked for. A permit given back goes to the
first task in the queue, as a grant that the task takes up on its next turn, and is available again
if nobody waits. A closed limit admits nobody.
-/

namespace Orchestra

/-- A limit: permits that nobody holds, tasks that wait, and tasks that were granted a permit they
have not taken up yet. -/
structure Limit where
  available : Nat
  closed : Bool
  queue : List TaskId
  granted : List TaskId
deriving Repr

namespace Limit

/-- A limit with permits. -/
def ofPermits (permits : Nat) : Limit :=
  ⟨permits, false, [], []⟩

/-- Puts a task into the queue. -/
def enqueue (l : Limit) (task : TaskId) : Limit :=
  { l with queue := l.queue ++ [task] }

/-- Gives a permit back; the task that is granted it, if any, is to be woken. -/
def release (l : Limit) : Limit × Option TaskId :=
  match l.queue with
  | [] => ({ l with available := l.available + 1 }, none)
  | task :: rest => ({ l with queue := rest, granted := l.granted ++ [task] }, some task)

/-- Takes a task out that no longer waits; a permit granted to it is given back. -/
def withdraw (l : Limit) (task : TaskId) : Limit × Option TaskId :=
  if l.granted.contains task then release { l with granted := l.granted.erase task }
  else ({ l with queue := l.queue.erase task }, none)

/-- Lets a task in with a permit, or refuses it, or gives no answer yet. Nobody waits for a limit that
is closed, so nobody is to be woken if it refuses a task that was granted a permit before. -/
def admit? (l : Limit) (task : TaskId) : Option (Bool × Limit) :=
  if l.closed then some (false, (l.withdraw task).1)
  else if l.granted.contains task then some (true, { l with granted := l.granted.erase task })
  else if 0 < l.available then some (true, { l with available := l.available - 1 })
  else none

/-- Closes the limit; every task in the queue is to be woken. -/
def close (l : Limit) : Limit × List TaskId :=
  ({ l with closed := true, queue := [] }, l.queue)

end Limit

end Orchestra
