import Orchestra.Duration
import Orchestra.Log

/-!
# Tasks

A task is a computation as a tree: it is over with an outcome, it has panicked, or it asks its
surroundings for something and goes on with the answer, or it starts a child task and goes on.
What the surroundings answer, and how long they make the task wait, is left open here, so a fact
about all answers is a fact about every schedule. `Task.andThen` continues a task with its outcome;
a panic is no outcome and ends the continued task too.
-/

namespace Orchestra

/-- A stop token. -/
abbrev TokenId := Nat

/-- A task. -/
abbrev TaskId := Nat

/-- A limit on concurrent tasks. -/
abbrev LimitId := Nat

/-- A profile. -/
abbrev ProfileId := Nat

/-- A counter of calls. -/
abbrev CounterId := Nat

/-- A shared tracker of the best state. -/
abbrev TrackerId := Nat

/-- A started child as its parent knows it. -/
structure Child where
  id : TaskId
  token : TokenId
  name : String
deriving DecidableEq, Repr

/-- A child that its parent has not seen finished, with its declared position. -/
structure Pending where
  index : Nat
  id : TaskId
deriving DecidableEq, Repr

/-- A finished child, with its declared position. -/
structure Completion where
  index : Nat
  outcome : Outcome
deriving Repr

/-- How long to wait for a child. -/
inductive Patience where
  | none
  | untilStopped (token : TokenId)
  | untilDue (instant : Nat)
  | forever
deriving DecidableEq, Repr

/-- What a task may ask for. -/
inductive Request where
  /-- Whether a token is stopped. -/
  | isStopped (token : TokenId)
  /-- Stop tokens, one after the other. -/
  | stop (tokens : List TokenId)
  /-- The present instant. -/
  | now
  /-- One more reading of the clock for the time that code takes. -/
  | stopwatch
  /-- Wait for a time; the answer is false if the token was stopped before. -/
  | sleep (span : Duration) (token : Option TokenId)
  /-- Wait for the next of the children to finish; no answer if patience ends before. -/
  | nextChild (pending : List Pending) (patience : Patience)
  /-- Wait for a permit; the answer is false if the token was stopped or the limit closed. -/
  | acquire (limit : LimitId) (token : TokenId)
  /-- A new limit. -/
  | newLimit (permits : Nat)
  /-- Record a completed call. -/
  | record (profile : ProfileId) (name : String) (failed : Bool)
  /-- Report something. -/
  | log (entry : LogEntry)
  /-- Count a call; the answer is the number of earlier ones. -/
  | count (counter : CounterId)
  /-- Offer a state to a tracker; the answer is the best state it then holds. -/
  | offer (tracker : TrackerId) (key : Double) (state : State)
deriving Repr

/-- The answers to a request. -/
@[reducible] def Request.Answer : Request → Type
  | .isStopped _ => Bool
  | .stop _ => Unit
  | .now => Nat
  | .stopwatch => Nat
  | .sleep .. => Bool
  | .nextChild .. => Option Completion
  | .acquire .. => Bool
  | .newLimit _ => LimitId
  | .record .. => Unit
  | .log _ => Unit
  | .count _ => Nat
  | .offer .. => Option State

/-- A computation that may ask its surroundings and start children. -/
inductive Task where
  /-- Over with an outcome. -/
  | done (outcome : Outcome)
  /-- Over without an outcome. -/
  | panic (payload : Payload)
  /-- Cut off: an unbounded loop has used up its horizon. -/
  | endless
  /-- Asks and goes on with the answer. -/
  | ask (request : Request) (next : request.Answer → Task)
  /-- Starts a child under a new token below `parent` and goes on. -/
  | spawn (name : String) (parent : TokenId) (body : TokenId → Task) (next : Child → Task)

namespace Task

instance : Inhabited Task := ⟨.endless⟩

/-- The task that succeeds at once. -/
def succeed (d : Data) : Task :=
  done (.ok d)

/-- The task that fails at once. -/
def fail (e : RunError) : Task :=
  done (.error e)

/-- Continues a task with its outcome. -/
def andThen : Task → (Outcome → Task) → Task
  | done o, f => f o
  | panic p, _ => panic p
  | endless, _ => endless
  | ask r next, f => ask r fun a => (next a).andThen f
  | spawn name parent body next, f => spawn name parent body fun c => (next c).andThen f

@[simp] theorem done_andThen (o : Outcome) (f : Outcome → Task) : (done o).andThen f = f o := rfl

@[simp] theorem panic_andThen (p : Payload) (f : Outcome → Task) :
    (panic p).andThen f = panic p := rfl

@[simp] theorem endless_andThen (f : Outcome → Task) : endless.andThen f = endless := rfl

@[simp] theorem ask_andThen (r : Request) (next : r.Answer → Task) (f : Outcome → Task) :
    (ask r next).andThen f = ask r fun a => (next a).andThen f := rfl

@[simp] theorem spawn_andThen (name : String) (parent : TokenId) (body : TokenId → Task)
    (next : Child → Task) (f : Outcome → Task) :
    (spawn name parent body next).andThen f =
      spawn name parent body fun c => (next c).andThen f := rfl

/-- Continuing with the outcome itself changes nothing. -/
@[simp] theorem andThen_done (t : Task) : t.andThen done = t := by
  induction t with
  | done | panic | endless => rfl
  | ask r next ih => simp [ih]
  | spawn name parent body next _ ih => simp [ih]

/-- Continuations compose. -/
theorem andThen_assoc (t : Task) (f g : Outcome → Task) :
    (t.andThen f).andThen g = t.andThen fun o => (f o).andThen g := by
  induction t with
  | done | panic | endless => rfl
  | ask r next ih => simp [ih]
  | spawn name parent body next _ ih => simp [ih]

/-- The task that ends with a computed outcome, continued on success only. -/
def andThenOk (t : Task) (f : Data → Task) : Task :=
  t.andThen fun
    | .ok d => f d
    | .error e => fail e

end Task

end Orchestra
