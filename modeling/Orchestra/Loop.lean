import Orchestra.Duration
import Orchestra.Runnable

/-!
# Loops

A loop feeds the output of its body back as the next input. Before each iteration it looks, in this
order, at the number of iterations, the time budget and a stop of its context; after each one at a
predicate over the best output so far. A stopped loop returns what it holds rather than an error.

Four loops differ in what they hold: the last output, all outputs, the best output with a bound on
iterations in a row without improvement, and the input until an output improves on it.

The budget is measured from the start of the loop on the clock for the time that code takes. A loop
without a bound on its iterations is cut off after `Loop.horizon` of them, which is more than patience
lets a loop come to: keys and patience are words of 64 bits.
-/

namespace Orchestra

/-- When a loop ends, and the key that ranks its outputs. -/
structure Criteria where
  maxIterations : Option Nat
  budget : Option Duration
  terminate : Option (Data → Bool)
  key : Key

namespace Criteria

/-- Whether the time from one reading of the clock to another has used up the budget. -/
def usedUp (c : Criteria) (started reading : Nat) : Bool :=
  match c.budget with
  | none => false
  | some budget => budget.nanos ≤ reading - started

/-- Whether the predicate holds of the best output so far. -/
def holdsOf (c : Criteria) (best : Option Data) : Bool :=
  match c.terminate, best with
  | some holds, some d => holds d
  | _, _ => false

/-- The debug text, which hides the key. -/
def debugText (c : Criteria) : String :=
  Text.debugOpenRecord "LoopCriteria"
    [("max_iter", Text.debugOption (c.maxIterations.map toString)),
     ("max_time", Text.debugOption (c.budget.map Duration.debugText)),
     ("terminate", Text.debugBool c.terminate.isSome)]

end Criteria

/-- A body to repeat under criteria. -/
structure Loop where
  body : Runnable
  criteria : Criteria

namespace Loop

/-- The number of pairs of words of 64 bits. -/
def horizon : Nat := UInt64.size * UInt64.size

/-- The number of iterations that may be started. -/
def rounds (l : Loop) : Nat :=
  l.criteria.maxIterations.getD horizon

/-- The end of a loop that has no iteration left: its result, or none at all if it has no bound. -/
def outOfRounds (l : Loop) (result : Data) : Task :=
  if l.criteria.maxIterations.isSome then .succeed result else .endless

/-- Goes on with a reading of the clock, which nobody looks at without a budget. -/
def timed (l : Loop) (next : Nat → Task) : Task :=
  match l.criteria.budget with
  | none => next 0
  | some _ => .ask .stopwatch next

/-- Starts an iteration unless the time is used up or the context is stopped. -/
def guarded (l : Loop) (ctx : Context) (started : Nat) (result : Data) (iteration : Unit → Task) :
    Task :=
  l.timed fun reading =>
    if l.criteria.usedUp started reading then .succeed result
    else .ask (.isStopped ctx.token) fun stopped =>
      if stopped then .succeed result else iteration ()

/-- The tracker after an output, offered under the key of the loop. -/
def observe (l : Loop) (best : Tracker Data) (output : Data) : Tracker Data :=
  best.offer (output.key l.criteria.key) output

/-- The tracker of a loop that needs it only for its predicate. -/
def observeForPredicate (l : Loop) (best : Tracker Data) (output : Data) : Tracker Data :=
  if l.criteria.terminate.isSome then l.observe best output else best

/-- Repeats the body for the given number of rounds and returns its last output. -/
def repeatLast (l : Loop) (ctx : Context) (started : Nat) : Nat → Tracker Data → Data → Task
  | 0, _, held => l.outOfRounds held
  | rounds + 1, best, held =>
    l.guarded ctx started held fun _ =>
      ctx.attempt l.body held
        (fun output =>
          let best := l.observeForPredicate best output
          if l.criteria.holdsOf best.value? then .succeed output
          else repeatLast l ctx started rounds best output)
        (.succeed held)

/-- The result of a loop that collects its outputs. -/
def collected (history : List State) : Data :=
  .ofList history

/-- Repeats the body for the given number of rounds and returns all outputs, which must be single
states. -/
def repeatCollecting (l : Loop) (ctx : Context) (started : Nat) :
    Nat → Tracker Data → List State → State → Task
  | 0, _, history, _ => l.outOfRounds (collected history)
  | rounds + 1, best, history, held =>
    l.guarded ctx started (collected history) fun _ =>
      ctx.attempt l.body (.one held)
        (fun output =>
          match output.toState l.body.name with
          | .error e => .fail e
          | .ok state =>
            let history := history ++ [state]
            let best := l.observeForPredicate best (.one state)
            if l.criteria.holdsOf best.value? then .succeed (collected history)
            else repeatCollecting l ctx started rounds best history state)
        (.succeed (collected history))

/-- Whether the bound on iterations in a row without improvement is reached. -/
def impatient (patience : Option Nat) (stale : Nat) : Bool :=
  match patience with
  | some bound => bound ≤ stale
  | none => false

/-- The number of iterations in a row without improvement, after an output. -/
def staleAfter (l : Loop) (best : Tracker Data) (stale : Nat) (output : Data) : Nat :=
  if best.improves (output.key l.criteria.key) then 0 else stale + 1

/-- Repeats the body for the given number of rounds and returns the best output. -/
def repeatBest (l : Loop) (ctx : Context) (started : Nat) (patience : Option Nat) :
    Nat → Tracker Data → Nat → Data → Task
  | 0, best, _, held => l.outOfRounds (best.value?.getD held)
  | rounds + 1, best, stale, held =>
    l.guarded ctx started (best.value?.getD held) fun _ =>
      ctx.attempt l.body held
        (fun output =>
          let stale := l.staleAfter best stale output
          let best := l.observe best output
          if impatient patience stale || l.criteria.holdsOf best.value? then
            .succeed (best.value?.getD output)
          else repeatBest l ctx started patience rounds best stale output)
        (.succeed (best.value?.getD held))

/-- Tries the body on the baseline for the given number of rounds, and returns the first output that
improves on it, or else the baseline. -/
def retry (l : Loop) (ctx : Context) (started : Nat) (maxTries : Option Nat) (baseline : Data) :
    Nat → Nat → Task
  | 0, _ => l.outOfRounds baseline
  | rounds + 1, tries =>
    l.guarded ctx started baseline fun _ =>
      if impatient maxTries tries then .succeed baseline
      else
        ctx.attempt l.body baseline
          (fun output =>
            if (output.key l.criteria.key).below (baseline.key l.criteria.key) then .succeed output
            else if l.criteria.holdsOf (some baseline) then .succeed baseline
            else retry l ctx started maxTries baseline rounds (tries + 1))
          (.succeed baseline)

/-- The debug text of a loop, with further fields after the common ones. -/
def debugText (l : Loop) (name : String) (more : List (String × String)) (cells : Cells) :
    String :=
  Text.debugRecord name
    ([("body", l.body.describe cells), ("criteria", l.criteria.debugText)] ++ more)

/-- The loop that returns its last output. -/
def last (l : Loop) : Runnable :=
  ⟨"Loop", l.debugText "Loop" [], fun ctx input =>
    l.timed fun started => l.repeatLast ctx started l.rounds .empty input⟩

/-- The loop that returns all its outputs. It starts from a single state. -/
def unwind (l : Loop) : Runnable :=
  ⟨"Unwind", l.debugText "Unwind" [], fun ctx input =>
    match input.toState "Unwind" with
    | .error e => .fail e
    | .ok state => l.timed fun started => l.repeatCollecting ctx started l.rounds .empty [] state⟩

/-- The loop that returns its best output. -/
def best (l : Loop) (patience : Option Nat) : Runnable :=
  ⟨"LoopUntilNoImprovement",
    l.debugText "LoopUntilNoImprovement"
      [("patience", Text.debugOption (patience.map toString))],
    fun ctx input => l.timed fun started => l.repeatBest ctx started patience l.rounds .empty 0 input⟩

/-- The loop that retries its input until an output improves on it. -/
def improve (l : Loop) (maxTries : Option Nat) : Runnable :=
  ⟨"LoopWhileNoImprovement",
    l.debugText "LoopWhileNoImprovement"
      [("max_tries", Text.debugOption (maxTries.map toString))],
    fun ctx input => l.timed fun started => l.retry ctx started maxTries input l.rounds 0⟩

end Loop

end Orchestra
