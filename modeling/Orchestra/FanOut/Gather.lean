import Orchestra.FanOut

/-!
# Gathering all children

A tally accounts for completions in whatever order they come: outputs by position, failures in
completion order. `FanOut.gather` waits for every child. Under fail-fast the first failure stops the
others and is raised. Under best effort failures are recorded, and only a fan-out without any
output fails. A stop of the context stops every child and waits for them within the grace period;
from then on failures are recorded and never raised. A child that acknowledges a stop leaves no
output and is no failure.
-/

namespace Orchestra

/-- What is known of the children so far. -/
structure Tally where
  outputs : List (Option Data)
  failures : List (FailureMarker × RunError)
deriving Repr

/-- What the children came to: outputs by position, and markers in index order. -/
structure Gathered where
  outputs : List (Option Data)
  markers : List FailureMarker
deriving Repr

/-- Markers in the order of their indices. -/
def FailureMarker.sorted (markers : List FailureMarker) : List FailureMarker :=
  markers.mergeSort fun a b => a.index ≤ b.index

/-- The outputs in declared order as one list of states. -/
def Gathered.states (g : Gathered) : List State :=
  g.outputs.flatMap fun output => (output.map Data.states).getD []

namespace Tally

/-- The tally of the given number of children, none of which has finished. -/
def empty (children : Nat) : Tally :=
  ⟨List.replicate children none, []⟩

/-- Accounts for one completion, or refuses it with the error to raise. -/
def accept (policy : FailurePolicy) (name : Nat → String) (t : Tally) (c : Completion) :
    Except RunError Tally :=
  match c.outcome with
  | .ok d => .ok { t with outputs := t.outputs.set c.index (some d) }
  | .error e =>
    if e.isCancelled then .ok t
    else
      match policy with
      | .failFast => .error e
      | .bestEffort =>
        let marker := FailureMarker.ofError c.index (name c.index) e
        .ok { t with failures := t.failures ++ [(marker, e)] }

/-- The report on a completion that `accept` records as a failure. -/
def report? (policy : FailurePolicy) (owner : String) (c : Completion) : Option LogEntry :=
  match c.outcome, policy with
  | .error e, .bestEffort =>
    if e.isCancelled then none else some (.childFailed owner c.index e)
  | _, _ => none

/-- What the children come to: an error if none of them gave an output. -/
def finish (t : Tally) : Except RunError Gathered :=
  if t.outputs.any Option.isSome then
    .ok ⟨t.outputs, FailureMarker.sorted (t.failures.map Prod.fst)⟩
  else
    match t.failures with
    | [] => .error .cancelled
    | (_, first) :: _ => .error (.allFailed t.failures.length first)

end Tally

/-- Reports something, if there is something to report. -/
def Task.reporting (entry : Option LogEntry) (next : Task) : Task :=
  match entry with
  | some e => .ask (.log e) fun _ => next
  | none => next

namespace FanOut

/-- How a fan-out treats failures and stops. -/
structure Rules where
  owner : String
  policy : FailurePolicy
  grace : Duration

/-- Accounts for the completions taken after a stop, recording failures whatever the policy. -/
def acceptLate (rules : Rules) (f : FanOut) :
    List Completion → Tally → (Tally → Task) → Task
  | [], tally, next => next tally
  | c :: rest, tally, next =>
    let tally' := match tally.accept .bestEffort f.name c with
      | .ok t => t
      | .error _ => tally
    Task.reporting (Tally.report? .bestEffort rules.owner c)
      (acceptLate rules f rest tally' next)

/-- Goes on with what the children come to, or fails. -/
def conclude (tally : Tally) (next : Gathered → Task) : Task :=
  match tally.finish with
  | .ok gathered => next gathered
  | .error e => .fail e

/-- Ends a stopped fan-out with what has finished when the grace period is over. -/
def gatherStopped (rules : Rules) (f : FanOut) (tally : Tally) (next : Gathered → Task) : Task :=
  f.stopAll <| f.collectWithin rules.grace fun f completions =>
    acceptLate rules f completions tally fun tally =>
      f.abandon rules.owner (conclude tally next)

/-- Waits for at most `count` pending children. -/
def gatherNext (ctx : Context) (rules : Rules) (next : Gathered → Task) :
    (count : Nat) → FanOut → Tally → Task
  | 0, _, tally => conclude tally next
  | count + 1, f, tally =>
    .ask (.nextChild f.pending (.untilStopped ctx.token)) fun
      | none => f.gatherStopped rules tally next
      | some c =>
        let f := f.take c.index
        match tally.accept rules.policy f.name c with
        | .error e => f.raise rules.owner rules.grace e
        | .ok tally =>
          Task.reporting (Tally.report? rules.policy rules.owner c)
            (gatherNext ctx rules next count f tally)

/-- Waits for every child and goes on with their outputs, or fails. -/
def gather (ctx : Context) (rules : Rules) (f : FanOut) (next : Gathered → Task) : Task :=
  gatherNext ctx rules next f.outstanding f (.empty f.size)

end FanOut

end Orchestra
