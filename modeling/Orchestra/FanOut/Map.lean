import Orchestra.Duration
import Orchestra.FanOut.Gather

/-!
# Mapping a worker over a list

Every state of the input list is given to the worker in a child of its own, at most a given number
at once. The output follows the input order, and each output must be a single state.
-/

namespace Orchestra

/-- A worker with a bound on concurrent elements, or none. -/
structure Map where
  worker : Runnable
  maxConcurrency : Option Nat
  policy : Option FailurePolicy
  stopGrace : Option Duration

namespace Map

/-- The largest number of permits of a limit. -/
def maxPermits : Nat := 2305843009213693951

/-- The bound that holds under the settings of a run, which is at least one. -/
def bound (m : Map) (config : Config) : Option Nat :=
  (m.maxConcurrency <|> config.mapLimit).map fun bound => max bound 1

/-- How failures and stops are treated under the settings of a run. -/
def rules (m : Map) (config : Config) : FanOut.Rules :=
  { owner := "Map"
    policy := m.policy.getD config.policy
    grace := m.stopGrace.getD config.stopGrace }

/-- The panic of a limit that would have too many permits. -/
def tooManyPermits : String :=
  "a semaphore may not have more than MAX_PERMITS permits (" ++ toString maxPermits ++ ")"

/-- Goes on with a limit for the given bound, if there is one. A bound that no limit can hold is a
panic. -/
def withLimit (bound : Option Nat) (next : Option LimitId → Task) : Task :=
  match bound with
  | none => next none
  | some permits =>
    if permits ≤ maxPermits then .ask (.newLimit permits) fun l => next (some l)
    else .panic tooManyPermits

/-- The outputs of the worker as single states. -/
def singleStates (worker : String) : List Data → Except RunError (List State)
  | [] => .ok []
  | d :: rest =>
    match d.toState worker with
    | .error e => .error e
    | .ok s => (singleStates worker rest).map (s :: ·)

/-- The list of outputs with the markers of the elements that failed. -/
def result (worker : String) (gathered : Gathered) : Outcome :=
  (singleStates worker (gathered.outputs.filterMap id)).map fun states =>
    .many ⟨states, gathered.markers⟩

/-- Runs the worker on the states of a list. -/
def mapStates (m : Map) (ctx : Context) (states : List State) : Task :=
  if states.isEmpty then .succeed (.ofList [])
  else
    withLimit (m.bound ctx.config) fun limit =>
      FanOut.start ctx limit (states.map fun s => (m.worker, .one s)) fun f =>
        f.gather ctx (m.rules ctx.config) fun gathered =>
          .done (result m.worker.name gathered)

/-- The debug text. -/
def debugText (m : Map) (cells : Cells) : String :=
  Text.debugRecord "Map"
    [("worker", m.worker.describe cells),
     ("max_concurrency", Text.debugOption (m.maxConcurrency.map toString)),
     ("policy", Text.debugOption (m.policy.map FailurePolicy.debugText)),
     ("stop_grace", Text.debugOption (m.stopGrace.map Duration.debugText))]

/-- The map as a runnable. -/
def runnable (m : Map) : Runnable :=
  ⟨"Map", m.debugText, fun ctx input =>
    match input.toStates "Map" with
    | .ok states => m.mapStates ctx states.items
    | .error e => .fail e⟩

/-- The map over a worker with the settings of the run. -/
def ofWorker (worker : Runnable) : Map :=
  ⟨worker, none, none, none⟩

end Map

end Orchestra
