import Orchestra.Config
import Orchestra.Selection
import Orchestra.Table
import Orchestra.Task

/-!
# Runnables

A runnable is a unit of execution: it has a name, a debug text, and for every context and input a
task that produces the next data. A context carries the stop token of the current subtree and the
settings and profile of the whole run. An execution is recorded once it returns, also with an error,
and not at all if it panics.
-/

namespace Orchestra

/-- What a runnable gets besides its input. -/
structure Context where
  token : TokenId
  config : Config
  profile : ProfileId
deriving Repr

/-- The values that runnables share between calls: counters of calls and trackers of states. -/
structure Cells where
  counters : Table Nat
  trackers : Table (Tracker State)
deriving Repr

/-- No shared values. -/
def Cells.empty : Cells := ⟨.empty, .empty⟩

/-- A unit of execution. The debug text may show shared values. -/
structure Runnable where
  name : String
  describe : Cells → String
  next : Context → Data → Task

/-- A runnable that computes its output from its input alone, at once. -/
def Runnable.ofFunction (name debugText : String) (f : Data → Outcome) : Runnable :=
  ⟨name, fun _ => debugText, fun _ input => .done (f input)⟩

/-- Whether an outcome is an error. -/
def Outcome.isError : Outcome → Bool
  | .ok _ => false
  | .error _ => true

namespace Context

/-- Runs a runnable in the current task and records the call. -/
def execute (ctx : Context) (r : Runnable) (input : Data) : Task :=
  (r.next ctx input).andThen fun outcome =>
    .ask (.record ctx.profile r.name (Outcome.isError outcome)) fun _ => .done outcome

/-- The task of a run under its own token, which first waits for a permit if there is a limit. A
stop before the permit ends the run without executing the runnable. -/
def run (ctx : Context) (r : Runnable) (input : Data) (limit : Option LimitId) (token : TokenId) :
    Task :=
  match limit with
  | none => execute { ctx with token } r input
  | some l => .ask (.acquire l token) fun granted =>
    if granted then execute { ctx with token } r input else .fail .cancelled

/-- Starts a run as a child of the current task. -/
def start (ctx : Context) (r : Runnable) (input : Data) (limit : Option LimitId)
    (next : Child → Task) : Task :=
  .spawn r.name ctx.token (ctx.run r input limit) next

/-- Executes a body and goes on with its output. A cancellation of the body while the context is
stopped acknowledges the stop; any other error is the outcome. -/
def attempt (ctx : Context) (body : Runnable) (input : Data) (onOutput : Data → Task)
    (onStop : Task) : Task :=
  (ctx.execute body input).andThen fun
    | .ok output => onOutput output
    | .error e =>
      if e.isCancelled then
        .ask (.isStopped ctx.token) fun stopped => if stopped then onStop else .fail e
      else .fail e

end Context

end Orchestra
