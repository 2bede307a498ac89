import Orchestra.Duration
import Orchestra.FanOut.Gather

/-!
# Races

Children run side by side until one decides: the first to give an output, and under fail-fast also
the first to fail. Children that finish together are ranked by position. Then every other child is
stopped; those that finish within the grace period still contribute their outputs after the decisive
one, or a marker if they failed.
-/

namespace Orchestra

/-- Contenders, whose inputs are distributed as for branches. -/
structure Race where
  children : List Runnable
  fanIn : FanIn
  policy : Option FailurePolicy
  grace : Option Duration

/-- What is known of the contenders so far. -/
structure RaceLedger where
  decisive : Option Data
  late : List (Nat × Data)
  markers : List FailureMarker
  firstError : Option RunError
deriving Repr

namespace RaceLedger

/-- Nothing is known. -/
def empty : RaceLedger := ⟨none, [], [], none⟩

/-- Accounts for one completion, or refuses it with the error to raise. -/
def observe (policy : FailurePolicy) (name : Nat → String) (l : RaceLedger) (c : Completion) :
    Except RunError RaceLedger :=
  match c.outcome with
  | .ok d =>
    match l.decisive with
    | none => .ok { l with decisive := some d }
    | some _ => .ok { l with late := l.late ++ [(c.index, d)] }
  | .error e =>
    if e.isCancelled then .ok l
    else if l.decisive.isNone && policy = .failFast then .error e
    else
      .ok { l with
        markers := l.markers ++ [FailureMarker.ofError c.index (name c.index) e]
        firstError := l.firstError <|> some e }

/-- The report on a completion that `observe` records as a failure. -/
def report? (owner : String) (c : Completion) : Option LogEntry :=
  match c.outcome with
  | .ok _ => none
  | .error e => if e.isCancelled then none else some (.contenderFailed owner c.index e)

/-- The states of the late outputs, in declared order. -/
def lateStates (l : RaceLedger) : List State :=
  (l.late.mergeSort fun a b => a.1 ≤ b.1).flatMap fun (_, d) => d.states

/-- What the race comes to. -/
def finish (fanIn : FanIn) (l : RaceLedger) : Outcome :=
  match l.decisive with
  | some d => fanIn.apply (d.states ++ l.lateStates) (FailureMarker.sorted l.markers)
  | none =>
    match l.firstError with
    | some first => .error (.allFailed l.markers.length first)
    | none => .error .cancelled

end RaceLedger

namespace Race

/-- How failures and stops are treated under the settings of a run. -/
def rules (r : Race) (config : Config) : FanOut.Rules :=
  { owner := "RacingBranches"
    policy := r.policy.getD config.policy
    grace := r.grace.getD config.raceGrace }

/-- Accounts for completions one after the other; the first one refused is raised by `onError`. -/
def observeAll (rules : FanOut.Rules) (f : FanOut) (onError : RunError → Task) :
    List Completion → RaceLedger → (RaceLedger → Task) → Task
  | [], l, next => next l
  | c :: rest, l, next =>
    match l.observe rules.policy f.name c with
    | .error e => onError e
    | .ok l => Task.reporting (RaceLedger.report? rules.owner c)
        (observeAll rules f onError rest l next)

/-- Takes at most `count` completions that are there already. -/
def takeFinished : (count : Nat) → FanOut → List Completion →
    (FanOut → List Completion → Task) → Task
  | 0, f, taken, next => next f taken
  | count + 1, f, taken, next =>
    .ask (.nextChild f.pending .none) fun
      | some c => takeFinished count (f.take c.index) (taken ++ [c]) next
      | none => next f taken

/-- Completions that are seen together, in declared order. -/
def ranked (batch : List Completion) : List Completion :=
  batch.mergeSort fun a b => a.index ≤ b.index

/-- Waits for at most `count` batches of completions, until there is a decisive output. -/
def decide (ctx : Context) (rules : FanOut.Rules) (next : FanOut → RaceLedger → Task) :
    (count : Nat) → FanOut → RaceLedger → Task
  | 0, f, l => next f l
  | count + 1, f, l =>
    .ask (.nextChild f.pending (.untilStopped ctx.token)) fun
      | none => next f l
      | some first =>
        let f := f.take first.index
        takeFinished f.outstanding f [first] fun f batch =>
          observeAll rules f (f.raise rules.owner rules.grace) (ranked batch) l fun l =>
            if l.decisive.isSome then next f l else decide ctx rules next count f l

/-- Stops the contenders that are left and accounts for those that finish within the grace period.
If there is no decisive output yet, they are judged as before. -/
def settle (rules : FanOut.Rules) (next : RaceLedger → Task) (f : FanOut) (l : RaceLedger) : Task :=
  if f.outstanding = 0 then next l
  else
    f.stopAll <| f.collectWithin rules.grace fun f completions =>
      observeAll rules f (fun e => f.abandon rules.owner (.fail e)) completions l fun l =>
        f.abandon rules.owner (next l)

/-- Runs the contenders. -/
def next (r : Race) (ctx : Context) (input : Data) : Task :=
  let rules := r.rules ctx.config
  if r.children.isEmpty then .fail (.invalidInput rules.owner "no branches to race")
  else
    match FanOut.distribute rules.owner r.children.length true input with
    | .error e => .fail e
    | .ok inputs =>
      FanOut.start ctx none (r.children.zip inputs) fun f =>
        decide ctx rules (settle rules fun l => .done (l.finish r.fanIn)) f.outstanding f .empty

/-- The debug text. -/
def debugText (r : Race) (cells : Cells) : String :=
  Text.debugRecord "RacingBranches"
    [("children", Text.debugList (r.children.map fun c => c.describe cells)),
     ("fan_in", r.fanIn.debugText),
     ("policy", Text.debugOption (r.policy.map FailurePolicy.debugText)),
     ("grace", Text.debugOption (r.grace.map Duration.debugText))]

/-- The race as a runnable. -/
def runnable (r : Race) : Runnable :=
  ⟨"RacingBranches", r.debugText, r.next⟩

end Race

end Orchestra
