import Orchestra.Merge
import Orchestra.Runnable

/-!
# Running children side by side

A fan-out starts each child under a token of its own below the context, so that a stop of the
context reaches every child and a stop of one child leaves the others alone. Completions are taken
in the order in which children finish; each child is pending until its completion is taken.
-/

namespace Orchestra

/-- A set of started children, and those whose completion was not taken yet. -/
structure FanOut where
  children : List Child
  pending : List Pending
deriving Repr

namespace FanOut

/-- The fan-out of children none of whose completions was taken. -/
def ofChildren (children : List Child) : FanOut :=
  ⟨children, children.mapIdx fun index c => ⟨index, c.id⟩⟩

/-- The number of children started. -/
def size (f : FanOut) : Nat :=
  f.children.length

/-- The number of pending children. -/
def outstanding (f : FanOut) : Nat :=
  f.pending.length

/-- The name of the child at a position. -/
def name (f : FanOut) (index : Nat) : String :=
  match f.children[index]? with
  | some c => c.name
  | none => "unknown"

/-- The tokens of all children, in declared order. -/
def tokens (f : FanOut) : List TokenId :=
  f.children.map Child.token

/-- The fan-out after the completion of the child at a position was taken. -/
def take (f : FanOut) (index : Nat) : FanOut :=
  { f with pending := f.pending.filter fun p => p.index != index }

/-- Starts one child for each runnable and input, and goes on with the children. -/
def startAll (ctx : Context) (limit : Option LimitId) :
    List (Runnable × Data) → (List Child → Task) → Task
  | [], next => next []
  | (r, input) :: jobs, next =>
    ctx.start r input limit fun child =>
      startAll ctx limit jobs fun children => next (child :: children)

/-- Starts one child for each runnable and input, and goes on with the fan-out. -/
def start (ctx : Context) (limit : Option LimitId) (jobs : List (Runnable × Data))
    (next : FanOut → Task) : Task :=
  startAll ctx limit jobs fun children => next (ofChildren children)

/-- Stops every child. -/
def stopAll (f : FanOut) (next : Task) : Task :=
  .ask (.stop f.tokens) fun _ => next

/-- Takes at most `count` completions before an instant, and goes on with them in order. -/
def collectUntil (instant : Nat) :
    (count : Nat) → FanOut → List Completion → (FanOut → List Completion → Task) → Task
  | 0, f, taken, next => next f taken
  | count + 1, f, taken, next =>
    .ask (.nextChild f.pending (.untilDue instant)) fun
      | some c => collectUntil instant count (f.take c.index) (taken ++ [c]) next
      | none => next f taken

/-- Takes the completions of the children that finish within a grace period. A period that is over at
no instant is a panic. -/
def collectWithin (grace : Duration) (f : FanOut) (next : FanOut → List Completion → Task) : Task :=
  .ask .now fun now =>
    match Instant.after? now grace with
    | some due => collectUntil due f.outstanding f [] next
    | none => .panic Instant.overflow

/-- Leaves the pending children to themselves and reports how many there are. -/
def abandon (owner : String) (f : FanOut) (next : Task) : Task :=
  if f.outstanding = 0 then next
  else .ask (.log (.abandoned owner f.outstanding)) fun _ => next

/-- Ends a failed fan-out: stops every child, waits for them within the grace period, and raises
the error. -/
def raise (owner : String) (grace : Duration) (f : FanOut) (e : RunError) : Task :=
  f.stopAll <| f.collectWithin grace fun f _ => f.abandon owner (.fail e)

/-- Splits an input into one input per child. A single state is copied to every child; a list feeds
each child its own state, if that is allowed and there is exactly one state per child. -/
def distribute (owner : String) (children : Nat) (perChild : Bool) :
    Data → Except RunError (List Data)
  | .one state => .ok (List.replicate children (.one state))
  | .many states =>
    if perChild then
      if states.items.length = children then .ok (states.items.map .one)
      else .error (.invalidInput owner
        (toString states.items.length ++ " input states for " ++ toString children ++ " branches"))
    else .error (.invalidInput owner "expected one state, got many states")

end FanOut

end Orchestra
