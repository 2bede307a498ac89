import Orchestra.Pipeline.Build
import Orchestra.World.Run

/-!
# Sessions

A session is a world together with what its user holds: contexts by number, of which the first is
the root, handles of started runs and limits by name, and the named parts of all pipelines built so
far. A run that was started only runs while the user waits for something.
-/

namespace Orchestra

/-- A started run as its starter knows it. -/
structure Handle where
  task : TaskId
  token : TokenId
  name : String
deriving Repr

/-- What can be seen of a run through its handle. -/
structure HandleStatus where
  name : String
  stopped : Bool
  finished : Bool
deriving Repr

/-- A world and what its user holds. -/
structure Session where
  world : World
  contexts : Table Context
  registry : Keyed Registered
  handles : Keyed Handle
  limits : Keyed LimitId

namespace Session

/-! ### Contexts -/

/-- Adds a context with a token of its own below no other, and a profile of its own, unless one of
the two is given. Its number is the former number of contexts. -/
def addContext (s : Session) (config : Config) (token : Option TokenId)
    (profile : Option ProfileId) : Session :=
  let ctx : Context :=
    ⟨token.getD s.world.tokens.size, config, profile.getD s.world.profiles.size⟩
  { s with
    contexts := s.contexts.push ctx
    world := { s.world with
      tokens := if token.isSome then s.world.tokens else s.world.tokens.addRoot
      profiles := if profile.isSome then s.world.profiles else s.world.profiles.push .empty } }

/-- The session with a root context only. -/
def ofConfig (config : Config) : Session :=
  addContext ⟨.empty, .empty, [], [], []⟩ config none none

/-- The token of the root context. -/
def rootToken (s : Session) : TokenId :=
  match s.contexts.get? 0 with
  | some ctx => ctx.token
  | none => 0

/-- Adds a context below another, which shares its settings and its profile. -/
def addChild (s : Session) (ctx : Context) : Session :=
  { s with
    contexts := s.contexts.push { ctx with token := s.world.tokens.size }
    world := { s.world with tokens := s.world.tokens.addBelow ctx.token } }

/-- Adds a copy of a context. -/
def addCopy (s : Session) (ctx : Context) : Session :=
  { s with contexts := s.contexts.push ctx }

/-- Stops a token. -/
def stop (s : Session) (token : TokenId) : Session :=
  { s with world := s.world.stop [token] }

/-- Which contexts are stopped. -/
def stopped (s : Session) : List Bool :=
  s.contexts.toList.map fun ctx => s.world.isStopped ctx.token

/-! ### Building and running -/

/-- Builds a pipeline. -/
def build (s : Session) (p : Pipeline) : Except RunError Runnable × Session :=
  let (built, shop) := (p.build s.rootToken).run.run ⟨s.world.cells, s.registry⟩
  (built.map Registered.runnable,
    { s with world := { s.world with cells := shop.cells }, registry := shop.registry })

/-- Runs a program in the task of the user. -/
def perform (s : Session) (program : Task) : Option Ending × Session :=
  let (ending, world) := s.world.perform program
  (ending, { s with world })

/-- Starts a run below a context and keeps its handle under a name. -/
def start (s : Session) (ctx : Context) (handle : String) (r : Runnable) (input : Data)
    (limit : Option LimitId) : Session :=
  let (child, world) := s.world.spawn r.name ctx.token (ctx.run r input limit)
  { s with
    world
    handles := s.handles.insert handle ⟨child.id, child.token, child.name⟩ }

/-- Starts a run below a context of its own, with default settings. -/
def startAlone (s : Session) (handle : String) (r : Runnable) (input : Data) : Session :=
  let apart := s.addContext .default none none
  match apart.contexts.get? s.contexts.size with
  | some ctx => { apart with contexts := s.contexts }.start ctx handle r input none
  | none => s

/-- Runs everything that is due in a span of milliseconds. -/
def advance (s : Session) (ms : Nat) : Session :=
  { s with world := s.world.advance (.ofMillis ms) }

/-! ### Handles -/

/-- What can be seen of a run. -/
def status (s : Session) (h : Handle) : HandleStatus :=
  ⟨h.name, s.world.isStopped h.token, (s.world.ending? h.task).isSome⟩

/-- Gives a handle up. The run goes on. -/
def drop (s : Session) (handle : String) : Session :=
  { s with handles := s.handles.erase handle }

/-- The program that waits for a run, for at most the given time. -/
def waitFor (h : Handle) (limitMs : Option Nat) : Task :=
  .ask .now fun now =>
    .ask (.nextChild [⟨0, h.task⟩]
        (match limitMs with
          | some ms => .untilDue (now + (Duration.ofMillis ms).nanos)
          | none => .forever)) fun
      | some c => .done c.outcome
      | none => .fail (.timeout h.name (limitMs.getD 0))

/-- Waits for a run and gives its handle up. -/
def result (s : Session) (handle : String) (h : Handle) (limitMs : Option Nat) :
    Option Ending × Session :=
  (s.drop handle).perform (waitFor h limitMs)

/-! ### Limits -/

/-- Adds a limit under a name, or panics if it would have too many permits. -/
def newLimit (s : Session) (name : String) (permits : Nat) : Except String Session :=
  if permits ≤ Map.maxPermits then
    .ok { s with
      limits := s.limits.insert name s.world.limits.size
      world := { s.world with limits := s.world.limits.push (.ofPermits permits) } }
  else .error Map.tooManyPermits

/-- Adds permits to a limit and runs everything that is due. -/
def addPermits (s : Session) (limit : LimitId) (permits : Nat) : Session :=
  { s with world := (s.world.addPermits limit permits).advance .zero }

/-- Closes a limit and runs everything that is due. -/
def closeLimit (s : Session) (limit : LimitId) : Session :=
  { s with world := (s.world.closeLimit limit).advance .zero }

/-! ### Looking at shared values -/

/-- The profile of a context. -/
def profile (s : Session) (ctx : Context) : Profile :=
  (s.world.profiles.get? ctx.profile).getD .empty

/-- Forgets what the profile of a context holds. -/
def resetProfile (s : Session) (ctx : Context) : Session :=
  { s with world := { s.world with
      profiles := s.world.profiles.modify ctx.profile fun _ => .empty } }

/-- What a named leaf has come to. -/
inductive CellView where
  | calls (count : Nat)
  | best (tracker : Tracker State)
deriving Repr

/-- What a shared value has come to. -/
def view (s : Session) : CellRef → CellView
  | .counter id => .calls ((s.world.cells.counters.get? id).getD 0)
  | .tracker id => .best ((s.world.cells.trackers.get? id).getD .empty)

/-- What the named leaves have come to, in the order of their names. -/
def views (s : Session) : List (String × CellView) :=
  s.registry.filterMap fun (id, part) => part.cell.map fun cell => (id, s.view cell)

/-- Empties the tracker under a name. -/
def resetTracker (s : Session) (id : String) : Session :=
  match (s.registry.find? id).bind Registered.cell with
  | some (.tracker t) =>
    { s with world := { s.world with
        cells := { s.world.cells with
          trackers := s.world.cells.trackers.modify t fun _ => .empty } } }
  | _ => s

/-- The log so far. -/
def log (s : Session) : List LogEntry :=
  s.world.log

/-- Forgets the log so far. -/
def clearLog (s : Session) : Session :=
  { s with world := { s.world with log := [] } }

end Session

end Orchestra
