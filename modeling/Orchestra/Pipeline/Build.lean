import Orchestra.Branch
import Orchestra.FanOut.Branches
import Orchestra.FanOut.Map
import Orchestra.FanOut.Race
import Orchestra.Leaf.Counted
import Orchestra.Leaf.Plain
import Orchestra.Leaf.Timed
import Orchestra.Loop
import Orchestra.Pipeline
import Orchestra.Reduce

/-!
# Building pipelines

Building turns a written pipeline into a runnable. Parts are built depth first and in order; each
counting or tracking leaf gets a shared value of its own, and each named part is registered. What was
built before a failure stays.
-/

namespace Orchestra

/-- The shared value behind a named part. -/
inductive CellRef where
  | counter (id : CounterId)
  | tracker (id : TrackerId)
deriving Repr

/-- A named part, with the shared value behind it if its own leaf has one. -/
structure Registered where
  runnable : Runnable
  cell : Option CellRef

/-- What building adds to. -/
structure Workshop where
  cells : Cells
  registry : Keyed Registered

/-- Building, which may fail. -/
abbrev Build (α : Type) := ExceptT RunError (StateM Workshop) α

namespace Build

/-- A new counter. -/
def newCounter : Build CounterId := do
  let shop ← get
  set { shop with cells := { shop.cells with counters := shop.cells.counters.push 0 } }
  return shop.cells.counters.size

/-- A new tracker. -/
def newTracker : Build TrackerId := do
  let shop ← get
  set { shop with cells := { shop.cells with trackers := shop.cells.trackers.push .empty } }
  return shop.cells.trackers.size

/-- A part without a shared value of its own. -/
def plain (r : Runnable) : Build Registered :=
  return ⟨r, none⟩

/-- Registers a part under a name. -/
def register (id : String) (part : Registered) : Build Registered := do
  modify fun shop => { shop with registry := shop.registry.insert id part }
  return part

/-- The part under a name. -/
def lookup (id : String) : Build Registered := do
  match (← get).registry.find? id with
  | some part => return part
  | none => throw (.config ("no part is named " ++ id))

end Build

/-- The criteria that a rule describes. -/
def CriteriaRule.criteria (c : CriteriaRule) : Criteria :=
  ⟨c.maxIterations, c.budget, c.terminate.map TerminateRule.holds, c.key.key⟩

/-- The loop of a kind. -/
def LoopKind.runnable (l : Loop) : LoopKind → Runnable
  | last => l.last
  | unwind => l.unwind
  | best patience => l.best patience
  | improve maxTries => l.improve maxTries

namespace Pipeline

mutual

/-- Builds a pipeline in a run with the given root token. -/
def build (root : TokenId) : Pipeline → Build Registered
  | named id part => do Build.register id (← build root part)
  | shared id => do Build.plain (← Build.lookup id).runnable
  | boxed part => do Build.plain (← build root part).runnable
  | identity => Build.plain Leaf.identity
  | constant samples => Build.plain (Leaf.constant samples)
  | sleep ms => Build.plain (Leaf.sleep (.ofMillis ms))
  | report label => Build.plain (Leaf.report label)
  | duplicate count => do Build.plain (← liftM (Leaf.duplicate? count))
  | mergeStates aggregate => Build.plain (Leaf.mergeStates aggregate)
  | select key => Build.plain (Leaf.select key.key)
  | track key outputBest => do
    let tracker ← Build.newTracker
    return ⟨Leaf.track key.key outputBest tracker, some (.tracker tracker)⟩
  | branch name steps => do
    let components ← buildAll root steps
    Build.plain (Branch.runnable ⟨components, name⟩)
  | branches children fanIn policy stopGrace singleInput => do
    let children ← buildAll root children
    Build.plain (Branches.runnable ⟨children, fanIn.fanIn, policy, stopGrace, singleInput⟩)
  | race children fanIn policy grace => do
    let children ← buildAll root children
    Build.plain (Race.runnable ⟨children, fanIn.fanIn, policy, grace⟩)
  | map worker maxConcurrency policy stopGrace => do
    let worker ← build root worker
    let maxConcurrency := maxConcurrency.map fun bound => max bound 1
    Build.plain (Map.runnable ⟨worker.runnable, maxConcurrency, policy, stopGrace⟩)
  | reduce combine initial => Build.plain (Reduce.runnable ⟨.function combine.combine, initial⟩)
  | reduceBy body initial => do
    let body ← build root body
    Build.plain (Reduce.runnable ⟨.runnable body.runnable, initial⟩)
  | loop kind body criteria => do
    let body ← build root body
    Build.plain (kind.runnable ⟨body.runnable, criteria.criteria⟩)
  | addEnergy amount => Build.plain (Leaf.addEnergy amount)
  | scripted energies => do
    let counter ← Build.newCounter
    return ⟨Leaf.scripted energies counter, some (.counter counter)⟩
  | delayed ms energy label => Build.plain (Leaf.delayed (.ofMillis ms) energy label)
  | stubborn ms energy => Build.plain (Leaf.stubborn (.ofMillis ms) energy)
  | failing message ms => Build.plain (Leaf.failing message (.ofMillis ms))
  | tag label => Build.plain (Leaf.tag label)
  | onState name edit => Build.plain (Leaf.onState name (edit.apply name))
  | onData name edit => Build.plain (Leaf.onData name (edit.apply name))
  | raise error => Build.plain (Leaf.raise error)
  | explode payload => Build.plain (Leaf.explode payload)
  | stopper stopsRoot firstCall acknowledge => do
    let counter ← Build.newCounter
    Build.plain
      (Leaf.stopper (if stopsRoot then some root else none) firstCall acknowledge counter)
  | switch children => do
    let children ← buildAll root children
    Build.plain (Leaf.switch children)

/-- Builds pipelines in order. -/
def buildAll (root : TokenId) : List Pipeline → Build (List Runnable)
  | [] => return []
  | part :: rest => do
    let built ← build root part
    return built.runnable :: (← buildAll root rest)

end

end Pipeline

end Orchestra
