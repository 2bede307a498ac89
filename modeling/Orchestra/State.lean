import Orchestra.RunError
import Orchestra.Sample

/-!
# States and data

A state is what flows through a pipeline: a shared reference to the problem, samples and metadata.
A runnable consumes and produces either one state or an ordered list of states; a list also carries
the markers of the children that failed while it was made.
-/

namespace Orchestra

/-- A shared handle to the problem being solved; two handles are the same instance when their
`handle` is the same. -/
structure Problem where
  handle : Nat
  typeName : String
  content : String
deriving DecidableEq, Repr

/-- Whether two handles denote one instance. -/
def Problem.sameInstance (a b : Problem) : Bool :=
  a.handle == b.handle

/-- The debug text shows the type of the instance only. -/
def Problem.debugText (p : Problem) : String :=
  "Problem(\"" ++ p.typeName ++ "\")"

/-- The unit of data in a pipeline. -/
structure State where
  problem : Option Problem
  samples : SampleSet
  info : Info
deriving Repr, Inhabited

namespace State

/-- A state without problem, samples and metadata. -/
def empty : State := ⟨none, .empty, .empty⟩

/-- Replaces the samples. -/
def withSamples (s : State) (samples : SampleSet) : State :=
  { s with samples }

/-- Replaces the metadata. -/
def withInfo (s : State) (info : Info) : State :=
  { s with info }

/-- Stores one metadata entry. -/
def withEntry (s : State) (key : String) (value : Json) : State :=
  { s with info := s.info.insert key value }

/-- Attaches a problem. -/
def withProblem (s : State) (problem : Problem) : State :=
  { s with problem := some problem }

/-- The energy of the best sample, if there is one. -/
def minEnergy? (s : State) : Option Double :=
  s.samples.first?.map Sample.energy

/-- The energy of the best sample, infinite for a state without samples. -/
def minEnergy (s : State) : Double :=
  s.minEnergy?.getD .infinity

/-- The state with one sample of the given energy in place of its samples. -/
def withEnergy (s : State) (energy : Double) : State :=
  s.withSamples (.ofEnergies [energy])

end State

/-- The record of a failed child or element. -/
structure FailureMarker where
  index : Nat
  runnable : String
  message : String
deriving DecidableEq, Repr

/-- The marker of a failure. -/
def FailureMarker.ofError (index : Nat) (runnable : String) (error : RunError) : FailureMarker :=
  ⟨index, runnable, error.message⟩

/-- The marker as a metadata object. -/
def FailureMarker.toJson (m : FailureMarker) : Json :=
  .obj [("index", .ofNat m.index), ("message", .str m.message), ("runnable", .str m.runnable)]

/-- An ordered list of states with the markers of failed children. -/
structure States where
  items : List State
  failures : List FailureMarker
deriving Repr, Inhabited

/-- A list of states without failures. -/
def States.ofList (items : List State) : States := ⟨items, []⟩

/-- What a runnable consumes and produces. -/
inductive Data where
  | one (state : State)
  | many (states : States)
deriving Repr, Inhabited

namespace Data

/-- The shape, for diagnostics. -/
def shape : Data → String
  | one _ => "one state"
  | many _ => "many states"

/-- The single state held; a list is an input that the named runnable rejects. -/
def toState (runnable : String) : Data → Except RunError State
  | one s => .ok s
  | many ss => .error (.invalidInput runnable
      ("expected one state, got " ++ toString ss.items.length ++ " states"))

/-- The list held; a single state is an input that the named runnable rejects. -/
def toStates (runnable : String) : Data → Except RunError States
  | many ss => .ok ss
  | one _ => .error (.invalidInput runnable "expected many states, got one state")

/-- Every state held, in order. -/
def states : Data → List State
  | one s => [s]
  | many ss => ss.items

/-- Every energy held, in order. -/
def energies (d : Data) : List Double :=
  d.states.flatMap fun s => s.samples.energies

/-- A list of states as data, without failure markers. -/
def ofList (items : List State) : Data :=
  many (.ofList items)

end Data

/-- What a run comes to. -/
abbrev Outcome := Except RunError Data

end Orchestra
