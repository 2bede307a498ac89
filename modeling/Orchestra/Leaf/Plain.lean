import Orchestra.Merge
import Orchestra.Runnable

/-!
# Leaves that answer at once

Runnables whose output depends on their input alone: adapters of functions, replication, constants,
selection, merging and deliberate failures.
-/

namespace Orchestra.Leaf

/-- Returns its input. -/
def identity : Runnable :=
  .ofFunction "Identity" "Identity" .ok

/-- The debug text of a function under a name. -/
def functionText (name : String) : String :=
  Text.debugOpenRecord "Lambda" [("name", Text.quoted name)]

/-- Applies a function of single states. -/
def onState (name : String) (f : State → Except RunError State) : Runnable :=
  .ofFunction name (functionText name) fun input =>
    match input.toState name with
    | .error e => .error e
    | .ok s => (f s).map .one

/-- Applies a function of data of either shape. -/
def onData (name : String) (f : Data → Outcome) : Runnable :=
  .ofFunction name (functionText name) f

/-- Copies one state a given number of times. -/
def duplicate (count : Nat) : Runnable :=
  .ofFunction "Dup" (Text.debugRecord "Dup" [("count", toString count)]) fun input =>
    match input.toState "Dup" with
    | .error e => .error e
    | .ok s => .ok (.ofList (List.replicate count s))

/-- Copies one state, at least once. -/
def duplicate? (count : Nat) : Except RunError Runnable :=
  if count = 0 then .error (.invalidInput "Dup" "replication count must be at least 1")
  else .ok (duplicate count)

/-- Replaces the samples of every state. -/
def replaceSamples (samples : SampleSet) : Data → Data
  | .one s => .one (s.withSamples samples)
  | .many states => .many { states with items := states.items.map fun s => s.withSamples samples }

/-- The debug text of metadata. -/
def infoText (info : Info) : String :=
  Text.debugRecord "Info"
    [("entries", "\x7b" ++ ", ".intercalate (Json.entryDebugTexts info.entries) ++ "\x7d")]

/-- The debug text of a sample. -/
def sampleText (s : Sample) : String :=
  Text.debugRecord "Sample"
    [("values", Text.debugList (s.values.map Decimal.intText)),
     ("energy", Text.debugDouble s.energy),
     ("num_occurrences", toString s.occurrences),
     ("metadata", infoText s.metadata)]

/-- The debug text of a sample set. -/
def samplesText (samples : SampleSet) : String :=
  Text.debugRecord "SampleSet" [("samples", Text.debugList (samples.toList.map sampleText))]

/-- Emits fixed samples in place of those of every input state. -/
def constant (samples : SampleSet) : Runnable :=
  .ofFunction "Const" (Text.debugRecord "Const" [("samples", samplesText samples)]) fun input =>
    .ok (replaceSamples samples input)

/-- Merges a list of states into one, with an option to fold samples of one assignment. -/
def mergeStates (aggregate : Bool) : Runnable :=
  .ofFunction "MergeSamples"
    (Text.debugRecord "MergeSamples" [("aggregate", Text.debugBool aggregate)]) fun input =>
    match input.toStates "MergeSamples" with
    | .error e => .error e
    | .ok states => (mergeList aggregate states.items).map .one

/-- Selects the state with the least key from a list. -/
def select (key : Key) : Runnable :=
  .ofFunction "ArgMin" (Text.debugOpenRecord "ArgMin" []) fun input =>
    match input.toStates "ArgMin" with
    | .error e => .error e
    | .ok states => (selectLeast key states.items).map .one

/-- Adds a constant to every energy of one state. -/
def addEnergy (amount : Double) : Runnable :=
  .ofFunction "AddEnergy" (Text.debugTuple "AddEnergy" [Text.debugDouble amount]) fun input =>
    match input.toState "AddEnergy" with
    | .error e => .error e
    | .ok s => .ok (.one (s.withSamples
        (s.samples.map fun x => { x with energy := x.energy.add amount })))

/-- Appends a label to the trail of one state. -/
def tag (label : String) : Runnable :=
  .ofFunction "Tag" (Text.debugTuple "Tag" [Text.quoted label]) fun input =>
    match input.toState "Tag" with
    | .error e => .error e
    | .ok s => .ok (.one (s.withInfo (s.info.push "trail" (.str label))))

/-- Reports a summary of its input and returns it. -/
def report (label : String) : Runnable :=
  ⟨"Log", fun _ => Text.debugRecord "Log" [("label", Text.quoted label)], fun _ input =>
    .ask (.log (input.summary label)) fun _ => .succeed input⟩

/-- Fails with a given error. -/
def raise (e : RunError) : Runnable :=
  .ofFunction "Raise" "Raise" fun _ => .error e

/-- Panics with a given payload. -/
def explode (payload : Payload) : Runnable :=
  ⟨"Explode", fun _ => "Explode", fun _ _ => .panic payload⟩

/-- Runs the child that the metadata of one state names by position, the first one by default, in
the same context and without recording a call of the child. -/
def switch (children : List Runnable) : Runnable :=
  ⟨"Switch", fun _ => "Switch", fun ctx input =>
    match input.toState "Switch" with
    | .error e => .fail e
    | .ok s =>
      let route := ((s.info.get? "route").bind Json.int?).getD 0
      match if 0 ≤ route then children[route.toNat]? else none with
      | some child => child.next ctx input
      | none => .fail (.invalidInput "Switch" ("no route " ++ toString route))⟩

end Orchestra.Leaf
