import Orchestra.Selection

/-!
# Merging states

The outputs of concurrent children come together in declared order: either merged into one state,
with the failure markers appended to its metadata, or collected into a list that carries them. The
default merge concatenates the samples, keeps the first problem and merges the metadata additively.
-/

namespace Orchestra

/-- A function that reconciles several states. -/
abbrev MergeFn := List State → Except RunError State

/-- The default merge. -/
def mergeSamples : MergeFn
  | [] => .error (.emptyInput "merge_samples")
  | first :: rest =>
    let info := rest.foldl (fun info s => info.merge s.info) first.info
    let samples := SampleSet.concat (first.samples :: rest.map State.samples)
    .ok { first with samples, info }

/-- The default merge over a list, with an option to fold samples of one assignment afterwards. -/
def mergeList (aggregate : Bool) (states : List State) : Except RunError State :=
  (mergeSamples states).map fun merged =>
    if aggregate then merged.withSamples merged.samples.aggregate else merged

/-- How the outputs of children are combined. -/
inductive FanIn where
  | merge (f : MergeFn)
  | collect

/-- Appends the markers to the metadata of a merged state, in order. -/
def State.recordFailures (s : State) (markers : List FailureMarker) : State :=
  s.withInfo (markers.foldl (fun info m => info.push "failures" m.toJson) s.info)

/-- Combines outputs already in fan-in order. -/
def FanIn.apply (fanIn : FanIn) (outputs : List State) (markers : List FailureMarker) : Outcome :=
  match fanIn with
  | .merge f => (f outputs).map fun merged => .one (merged.recordFailures markers)
  | .collect => .ok (.many ⟨outputs, markers⟩)

/-- The debug text of a fan-in. -/
def FanIn.debugText : FanIn → String
  | .merge _ => "Merge"
  | .collect => "Collect"

end Orchestra
