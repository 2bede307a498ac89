import Orchestra.Branch
import Orchestra.FanOut.Branches
import Orchestra.FanOut.Map
import Orchestra.FanOut.Race
import Orchestra.Leaf.Counted
import Orchestra.Leaf.Plain
import Orchestra.Leaf.Timed
import Orchestra.Loop
import Orchestra.Reduce

/-!
# Composed pipelines

A pipeline is composed of parts by sequences, fan-outs, folds and loops. A fact about all pipelines
is proved by one case for each composite, and holds whatever the parts are that satisfy it.
-/

namespace Orchestra

/-- The leaves of the library, with trackers among the given ones. -/
inductive Runnable.OfLibrary (trackers : TrackerId → Prop) : Runnable → Prop
  | identity : OfLibrary trackers Leaf.identity
  | duplicate (count : Nat) : OfLibrary trackers (Leaf.duplicate count)
  | constant (samples : SampleSet) : OfLibrary trackers (Leaf.constant samples)
  | mergeStates (aggregate : Bool) : OfLibrary trackers (Leaf.mergeStates aggregate)
  | select (key : Key) : OfLibrary trackers (Leaf.select key)
  | sleep (span : Duration) : OfLibrary trackers (Leaf.sleep span)
  | report (label : String) : OfLibrary trackers (Leaf.report label)
  | track (key : Key) (outputBest : Bool) {tracker : TrackerId} (among : trackers tracker) :
    OfLibrary trackers (Leaf.track key outputBest tracker)

/-- What a pipeline may be composed of. -/
structure Parts where
  leaf : Runnable → Prop
  fanIn : FanIn → Prop
  combine : (State → State → Except RunError State) → Prop
  initial : State → Prop

/-- Pipelines that are composed of the given parts. -/
inductive Runnable.Composed (parts : Parts) : Runnable → Prop
  | leaf {r : Runnable} (allowed : parts.leaf r) : Composed parts r
  | branch {b : Branch} (components : ∀ r ∈ b.components, Composed parts r) :
      Composed parts b.runnable
  | branches {b : Branches} (children : ∀ r ∈ b.children, Composed parts r)
      (fanIn : parts.fanIn b.fanIn) : Composed parts b.runnable
  | race {r : Race} (children : ∀ c ∈ r.children, Composed parts c) (fanIn : parts.fanIn r.fanIn) :
      Composed parts r.runnable
  | map {m : Map} (worker : Composed parts m.worker) : Composed parts m.runnable
  /-- A fold with a function. -/
  | reduce {r : Reduce} {f : State → State → Except RunError State}
      (combiner : r.combiner = .function f) (combine : parts.combine f)
      (initial : ∀ s, r.initial = some s → parts.initial s) : Composed parts r.runnable
  /-- A fold with a runnable. -/
  | reduceBy {r : Reduce} {body : Runnable} (combiner : r.combiner = .runnable body)
      (combine : Composed parts body) (initial : ∀ s, r.initial = some s → parts.initial s) :
      Composed parts r.runnable
  | last {l : Loop} (body : Composed parts l.body) : Composed parts l.last
  | unwind {l : Loop} (body : Composed parts l.body) : Composed parts l.unwind
  | best {l : Loop} {patience : Option Nat} (body : Composed parts l.body) :
      Composed parts (l.best patience)
  | improve {l : Loop} {maxTries : Option Nat} (body : Composed parts l.body) :
      Composed parts (l.improve maxTries)

end Orchestra
