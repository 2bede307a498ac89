import Orchestra.Config
import Orchestra.Edit
import Orchestra.Rule

/-!
# Written pipelines

A pipeline as data: the composites and leaves by name, with rules and edits in place of functions. A
part may be named, and a name stands for the same shared instance wherever it is used later.
-/

namespace Orchestra

/-- Criteria of a loop as data. -/
structure CriteriaRule where
  maxIterations : Option Nat
  budget : Option Duration
  terminate : Option TerminateRule
  key : KeyRule
deriving Repr

/-- What a loop returns: its last output, all outputs, its best output with a bound on iterations
without improvement, or the first improvement on its input within a bound on tries. -/
inductive LoopKind where
  | last
  | unwind
  | best (patience : Option Nat)
  | improve (maxTries : Option Nat)
deriving Repr

/-- A pipeline as data. -/
inductive Pipeline where
  /-- A part under a name. -/
  | named (id : String) (part : Pipeline)
  /-- The shared instance under a name. -/
  | shared (id : String)
  /-- A part behind one more indirection, which shows nowhere. -/
  | boxed (part : Pipeline)
  | identity
  | constant (samples : SampleSet)
  | sleep (ms : Nat)
  | report (label : String)
  | duplicate (count : Nat)
  | mergeStates (aggregate : Bool)
  | select (key : KeyRule)
  | track (key : KeyRule) (outputBest : Bool)
  | branch (name : Option String) (steps : List Pipeline)
  | branches (children : List Pipeline) (fanIn : FanInRule) (policy : Option FailurePolicy)
      (stopGrace : Option Duration) (singleInput : Bool)
  | race (children : List Pipeline) (fanIn : FanInRule) (policy : Option FailurePolicy)
      (grace : Option Duration)
  | map (worker : Pipeline) (maxConcurrency : Option Nat) (policy : Option FailurePolicy)
      (stopGrace : Option Duration)
  | reduce (combine : CombineRule) (initial : Option State)
  | reduceBy (body : Pipeline) (initial : Option State)
  | loop (kind : LoopKind) (body : Pipeline) (criteria : CriteriaRule)
  | addEnergy (amount : Double)
  | scripted (energies : List Double)
  | delayed (ms : Nat) (energy : Option Double) (label : String)
  | stubborn (ms : Nat) (energy : Double)
  | failing (message : String) (ms : Nat)
  | tag (label : String)
  | onState (name : String) (edit : StateEdit)
  | onData (name : String) (edit : DataEdit)
  | raise (error : RunError)
  | explode (payload : Payload)
  /-- Stops its own context, or the root, from a given call on. -/
  | stopper (root : Bool) (firstCall : Nat) (acknowledge : Bool)
  | switch (children : List Pipeline)
deriving Inhabited

end Orchestra
