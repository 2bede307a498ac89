import Orchestra.Merge

/-!
# Rules written as data

Keys, predicates, merges and combinations of two states that a written pipeline can name.
-/

namespace Orchestra

/-- A key by name. -/
inductive KeyRule where
  | minEnergy
  | negatedEnergy
  | sampleCount
  | lastEnergy
  | entry (name : String)
  | constant (x : Double)
deriving Repr

/-- The key that a rule names. Where the state has no such value the key is infinite. -/
def KeyRule.key : KeyRule → Key
  | minEnergy => State.minEnergy
  | negatedEnergy => fun s => s.minEnergy.neg
  | sampleCount => fun s => .ofInt s.samples.size
  | lastEnergy => fun s => s.samples.energies.getLast?.getD .infinity
  | entry name => fun s => ((s.info.get? name).bind Json.double?).getD .infinity
  | constant x => fun _ => x

/-- A predicate on data by name. -/
inductive TerminateRule where
  | always
  | never
  | many
  | energyAtMost (bound : Double)
deriving Repr

/-- Whether the predicate that a rule names holds. -/
def TerminateRule.holds : TerminateRule → Data → Bool
  | always, _ => true
  | never, _ => false
  | many, .many _ => true
  | many, .one _ => false
  | energyAtMost bound, d => d.states.any fun s => s.minEnergy.numericLE bound

/-- A way to combine the outputs of children by name. -/
inductive FanInRule where
  | merge
  | collect
  | keepBest
  | last
  | count
  | fail
deriving Repr

/-- The fan-in that a rule names. -/
def FanInRule.fanIn : FanInRule → FanIn
  | merge => .merge mergeSamples
  | collect => .collect
  | keepBest => .merge (selectLeast State.minEnergy)
  | last => .merge fun states =>
    match states.getLast? with
    | some s => .ok s
    | none => .error (.emptyInput "last")
  | count => .merge fun states => .ok (State.empty.withEntry "n" (.ofNat states.length))
  | fail => .merge fun states =>
    .error (.runnable "merge" (toString states.length ++ " states"))

/-- A combination of two states by name. -/
inductive CombineRule where
  | label
  | merge
  | left
  | right
  | failOnX
deriving Repr

/-- The label of a state, empty if there is none. -/
def State.label (s : State) : String :=
  ((s.info.get? "label").bind Json.text?).getD ""

/-- The combination that a rule names. -/
def CombineRule.combine : CombineRule → State → State → Except RunError State
  | label, a, b => .ok (a.withEntry "label" (.str ("(" ++ a.label ++ b.label ++ ")")))
  | merge, a, b => mergeSamples [a, b]
  | left, a, _ => .ok a
  | right, _, b => .ok b
  | failOnX, a, b =>
    if b.label = "x" then .error (.runnable "combine" ("x after " ++ a.label)) else .ok b

end Orchestra
