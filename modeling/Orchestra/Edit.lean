import Orchestra.Selection

/-!
# Edits written as data

Functions on one state, and on data of either shape, that a written pipeline can name. An edit that
fails does so in the name of the runnable that applies it.
-/

namespace Orchestra

/-- A function on one state. -/
inductive StateEdit where
  | id
  | clear
  | seq (edits : List StateEdit)
  | scale (factor : Double)
  | pushSample (s : Sample)
  | setEntry (key : String) (value : Json)
  | pushEntry (key : String) (value : Json)
  | count (key : String)
  | fail (message : String)
  | failIfEnergy (energy : Double)
  | relax (target : List Int) (flips : Nat)
deriving Repr, Inhabited

/-- The values after at most `flips` mismatches with the target, from the left, were mended. -/
def mend : (target values : List Int) → (flips : Nat) → List Int
  | t :: ts, v :: vs, flips =>
    if flips = 0 then v :: vs
    else if v = t then v :: mend ts vs flips
    else t :: mend ts vs (flips - 1)
  | _, values, _ => values

/-- The number of mismatches over the common length. -/
def mismatches (target values : List Int) : Nat :=
  ((target.zip values).filter fun (t, v) => t != v).length

/-- A sample brought closer to the target, whose energy is the number of mismatches left. -/
def Sample.relaxed (target : List Int) (flips : Nat) (s : Sample) : Sample :=
  let values := mend target s.values flips
  { s with values, energy := .ofInt (mismatches target values) }

/-- The integer in an entry of the metadata plus one; an entry of another kind counts as zero. -/
def Info.increment (info : Info) (key : String) : Info :=
  let n := ((info.get? key).bind Json.int?).getD 0
  info.insert key (.num (.int ((if fitsSigned n then n else 0) + 1)))

namespace StateEdit

mutual

/-- Applies an edit in the name of a runnable. -/
def apply (runnable : String) : StateEdit → State → Except RunError State
  | id, s => .ok s
  | clear, s => .ok (s.withSamples .empty)
  | seq edits, s => applyAll runnable edits s
  | scale factor, s =>
    .ok (s.withSamples (s.samples.map fun x => { x with energy := x.energy.mul factor }))
  | pushSample x, s => .ok (s.withSamples (s.samples.push x))
  | setEntry key value, s => .ok (s.withEntry key value)
  | pushEntry key value, s => .ok (s.withInfo (s.info.push key value))
  | count key, s => .ok (s.withInfo (s.info.increment key))
  | fail message, _ => .error (.runnable runnable message)
  | failIfEnergy energy, s =>
    if s.minEnergy.numericEq energy then .error (.runnable runnable "poisoned element") else .ok s
  | relax target flips, s => .ok (s.withSamples (s.samples.map (Sample.relaxed target flips)))

/-- Applies edits one after the other, up to the first that fails. -/
def applyAll (runnable : String) : List StateEdit → State → Except RunError State
  | [], s => .ok s
  | edit :: rest, s =>
    match apply runnable edit s with
    | .ok s => applyAll runnable rest s
    | .error e => .error e

end

end StateEdit

/-- A function on data of either shape. -/
inductive DataEdit where
  | id
  | split
  | reverse
  | empty
  | count
  | first
  | take (n : Nat)
  | fail (message : String)
  | swapSweep (betas : List Double)
deriving Repr

/-- Whether two neighbouring states change places at the given inverse temperatures. -/
def swaps (betaA betaB : Double) (a b : State) : Bool :=
  Double.zero.numericLE ((betaA.sub betaB).mul (a.minEnergy.sub b.minEnergy))

/-- Passes once over neighbouring states, from the left, exchanging those that swap. -/
def sweep : List Double → State → List State → List State
  | betaA :: betaB :: betas, held, s :: rest =>
    if swaps betaA betaB held s then s :: sweep (betaB :: betas) held rest
    else held :: sweep (betaB :: betas) s rest
  | _, held, rest => held :: rest

/-- Applies an edit in the name of a runnable. -/
def DataEdit.apply (runnable : String) : DataEdit → Data → Outcome
  | id, d => .ok d
  | split, d => .ok (.ofList d.states)
  | reverse, d => .ok (.ofList d.states.reverse)
  | empty, _ => .ok (.ofList [])
  | count, d => .ok (.one (State.empty.withEntry "n" (.ofNat d.states.length)))
  | first, d => .ok (.one (d.states.head?.getD .empty))
  | take n, d => .ok (.ofList (d.states.take n))
  | fail message, _ => .error (.runnable runnable message)
  | swapSweep betas, d =>
    match d.toStates runnable with
    | .error e => .error e
    | .ok states =>
      match states.items with
      | [] => .ok (.many states)
      | s :: rest => .ok (.many { states with items := sweep betas s rest })

end Orchestra
