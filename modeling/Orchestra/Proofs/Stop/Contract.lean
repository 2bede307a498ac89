import Orchestra.Leaf.Counted
import Orchestra.Leaf.Plain
import Orchestra.Leaf.Timed
import Orchestra.Proofs.FanOut.Stopping
import Orchestra.Proofs.Stop.SideBySide
import Orchestra.Proofs.World.Alone

/-!
# Contracts under stops

A contract gives each part of a pipeline a class of inputs and a class of outputs. Every part accepts
whatever the parts before it may hand over when they are stopped: a branch may hand over the data
before any of its components, a loop what it holds, a fan-out any choice of its children's outputs. A
pipeline with a contract, whenever it is stopped, comes to an output of its class, acknowledges the
stop, or fails with an error that is expected of its leaves.
-/

namespace Orchestra

variable {latest : Nat} {expected : RunError → Prop} {config : Config}

/-- Up to a time, a runnable yields from data of one class data of another, in whatever way it is
stopped. -/
def Runnable.Yields (latest : Nat) (expected : RunError → Prop) (config : Config) (P : Data → Prop)
    (r : Runnable) (Q : Data → Prop) : Prop :=
  r.Meets (.until latest) expected config P Q

/-- Up to a time, a runnable yields from data of one class data of another, by the rules of the
composites over leaves that do so. -/
inductive Runnable.Contract (latest : Nat) (expected : RunError → Prop) (config : Config) :
    (Data → Prop) → Runnable → (Data → Prop) → Prop
  | leaf {P Q : Data → Prop} {r : Runnable} (yields : r.Yields latest expected config P Q) :
    Contract latest expected config P r Q
  | weaken {P P' Q Q' : Data → Prop} {r : Runnable} (stronger : Contract latest expected config P' r Q')
      (inputs : ∀ d, P d → P' d) (outputs : ∀ d, Q' d → Q d) : Contract latest expected config P r Q
  | branch_nil {P Q : Data → Prop} {name : Option String} (held : ∀ d, P d → Q d) :
    Contract latest expected config P (Branch.runnable ⟨[], name⟩) Q
  /-- A branch may hand over its input, or go on as the branch of the other components. -/
  | branch_cons {P P' Q : Data → Prop} {r : Runnable} {rest : List Runnable}
      {name name' : Option String} (held : ∀ d, P d → Q d)
      (first : Contract latest expected config P r P')
      (others : Contract latest expected config P' (Branch.runnable ⟨rest, name'⟩) Q) :
    Contract latest expected config P (Branch.runnable ⟨r :: rest, name⟩) Q
  /-- A fold with a function. -/
  | reduce {S T : State → Prop} {r : Reduce} {f : State → State → Except RunError State}
      (combiner : r.combiner = .function f)
      (combines : ∀ held item, S held → T item →
        (∀ s, f held item = .ok s → S s) ∧ ∀ e, f held item = .error e → expected e) :
    Contract latest expected config (Data.IsList expected "Reduce" (r.Takes expected S T)) r.runnable
      fun d => ∃ s, d = .one s ∧ S s
  /-- A fold with a runnable, whose outputs must be single states even if it is stopped. -/
  | reduceBy {S T : State → Prop} {r : Reduce} {body : Runnable}
      (combiner : r.combiner = .runnable body)
      (combines : Contract latest expected config
        (fun d => ∃ held item, d = .ofList [held, item] ∧ S held ∧ T item) body
        (Data.IsState expected body.name S)) :
    Contract latest expected config (Data.IsList expected "Reduce" (r.Takes expected S T)) r.runnable
      fun d => ∃ s, d = .one s ∧ S s
  | last {P : Data → Prop} {l : Loop} (body : Contract latest expected config P l.body P) :
    Contract latest expected config P l.last P
  /-- The outputs of the body must be single states even if it is stopped, and there may be none. -/
  | unwind {S : State → Prop} {l : Loop}
      (body : Contract latest expected config (fun d => ∃ s, d = .one s ∧ S s) l.body
        (Data.IsState expected l.body.name S)) :
    Contract latest expected config (Data.IsState expected "Unwind" S) l.unwind
      fun d => ∃ history, d = .ofList history ∧ ∀ s ∈ history, S s
  | best {P : Data → Prop} {l : Loop} {patience : Option Nat}
      (body : Contract latest expected config P l.body P) :
      Contract latest expected config P (l.best patience) P
  | improve {P Q : Data → Prop} {l : Loop} {maxTries : Option Nat}
      (body : Contract latest expected config P l.body Q) (held : ∀ d, P d → Q d) :
    Contract latest expected config P (l.improve maxTries) Q
  /-- The fan-in must accept every choice of outputs, and the grace period be over at some instant. -/
  | branches {P Q Q' : Data → Prop} {b : Branches} {C : Nat → Data → Prop}
      (grace : latest + (b.rules config).grace.nanos < Instant.limit)
      (nonempty : b.children = [] → expected (.invalidInput b.name "no branches to run"))
      (feeds : FanOut.Feeds expected b.name b.children.length (!b.singleInput) P C)
      (children : ∀ i (r : Runnable), b.children[i]? = some r →
        Contract latest expected config (C i) r Q)
      (accepts : b.fanIn.Accepts expected Q Q') : Contract latest expected config P b.runnable Q'
  | race {P Q Q' : Data → Prop} {r : Race} {C : Nat → Data → Prop}
      (grace : latest + (r.rules config).grace.nanos < Instant.limit)
      (nonempty : r.children = [] →
        expected (.invalidInput "RacingBranches" "no branches to race"))
      (feeds : FanOut.Feeds expected "RacingBranches" r.children.length true P C)
      (children : ∀ i (c : Runnable), r.children[i]? = some c →
        Contract latest expected config (C i) c Q)
      (accepts : r.fanIn.Accepts expected Q Q') : Contract latest expected config P r.runnable Q'
  /-- Any nonempty choice of outputs may be missing from the list. -/
  | map {Q : Data → Prop} {m : Map} {S T : State → Prop} {L : List State → Prop}
      (grace : latest + (m.rules config).grace.nanos < Instant.limit)
      (bounded : ∀ permits, m.bound config = some permits → permits ≤ Map.maxPermits)
      (items : ∀ items, L items → ∀ s ∈ items, S s) (empty : L [] → Q (.ofList []))
      (worker : Contract latest expected config (fun d => ∃ s, d = .one s ∧ S s) m.worker
        (Data.IsState expected m.worker.name T))
      (accepts : ∀ states ≠ [], (∀ s ∈ states, T s) → ∀ markers, Q (.many ⟨states, markers⟩)) :
    Contract latest expected config (Data.IsList expected "Map" L) m.runnable Q

/-- Up to a time, a grace period is over at some instant that is so when it begins at that time. -/
theorem Rely.affords_until {span : Duration} (h : latest + span.nanos < Instant.limit) :
    (Rely.until latest).Affords expected span :=
  fun _ hnow => .inl (Nat.lt_of_le_of_lt (Nat.add_le_add_right hnow _) h)

/-- A runnable keeps its contract. -/
theorem Runnable.Contract.yields {P Q : Data → Prop} {r : Runnable}
    (escalates : Escalates expected) (contract : r.Contract latest expected config P Q) :
    r.Yields latest expected config P Q := by
  unfold Yields
  induction contract with
  | leaf yields => exact yields
  | weaken _ inputs outputs ih => exact ih.weaken inputs outputs
  | branch_nil held => exact Branch.meets_nil _ held
  | branch_cons held _ _ ihfirst ihothers => exact Branch.meets_cons held ihfirst ihothers
  | reduce combiner combines =>
    refine Reduce.meets ?_
    rw [combiner]
    exact combines
  | reduceBy combiner _ ih =>
    refine Reduce.meets ?_
    rw [combiner]
    exact ih
  | last _ ih => exact Loop.meets_last ih
  | unwind _ ih => exact Loop.meets_unwind ih
  | best _ ih => exact Loop.meets_best _ ih
  | improve _ held ih => exact Loop.meets_improve _ ih held
  | branches grace nonempty feeds _ accepts ih =>
    exact Branches.meets escalates (Rely.affords_until grace) nonempty feeds ih accepts
  | race grace nonempty feeds _ accepts ih =>
    exact Race.meets escalates (Rely.affords_until grace) nonempty feeds ih accepts
  | map grace bounded items empty _ accepts ih =>
    exact Map.meets escalates (Rely.affords_until grace) (fun permits h => .inl (bounded permits h))
      items empty ih accepts

/-! ### The leaves of the library -/

section Leaves

variable {P Q : Data → Prop}

/-- A runnable that computes its output at once keeps what its function does. -/
theorem Runnable.yields_ofFunction {name text : String} {f : Data → Outcome}
    (h : ∀ d, P d → Outcome.Within expected Q (f d)) :
    (Runnable.ofFunction name text f).Yields latest expected config P Q :=
  fun _ _ d hd => h d hd

/-- A report returns its input. -/
theorem Leaf.yields_report (label : String) (h : ∀ d, P d → Q d) :
    (Leaf.report label).Yields latest expected config P Q :=
  fun _ _ d hd => ⟨trivial, fun _ _ => h d hd⟩

/-- A tracker may hold any state that was offered to it, and returns that or its input. -/
theorem Leaf.yields_track (key : Key) (outputBest : Bool) (tracker : TrackerId) {S : State → Prop}
    (hbest : outputBest = true → ∀ s, S s) :
    (Leaf.track key outputBest tracker).Yields latest expected config (Data.IsState expected "TrackMin" S)
      fun d => ∃ s, d = .one s ∧ S s := by
  intro ctx _ input hinput
  unfold Data.IsState at hinput
  unfold Leaf.track
  dsimp only
  split
  · next e he =>
    rw [he] at hinput
    exact .inr hinput
  · next s hs =>
    rw [hs] at hinput
    refine ⟨trivial, fun best _ => ⟨_, rfl, ?_⟩⟩
    split
    · next hout => exact hbest hout _
    · exact hinput

end Leaves

/-! ### Inputs and fan-ins -/

section Shapes

variable {P Q : Data → Prop}

end Shapes

/-! ### Runs -/

end Orchestra
