import Orchestra.Duration
import Orchestra.FanOut.Gather

/-!
# Branches side by side

Every child runs and all are waited for. The outputs are combined in declared order, so the result
does not depend on which child finished first.
-/

namespace Orchestra

/-- Children that run side by side. A single input state is copied to every child; a list feeds each
child its own state unless only single inputs are accepted. -/
structure Branches where
  children : List Runnable
  fanIn : FanIn
  policy : Option FailurePolicy
  stopGrace : Option Duration
  singleInput : Bool

namespace Branches

/-- The name, which depends on the inputs accepted. -/
def name (b : Branches) : String :=
  if b.singleInput then "ParallelBranches" else "Branches"

/-- How failures and stops are treated under the settings of a run. -/
def rules (b : Branches) (config : Config) : FanOut.Rules :=
  { owner := b.name
    policy := b.policy.getD config.policy
    grace := b.stopGrace.getD config.stopGrace }

/-- Runs the children. -/
def next (b : Branches) (ctx : Context) (input : Data) : Task :=
  if b.children.isEmpty then .fail (.invalidInput b.name "no branches to run")
  else
    match FanOut.distribute b.name b.children.length (!b.singleInput) input with
    | .error e => .fail e
    | .ok inputs =>
      FanOut.start ctx none (b.children.zip inputs) fun f =>
        f.gather ctx (b.rules ctx.config) fun gathered =>
          .done (b.fanIn.apply gathered.states gathered.markers)

/-- The debug text. -/
def debugText (b : Branches) (cells : Cells) : String :=
  Text.debugRecord "Branches"
    [("children", Text.debugList (b.children.map fun r => r.describe cells)),
     ("fan_in", b.fanIn.debugText),
     ("policy", Text.debugOption (b.policy.map FailurePolicy.debugText)),
     ("stop_grace", Text.debugOption (b.stopGrace.map Duration.debugText)),
     ("single_input", Text.debugBool b.singleInput)]

/-- The branches as a runnable. -/
def runnable (b : Branches) : Runnable :=
  ⟨b.name, b.debugText, b.next⟩

end Branches

end Orchestra
