import Orchestra.Runnable

/-!
# Branches in sequence

Components run one after the other, each on the output of the one before. An error ends the branch
and is its outcome; a stopped branch returns the latest data it holds instead of starting the next
component.
-/

namespace Orchestra

/-- Runnables in sequence, with a name of their own or none. -/
structure Branch where
  components : List Runnable
  name : Option String

namespace Branch

/-- Runs components on the data held. -/
def steps (ctx : Context) : List Runnable → Data → Task
  | [], held => .succeed held
  | component :: rest, held =>
    .ask (.isStopped ctx.token) fun stopped =>
      if stopped then .succeed held
      else ctx.attempt component held (steps ctx rest) (.succeed held)

/-- The debug text. -/
def debugText (b : Branch) (cells : Cells) : String :=
  Text.debugRecord "Branch"
    [("components", Text.debugList (b.components.map fun r => r.describe cells)),
     ("name", Text.debugOption (b.name.map Text.quoted))]

/-- The branch as a runnable. -/
def runnable (b : Branch) : Runnable :=
  ⟨b.name.getD "Branch", b.debugText, fun ctx input => steps ctx b.components input⟩

end Branch

end Orchestra
