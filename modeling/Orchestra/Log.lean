import Orchestra.Selection
import Orchestra.Text.Debug

/-!
# Log entries

What a run reports while it goes on: summaries of the data passing a point of a pipeline, failures
that a fan-out or a race survives, and children that outlive their grace period.
-/

namespace Orchestra

/-- How urgent a log entry is. -/
inductive LogLevel where
  | info
  | warn
deriving DecidableEq, Repr

/-- The written name of a level. -/
def LogLevel.text : LogLevel → String
  | info => "INFO"
  | warn => "WARN"

/-- One report of a run. -/
inductive LogEntry where
  | summary (label shape : String) (states samples : Nat) (best : Option Double)
  | childFailed (owner : String) (index : Nat) (error : RunError)
  | contenderFailed (owner : String) (index : Nat) (error : RunError)
  | abandoned (owner : String) (count : Nat)
deriving Repr

namespace LogEntry

/-- The level of an entry. -/
def level : LogEntry → LogLevel
  | summary .. => .info
  | childFailed .. | contenderFailed .. | abandoned .. => .warn

/-- The message of an entry. -/
def message : LogEntry → String
  | summary .. => "state"
  | childFailed .. => "child failed, continuing with survivors"
  | contenderFailed .. => "racing branch failed"
  | abandoned .. => "children did not acknowledge stop within grace period, abandoning"

/-- The fields of an entry with their values. -/
def fields : LogEntry → List (String × Json)
  | summary label shape states samples best =>
    [("label", .str label), ("shape", .str shape), ("states", .ofNat states),
     ("samples", .ofNat samples),
     ("best_energy", .str (Text.debugOption (best.map Text.debugDouble)))]
  | childFailed owner index error | contenderFailed owner index error =>
    [("owner", .str owner), ("index", .ofNat index), ("error", .str error.message)]
  | abandoned owner count =>
    [("owner", .str owner), ("abandoned", .ofNat count)]

end LogEntry

/-- The summary of data under a label. -/
def Data.summary (label : String) (d : Data) : LogEntry :=
  .summary label d.shape d.states.length d.energies.length
    (Double.leastOf? (d.states.filterMap State.minEnergy?))

end Orchestra
