import Orchestra.Duration
import Orchestra.Json.Printer
import Orchestra.RunError
import Orchestra.Text.Blank

/-!
# Configuration of a run

The settings shared by every runnable of a run: grace periods for cooperative stops, the default
bound on concurrent elements and the default policy on failures. Runnables may override each.
-/

namespace Orchestra

/-- How a fan-out reacts to a failing child. -/
inductive FailurePolicy where
  | failFast
  | bestEffort
deriving DecidableEq, Repr, Inhabited

namespace FailurePolicy

/-- The written name. -/
def text : FailurePolicy → String
  | failFast => "fail_fast"
  | bestEffort => "best_effort"

/-- The debug text. -/
def debugText : FailurePolicy → String
  | failFast => "FailFast"
  | bestEffort => "BestEffort"

/-- The policy with exactly the given written name. -/
def ofText? (s : String) : Option FailurePolicy :=
  if s = failFast.text then some failFast
  else if s = bestEffort.text then some bestEffort
  else none

/-- A character with upper-case ASCII letters made lower and a hyphen made an underscore. -/
def normalChar (c : Char) : Char :=
  if c = '-' then '_' else if 'A' ≤ c && c ≤ 'Z' then Char.ofNat (c.toNat + 32) else c

/-- A text without blanks at the ends and with each character made normal. -/
def normalize (s : String) : String :=
  String.ofList ((Text.trimChars s.toList).map normalChar)

/-- The policy that a text names up to blanks at its ends, case and hyphens. -/
def parse (s : String) : Except RunError FailurePolicy :=
  match ofText? (normalize s) with
  | some policy => .ok policy
  | none => .error (.config ("unknown failure policy: " ++ normalize s))

end FailurePolicy

/-- The settings of a run. -/
structure Config where
  raceGraceMs : Nat
  stopGraceMs : Nat
  mapLimit : Option Nat
  policy : FailurePolicy
deriving DecidableEq, Repr, Inhabited

namespace Config

/-- The settings where nothing is configured. -/
def default : Config := ⟨100, 100, none, .failFast⟩

/-- How long a race waits for its losers. -/
def raceGrace (c : Config) : Duration := .ofMillis c.raceGraceMs

/-- How long a fan-out waits for stopped children. -/
def stopGrace (c : Config) : Duration := .ofMillis c.stopGraceMs

/-- Sets how long a race waits for its losers. -/
def withRaceGrace (c : Config) (grace : Duration) : Config :=
  { c with raceGraceMs := grace.millis }

/-- Sets how long a fan-out waits for stopped children. -/
def withStopGrace (c : Config) (grace : Duration) : Config :=
  { c with stopGraceMs := grace.millis }

/-- Sets the bound on concurrent elements, which is at least one. -/
def withMapLimit (c : Config) (bound : Nat) : Config :=
  { c with mapLimit := some (max bound 1) }

/-- Sets the policy on failures. -/
def withPolicy (c : Config) (policy : FailurePolicy) : Config :=
  { c with policy }

/-- Refuses settings that would let nothing run. -/
def validate (c : Config) : Except RunError Config :=
  if c.mapLimit = some 0 then .error (.config "map_max_concurrency must be at least 1") else .ok c

/-- The settings as JSON text. -/
def text (c : Config) : String :=
  Json.objectText
    [("race_grace_period_ms", toString c.raceGraceMs),
     ("stop_grace_period_ms", toString c.stopGraceMs),
     ("map_max_concurrency", (c.mapLimit.map toString).getD "null"),
     ("failure_policy", Json.stringText c.policy.text)]

end Config

end Orchestra
