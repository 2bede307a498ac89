import Orchestra.Config
import Orchestra.Toml.Reading

/-!
# Configuration from a TOML document

Missing keys keep their defaults and unknown ones are ignored. A policy is its name, or a table
whose single key is the name of a policy and holds nothing.
-/

namespace Orchestra.Config

/-- A nonnegative integer. -/
def itemWord? : Toml.Item → Option Nat
  | .integer n => if 0 ≤ n then some n.toNat else none
  | _ => none

/-- Whether an item holds nothing. -/
def holdsNothing : Toml.Item → Bool
  | .array items => items.isEmpty
  | .table _ entries => entries.isEmpty
  | .tables elements => elements.isEmpty
  | _ => false

/-- A policy. -/
def itemPolicy? : Toml.Item → Option FailurePolicy
  | .text s => FailurePolicy.ofText? s
  | .table _ [(key, item)] => if holdsNothing item then FailurePolicy.ofText? key else none
  | _ => none

/-- A field of a table, or its default. -/
def entry? {α : Type} (t : Toml.Table) (key : String) (read : Toml.Item → Option α) (absent : α) :
    Option α :=
  match t.find? key with
  | some item => read item
  | none => some absent

/-- The settings that a table gives. -/
def ofTable? (t : Toml.Table) : Option Config := do
  let raceGraceMs ← entry? t "race_grace_period_ms" itemWord? default.raceGraceMs
  let stopGraceMs ← entry? t "stop_grace_period_ms" itemWord? default.stopGraceMs
  let mapLimit ← entry? t "map_max_concurrency" (fun i => (itemWord? i).map some) default.mapLimit
  let policy ← entry? t "failure_policy" itemPolicy? default.policy
  some ⟨raceGraceMs, stopGraceMs, mapLimit, policy⟩

/-- The settings that a document gives. -/
def ofToml (text : String) : Except RunError Config :=
  match (Toml.ofText? text).bind ofTable? with
  | some c => c.validate
  | none => .error (.config "TOML parse error")

end Orchestra.Config
