import Orchestra.Config
import Orchestra.Text.Quoted

/-!
# Configuration from environment variables

Four variables are read over the defaults, in a fixed order. A number is written in decimal digits
after an optional plus sign, with blanks around it, and must be below `2 ^ 64`. The first variable
that cannot be read is reported; a bound of zero is reported after all of them.
-/

namespace Orchestra.Config

/-- The value of a run of decimal digits, if it is one. -/
def decimal? : List Char → Option Nat
  | [] => none
  | cs =>
    if cs.all fun c => '0' ≤ c && c ≤ '9' then
      some (cs.foldl (fun n c => n * 10 + (c.toNat - 48)) 0)
    else none

/-- The number that a text writes, if it is a 64-bit one. -/
def word? (s : String) : Option Nat :=
  let cs := Text.trimChars s.toList
  let digits := if cs.head? = some '+' then cs.drop 1 else cs
  match decimal? digits with
  | some n => if n < 0x10000000000000000 then some n else none
  | none => none

/-- The number in a variable. -/
def readWord (key value : String) : Except RunError Nat :=
  match word? value with
  | some n => .ok n
  | none => .error (.config (key ++ ": cannot parse " ++ Text.quoted value))

/-- Reads a variable if it is set, and otherwise keeps the settings. -/
def readVariable {α : Type} (lookup : String → Option String) (key : String)
    (read : String → Except RunError α) (store : Config → α → Config) (c : Config) :
    Except RunError Config :=
  match lookup key with
  | some value => (read value).map (store c)
  | none => .ok c

/-- The variable of the grace period of races. -/
def raceGraceKey : String := "HYBRID_RACE_GRACE_MS"

/-- The variable of the grace period of stopped fan-outs. -/
def stopGraceKey : String := "HYBRID_STOP_GRACE_MS"

/-- The variable of the bound on concurrent elements. -/
def mapLimitKey : String := "HYBRID_MAP_MAX_CONCURRENCY"

/-- The variable of the failure policy. -/
def policyKey : String := "HYBRID_FAILURE_POLICY"

/-- The settings that the variables give. -/
def ofEnvironment (lookup : String → Option String) : Except RunError Config := do
  let c ← readVariable lookup raceGraceKey (readWord raceGraceKey)
    (fun c n => { c with raceGraceMs := n }) default
  let c ← readVariable lookup stopGraceKey (readWord stopGraceKey)
    (fun c n => { c with stopGraceMs := n }) c
  let c ← readVariable lookup mapLimitKey (readWord mapLimitKey)
    (fun c n => { c with mapLimit := some n }) c
  let c ← readVariable lookup policyKey FailurePolicy.parse (fun c p => { c with policy := p }) c
  c.validate

end Orchestra.Config
