import Orchestra.Config
import Orchestra.Json.Record
import Orchestra.State

/-!
# Written forms of the data types

Samples, sample sets, metadata, failure markers, settings and policies as JSON. Empty metadata is
left out and defaulted on reading; an energy that is no real number is written as `null`, which no
reader of energies accepts.
-/

namespace Orchestra

namespace Info

/-- Reads metadata inside `depth` containers. -/
def ofDocument? [Json.FloatReader] (depth : Nat) (d : Json.Document) : Option Info :=
  match Json.ofDocument? depth d with
  | some (.obj entries) => some ⟨entries⟩
  | _ => none

/-- The written form. -/
def text (info : Info) : String :=
  info.toJson.text

end Info

namespace Sample

/-- Reads a sample inside `depth` containers. -/
def ofDocument? [Json.FloatReader] (depth : Nat) (d : Json.Document) : Option Sample := do
  let fields ← Json.fields? depth ["values", "energy", "num_occurrences", "metadata"] d
  match fields with
  | [values, energy, occurrences, metadata] =>
    some
      { values := ← Json.required (Json.list? (depth + 1) Json.signed?) values
        energy := ← Json.required Json.real? energy
        occurrences := ← Json.required Json.word? occurrences
        metadata := ← Json.optional (Info.ofDocument? (depth + 1)) .empty metadata }
  | _ => none

/-- The written form. -/
def text (s : Sample) : String :=
  Json.objectText <|
    [("values", Json.arrayText (s.values.map Decimal.intText)),
     ("energy", Json.doubleText s.energy),
     ("num_occurrences", toString s.occurrences)] ++
    if s.metadata.isEmpty then [] else [("metadata", s.metadata.text)]

end Sample

namespace SampleSet

/-- Reads a sample set inside `depth` containers. -/
def ofDocument? [Json.FloatReader] (depth : Nat) (d : Json.Document) : Option SampleSet :=
  (Json.list? depth (Sample.ofDocument? (depth + 1)) d).map SampleSet.mk

/-- The written form, a list of samples. -/
def text (set : SampleSet) : String :=
  Json.arrayText (set.toList.map Sample.text)

end SampleSet

namespace FailureMarker

/-- Reads a failure marker inside `depth` containers. -/
def ofDocument? (depth : Nat) (d : Json.Document) : Option FailureMarker := do
  let fields ← Json.fields? depth ["index", "runnable", "message"] d
  match fields with
  | [index, runnable, message] =>
    some
      { index := ← Json.required Json.word? index
        runnable := ← Json.required Json.textOf? runnable
        message := ← Json.required Json.textOf? message }
  | _ => none

/-- The written form. -/
def text (m : FailureMarker) : String :=
  Json.objectText
    [("index", toString m.index), ("runnable", Json.stringText m.runnable),
     ("message", Json.stringText m.message)]

end FailureMarker

namespace FailurePolicy

/-- Reads a policy inside `depth` containers: its name, or an object with `null` under its name. -/
def ofDocument? (depth : Nat) : Json.Document → Option FailurePolicy
  | .string (some s) => ofText? s
  | .object [(some s, .null)] => if depth < Json.nestingLimit then ofText? s else none
  | _ => none

end FailurePolicy

namespace Config

/-- Reads a bound that may be `null`. -/
def bound? : Json.Document → Option (Option Nat)
  | .null => some none
  | d => (Json.word? d).map some

/-- Reads settings inside `depth` containers; absent fields keep their defaults. -/
def ofDocument? (depth : Nat) (d : Json.Document) : Option Config := do
  let fields ← Json.fields? depth
    ["race_grace_period_ms", "stop_grace_period_ms", "map_max_concurrency", "failure_policy"] d
  match fields with
  | [raceGrace, stopGrace, mapLimit, policy] =>
    some
      { raceGraceMs := ← Json.optional Json.word? default.raceGraceMs raceGrace
        stopGraceMs := ← Json.optional Json.word? default.stopGraceMs stopGrace
        mapLimit := ← Json.optional bound? default.mapLimit mapLimit
        policy := ← Json.optional (FailurePolicy.ofDocument? (depth + 1)) default.policy policy }
  | _ => none

end Config

/-- The value of a whole text under a reader of documents. -/
def readText? {α : Type} (read : Nat → Json.Document → Option α) (text : String) : Option α :=
  (Json.Document.ofText? text).bind (read 0)

end Orchestra
