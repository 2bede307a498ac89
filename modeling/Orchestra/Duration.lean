import Orchestra.Decimal.Format

/-!
# Durations

A span of time is a number of nanoseconds below `2 ^ 64` seconds. It is shown with the largest unit
that gives a whole part, and the fraction without trailing zeros. An instant is the number of
nanoseconds since the clock began; a span that leads past the last instant cannot be added.
-/

namespace Orchestra

/-- A span of time. -/
structure Duration where
  nanos : Nat
deriving DecidableEq, Repr, Inhabited

namespace Duration

/-- The number of nanoseconds in a second. -/
def nanosPerSecond : Nat := 1000000000

/-- The number of nanoseconds in a millisecond. -/
def nanosPerMilli : Nat := 1000000

/-- The least number of nanoseconds that is no duration. -/
def limit : Nat := 18446744073709551616 * nanosPerSecond

/-- The empty span. -/
def zero : Duration := ⟨0⟩

/-- The span of the given seconds and nanoseconds. -/
def ofParts (secs nanos : Nat) : Duration := ⟨secs * nanosPerSecond + nanos⟩

/-- The span of the given milliseconds. -/
def ofMillis (ms : Nat) : Duration := ⟨ms * nanosPerMilli⟩

/-- Whole seconds. -/
def secs (d : Duration) : Nat := d.nanos / nanosPerSecond

/-- Nanoseconds beyond the whole seconds. -/
def subsecNanos (d : Duration) : Nat := d.nanos % nanosPerSecond

/-- Whole milliseconds, capped at the largest 64-bit number. -/
def millis (d : Duration) : Nat := min (d.nanos / nanosPerMilli) 18446744073709551615

/-- The sum, unless it is no duration. -/
def add? (a b : Duration) : Option Duration :=
  if a.nanos + b.nanos < limit then some ⟨a.nanos + b.nanos⟩ else none

/-- The nearest double to the span in seconds: whole seconds and the rest are rounded apart. -/
def toSeconds (d : Duration) : Double :=
  (Double.ofRatio false d.secs 1).add (Double.ofRatio false d.subsecNanos nanosPerSecond)

/-- A whole part and a fraction of `10 ^ places`, written without trailing zeros. -/
def fractionText (whole fraction places : Nat) : String :=
  let digits := Decimal.digitsText fraction
  let padded := (Decimal.zeros (places - digits.length) ++ digits).toList
  let kept := (padded.reverse.dropWhile (· = '0')).reverse
  Decimal.digitsText whole ++ if kept.isEmpty then "" else "." ++ String.ofList kept

/-- The debug text of a span. -/
def debugText (d : Duration) : String :=
  if 0 < d.secs then fractionText d.secs d.subsecNanos 9 ++ "s"
  else if nanosPerMilli ≤ d.nanos then
    fractionText (d.nanos / nanosPerMilli) (d.nanos % nanosPerMilli) 6 ++ "ms"
  else if 1000 ≤ d.nanos then fractionText (d.nanos / 1000) (d.nanos % 1000) 3 ++ "µs"
  else fractionText d.nanos 0 0 ++ "ns"

end Duration

/-! ### Instants -/

namespace Instant

/-- The least number of nanoseconds that is no instant: the seconds of a clock are signed words. -/
def limit : Nat := 9223372036854775808 * Duration.nanosPerSecond

/-- The instant at which a span is over that begins at an instant, unless there is none. -/
def after? (instant : Nat) (span : Duration) : Option Nat :=
  if instant + span.nanos < limit then some (instant + span.nanos) else none

/-- The panic of a sum that is no instant. -/
def overflow : String := "overflow when adding duration to instant"

end Instant

end Orchestra
