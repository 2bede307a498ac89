/-!
# The time that code takes

Loops measure how long they have been running on a clock of their own, which goes on while code runs,
where nobody waits and no timer fires. How long code takes is not for the code to say, so the clock knows
beforehand what its next readings are.
-/

namespace Orchestra

/-- A clock for the time that code takes, in nanoseconds. -/
structure Stopwatch where
  /-- The last reading. -/
  reading : Nat
  /-- The time that passes before each of the next readings. -/
  laps : Nat → Nat

namespace Stopwatch

/-- The clock where code takes no time. -/
def still : Stopwatch := ⟨0, fun _ => 0⟩

/-- The clock after one more reading. -/
def next (s : Stopwatch) : Stopwatch :=
  ⟨s.reading + s.laps 0, fun n => s.laps (n + 1)⟩

end Stopwatch

end Orchestra
