import Orchestra.Proofs.FanOut.Stopping

/-!
# Grace periods that are over at no instant

A fan-out that fails fast first computes when its grace period is over, and only then raises the
error. A period so long that no instant is its end makes it panic instead, with one message for
every fan-out.
-/

namespace Orchestra

namespace Trace

variable {tr : Trace} {task : TaskId} {m : Nat} {K : Outcome → Task} {f : FanOut}

section Time

variable (htime : ∀ instant, ∃ k, instant ≤ tr.history.clock k)
include htime

section Overflow

variable {rules : FanOut.Rules} (hgrace : Instant.limit ≤ rules.grace.nanos)
include hgrace

end Overflow

end Time

end Trace

variable {tr : Trace} {task : TaskId} {ctx : Context} {K : Outcome → Task} {m final : Nat}

end Orchestra
