import Orchestra.Duration
import Orchestra.Runnable

/-!
# Leaves that wait

Delays that differ in how they treat a stop: one returns early, one acknowledges the stop, and two
do not look at it. Where the time comes together with a stop, the time wins.
-/

namespace Orchestra.Leaf

/-- Waits, at most until a stop, and returns its input. -/
def sleep (span : Duration) : Runnable :=
  ⟨"Sleep", fun _ => Text.debugRecord "Sleep" [("duration", span.debugText)], fun ctx input =>
    .ask (.sleep span (some ctx.token)) fun _ => .succeed input⟩

/-- Waits and then marks one state as finished, with one sample of a new energy if there is one. A
stop before the time is acknowledged. -/
def delayed (delay : Duration) (energy : Option Double) (label : String) : Runnable :=
  ⟨label,
    fun _ => Text.debugRecord "Delayed"
      [("delay", delay.debugText), ("energy", Text.debugOption (energy.map Text.debugDouble)),
       ("label", Text.quoted label)],
    fun ctx input =>
      .ask (.sleep delay (some ctx.token)) fun due =>
        if due then
          match input.toState label with
          | .error e => .fail e
          | .ok s =>
            let s := match energy with
              | some e => s.withEnergy e
              | none => s
            .succeed (.one (s.withEntry "finished_by" (.str label)))
        else .fail .cancelled⟩

/-- Waits whether stopped or not, and replaces the samples of one state by one of a new energy. -/
def stubborn (delay : Duration) (energy : Double) : Runnable :=
  ⟨"Stubborn",
    fun _ => Text.debugRecord "Stubborn"
      [("delay", delay.debugText), ("energy", Text.debugDouble energy)],
    fun _ input =>
      .ask (.sleep delay none) fun _ =>
        match input.toState "Stubborn" with
        | .error e => .fail e
        | .ok s => .succeed (.one (s.withEnergy energy))⟩

/-- Waits whether stopped or not, and fails. -/
def failing (message : String) (delay : Duration) : Runnable :=
  ⟨"Failing",
    fun _ => Text.debugRecord "Failing" [("message", Text.quoted message), ("delay", delay.debugText)],
    fun _ _ =>
      let failure : Task := .fail (.runnable "Failing" message)
      if delay = .zero then failure else .ask (.sleep delay none) fun _ => failure⟩

end Orchestra.Leaf
