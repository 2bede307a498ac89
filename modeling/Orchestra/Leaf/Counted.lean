import Orchestra.Runnable

/-!
# Leaves that remember

Runnables that share a counter or a tracker between their calls, so that an answer depends on the
calls before.
-/

namespace Orchestra.Leaf

/-- The value a counter has reached. -/
def countIn (cells : Cells) (counter : CounterId) : Nat :=
  (cells.counters.get? counter).getD 0

/-- Emits one of the given energies per call, the last one again once they are used up. -/
def scripted (energies : List Double) (counter : CounterId) : Runnable :=
  ⟨"Scripted",
    fun cells => Text.debugRecord "Scripted"
      [("energies", Text.debugList (energies.map Text.debugDouble)),
       ("cursor", toString (countIn cells counter))],
    fun _ input =>
      match input.toState "Scripted" with
      | .error e => .fail e
      | .ok s =>
        .ask (.count counter) fun call =>
          match energies[call]? <|> energies.getLast? with
          | some e => .succeed (.one ((s.withEnergy e).withEntry "call" (.ofNat call)))
          | none => .fail (.runnable "Scripted" "empty script")⟩

/-- Offers one state to a tracker, and returns it or the best state held. -/
def track (key : Key) (outputBest : Bool) (tracker : TrackerId) : Runnable :=
  ⟨"TrackMin",
    fun cells => Text.debugOpenRecord "TrackMin"
      [("output_best", Text.debugBool outputBest),
       ("best_key", Text.debugOption
         (((cells.trackers.get? tracker).bind Tracker.key?).map Text.debugDouble))],
    fun _ input =>
      match input.toState "TrackMin" with
      | .error e => .fail e
      | .ok s =>
        .ask (.offer tracker (key s) s) fun best =>
          .succeed (.one (if outputBest then best.getD s else s))⟩

/-- Stops a token from a given call on, the given one or else that of its context, and then returns
its input or fails as cancelled. -/
def stopper (target : Option TokenId) (firstCall : Nat) (acknowledge : Bool) (counter : CounterId) :
    Runnable :=
  ⟨"Stopper", fun _ => "Stopper", fun ctx input =>
    .ask (.count counter) fun earlier =>
      if earlier + 1 < firstCall then .succeed input
      else
        .ask (.stop [target.getD ctx.token]) fun _ =>
          if acknowledge then .fail .cancelled else .succeed input⟩

end Orchestra.Leaf
