import Orchestra.Leaf.Plain
import Orchestra.Proofs.Loop.Stopping
import Orchestra.Proofs.Loop.Unwinding

/-!
# Retrying

The loop that waits for an improvement runs its body on its input, again and again. As long as it goes
on no output has been better than the input, so the input is the baseline of every try. The first output
that is better ends the loop and is what it returns; whatever else ends it, it returns its input. So it
never returns anything worse.
-/

namespace Orchestra

namespace Loop

/-- A loop in a round has called its body at most once in it, and only if there was a round left and it
had not given up. -/
theorem Stands.begun {σ : Type} {l : Loop} {plan : Plan σ} {started rounds : Nat} {held : σ}
    {es : List Event} {s : Script} (stands : Stands l plan started rounds held es s) :
    Script.begun es s = [] ∨
      Script.begun es s = [(l.body, plan.input held)] ∧ 0 < rounds ∧ plan.weary held = false := by
  cases stands with
  | exhausted | endless | timing => exact .inl rfl
  | outOfTime late => exact .inl (by simp [late.calls])
  | looking inTime => exact .inl (by simp [Script.begun, inTime.calls, Loop.round, Script.call?])
  | ended inTime => exact .inl (by simp [inTime.calls])
  | calling inTime eager =>
    refine .inr ⟨?_, Nat.succ_pos _, eager⟩
    rw [Script.begun_append, inTime.calls]
    rfl
  | satisfied inTime eager | refused inTime eager | failed inTime eager | wondering inTime eager
  | cancelled inTime eager =>
    refine .inr ⟨?_, Nat.succ_pos _, eager⟩
    rw [Script.begun_append, inTime.calls]
    rfl

/-! ### Tries without an improvement -/

variable {l : Loop} {maxTries : Option Nat} {input : Data} {started rounds left : Nat}
  {held held' last : Nat × Option Data} {before es fs : List Event}

/-- After some tries the loop still waits: it counts them, each was a run of the body on the input with
an output no better than that, and they are no more than are allowed. -/
structure Waiting (l : Loop) (maxTries : Option Nat) (input : Data) (held : Nat × Option Data)
    (es : List Event) : Prop where
  unimproved : held.2 = none
  tries : (Event.outputs es).length = held.1
  calls : Event.calls es = List.replicate held.1 (l.body, input)
  stale : ∀ output ∈ Event.outputs es,
    (input.key l.criteria.key).rank ≤ (output.key l.criteria.key).rank
  allowed : ∀ bound, maxTries = some bound → held.1 ≤ bound

theorem Waiting.start (reads : Reads l.criteria.budget before started) (maxTries : Option Nat)
    (input : Data) : Waiting l maxTries input (0, none) before := by
  refine ⟨rfl, ?_, reads.calls, ?_, fun _ _ => Nat.zero_le _⟩
  · rw [reads.outputs]
    rfl
  · rw [reads.outputs]
    exact nofun

/-- A loop that has not given up may try once more, -/
theorem lt_of_eager (eager : (l.improvePlan maxTries input).weary held = false) (bound : Nat)
    (hbound : maxTries = some bound) : held.1 < bound := by
  subst hbound
  exact Nat.not_le.mp (decide_eq_false_iff_not.mp eager)

/-- and one that has given up has made as many tries as are allowed. -/
theorem Waiting.tries_eq (waiting : Waiting l maxTries input held es)
    (weary : (l.improvePlan maxTries input).weary held = true) : maxTries = some held.1 := by
  cases maxTries with
  | none => contradiction
  | some bound =>
    have hle : bound ≤ held.1 := of_decide_eq_true weary
    rw [Nat.le_antisymm hle (waiting.allowed bound rfl)]

/-- A check of the time changes nothing, -/
theorem Waiting.stale_check {late : Bool} (waiting : Waiting l maxTries input held es)
    (checks : l.Checks started before late) : ∀ output ∈ Event.outputs (es ++ before),
      (input.key l.criteria.key).rank ≤ (output.key l.criteria.key).rank := by
  rw [Event.outputs_append, checks.outputs, List.append_nil]
  exact waiting.stale

/-- and one more output that is not better leaves all outputs no better than the input. -/
theorem Waiting.stale_append {output : Data} (waiting : Waiting l maxTries input held es)
    (inTime : l.Checks started before false)
    (h : ¬ (output.key l.criteria.key).below (input.key l.criteria.key) = true) :
    ∀ other ∈ Event.outputs
        (es ++ (before ++ [.looked false, .returned l.body input (.ok output)])),
      (input.key l.criteria.key).rank ≤ (other.key l.criteria.key).rank := by
  simp only [Event.outputs_append, inTime.outputs, Event.outputs_looked, Event.outputs_ok,
    Event.outputs_nil, List.nil_append, List.forall_mem_append, List.forall_mem_singleton]
  exact ⟨waiting.stale, Int.not_lt.mp (mt Double.below_iff.mpr h)⟩

theorem Waiting.next {output : Data} (waiting : Waiting l maxTries input held es)
    (first : GoesOn l (l.improvePlan maxTries input) started before held output held') :
    Waiting l maxTries input held'
      (es ++ (before ++ [.looked false, .returned l.body input (.ok output)])) := by
  obtain rfl := Except.ok.inj first.accepted
  have hunsatisfied := first.unsatisfied
  simp only [improvePlan, Bool.or_eq_false_iff, Option.isSome_eq_false_iff,
    Option.isNone_iff_eq_none, ite_eq_right_iff, reduceCtorEq, imp_false] at hunsatisfied
  refine ⟨if_neg hunsatisfied.1, ?_, ?_, ?_, ?_⟩
  · simp [waiting.tries, first.inTime.outputs]
  · simp [waiting.calls, first.inTime.calls, List.replicate_succ']
  · exact waiting.stale_append first.inTime hunsatisfied.1
  · exact fun bound hbound => lt_of_eager first.eager bound hbound

theorem Rounds.waiting
    (through : Rounds l (l.improvePlan maxTries input) started rounds held es left last)
    (waiting : Waiting l maxTries input held fs) :
    Waiting l maxTries input last (fs ++ es) := by
  induction through generalizing fs with
  | nil => rwa [List.append_nil]
  | @cons _ _ before _ _ _ output es first _ ih =>
    have hrest := ih (waiting.next first)
    have hsplit : fs ++ (before ++ [.looked false, .returned l.body input (.ok output)]) ++ es =
        fs ++ (before ++ .looked false :: .returned l.body input (.ok output) :: es) := by simp
    rwa [hsplit] at hrest

/-! ### What the loop returns -/

/-- How a loop ends that waits for an improvement, by what it has seen and whether its token is stopped
in the end: with the first output that is better than the input, or with the input, because the
iterations, the tries or the time were used up, the predicate held of the input, or there was a stop. -/
inductive Retried (l : Loop) (maxTries : Option Nat) (input : Data) (stopped : Bool) :
    List Event → Data → Prop
  | improved {before : List Event} {output : Data}
      (stale : ∀ other ∈ Event.outputs before,
        (input.key l.criteria.key).rank ≤ (other.key l.criteria.key).rank)
      (better : (output.key l.criteria.key).rank < (input.key l.criteria.key).rank) :
      Retried l maxTries input stopped
        (before ++ [.looked false, .returned l.body input (.ok output)]) output
  | unimproved {es : List Event}
      (stale : ∀ other ∈ Event.outputs es,
        (input.key l.criteria.key).rank ≤ (other.key l.criteria.key).rank)
      (ending : l.criteria.maxIterations = some (Event.outputs es).length ∨
        maxTries = some (Event.outputs es).length ∨
        Event.outputs es ≠ [] ∧ l.criteria.holdsOf (some input) = true ∨
        stopped = true ∨ l.LateAfter es) :
      Retried l maxTries input stopped es input

/-- What is returned is never worse than the input. -/
theorem Retried.rank_le {stopped : Bool} {d : Data} (retried : Retried l maxTries input stopped es d) :
    (d.key l.criteria.key).rank ≤ (input.key l.criteria.key).rank := by
  cases retried with
  | improved _ better => exact Int.le_of_lt better
  | unimproved => exact Int.le_refl _

/-- A loop that waits and then ends well in a round has ended in one of these ways. -/
theorem Stands.retried {d : Data} {stopped : Bool}
    (stands : Stands l (l.improvePlan maxTries input) started left last es (.done (.ok d)))
    (waiting : Waiting l maxTries input last fs) (hrounds : l.rounds = left + last.1)
    (hstopped : ∀ before, fs ++ es = before ++ [.looked true] → stopped = true)
    (hlate : l.Checks started es true → l.LateAfter (fs ++ es)) :
    Retried l maxTries input stopped (fs ++ es) d := by
  have hinput {d : Data} (hs : Script.done (.ok ((l.improvePlan maxTries input).result last)) =
      .done (.ok d)) : d = input := by
    have hresult : (l.improvePlan maxTries input).result last = input := by
      simp only [improvePlan, waiting.unimproved, Option.getD_none]
    cases hs
    exact hresult
  generalize hs : Script.done (.ok d) = s at stands
  cases stands with
  | exhausted bounded =>
    obtain rfl := hinput hs.symm
    rw [List.append_nil]
    refine .unimproved waiting.stale (.inl ?_)
    obtain ⟨bound, hbound⟩ := Option.isSome_iff_exists.mp bounded
    rw [Loop.rounds, hbound, Option.getD_some, Nat.zero_add] at hrounds
    rw [hbound, hrounds, waiting.tries]
  | outOfTime late =>
    obtain rfl := hinput hs.symm
    exact .unimproved (waiting.stale_check late) (.inr (.inr (.inr (.inr (hlate late)))))
  | @ended rounds before _ inTime stopped' ending =>
    obtain rfl := hinput hs.symm
    refine .unimproved (by simpa [inTime.outputs] using waiting.stale) ?_
    cases stopped' with
    | true =>
      exact .inr (.inr (.inr (.inl (hstopped (fs ++ before) (List.append_assoc _ _ _).symm))))
    | false =>
      refine .inr (.inl ?_)
      rw [waiting.tries_eq ending, ← waiting.tries]
      simp [inTime.outputs]
  | @satisfied rounds before _ held' output inTime eager accepted enough =>
    obtain rfl := Except.ok.inj accepted
    by_cases hbetter : (output.key l.criteria.key).below (input.key l.criteria.key) = true
    · simp only [improvePlan, hbetter, if_true, Option.getD_some] at hs
      cases hs
      rw [← List.append_assoc]
      exact .improved (waiting.stale_check inTime) (Double.below_iff.mp hbetter)
    · simp only [improvePlan, hbetter, Bool.false_eq_true, if_false, Option.getD_none,
        Option.isSome_none, Bool.false_or] at hs enough
      cases hs
      exact .unimproved (waiting.stale_append inTime hbetter)
        (.inr (.inr (.inl ⟨by simp [improvePlan], enough⟩)))
  | @cancelled _ before _ e inTime eager he stopped' =>
    cases stopped' with
    | false => cases hs
    | true =>
      obtain rfl := hinput hs.symm
      refine .unimproved (by simpa [inTime.outputs] using waiting.stale)
        (.inr (.inr (.inr (.inl ?_))))
      exact hstopped (fs ++ (before ++ [.looked false, .returned l.body d (.error e)]))
        (by simp [improvePlan])
  | _ => cases hs

variable {ctx : Context} {sched : Schedule} {task : TaskId} {p q : Point} {s : Script}

/-- Wherever the loop has come to, it is about to look at the clock for the first time, or has waited in
some rounds and stands in the next one. -/
theorem exists_waiting
    (plays : Script.Plays sched task ctx p ((LoopKind.improve maxTries).script l input) es q s) :
    (es = [] ∧ ∃ next, s = .time next) ∨
      ∃ started before left last es₁ es₂, Reads l.criteria.budget before started ∧
        Waiting l maxTries input last (before ++ es₁) ∧ l.rounds = left + last.1 ∧
        Stands l (l.improvePlan maxTries input) started left last es₂ s ∧
          es = before ++ (es₁ ++ es₂) := by
  rcases exists_rounds_of_goes_start plays.goes with hstart | hin
  · exact .inl hstart
  · obtain ⟨started, before, left, last, es₁, es₂, reads, through, stands, rfl⟩ := hin
    have hwaiting := through.waiting (.start reads maxTries input)
    have htries := hwaiting.tries
    rw [Event.outputs_append, reads.outputs, List.nil_append] at htries
    exact .inr ⟨started, before, left, last, es₁, es₂, reads, hwaiting, htries ▸ through.length,
      stands, rfl⟩

/-- The loop calls its body on its input only, and no more often than tries and iterations are
allowed. -/
theorem exists_begun
    (plays : Script.Plays sched task ctx p ((LoopKind.improve maxTries).script l input) es q s) :
    ∃ n, Script.begun es s = List.replicate n (l.body, input) ∧
      (∀ bound, maxTries = some bound → n ≤ bound) ∧
      ∀ bound, l.criteria.maxIterations = some bound → n ≤ bound := by
  obtain ⟨rfl, next, rfl⟩ | ⟨started, before, left, last, es₁, es₂, -, waiting, hrounds, stands, rfl⟩ :=
    exists_waiting plays
  · exact ⟨0, rfl, fun _ _ => Nat.zero_le _, fun _ _ => Nat.zero_le _⟩
  have hbound {bound : Nat} (h : l.criteria.maxIterations = some bound) : bound = left + last.1 := by
    rwa [rounds, h, Option.getD_some] at hrounds
  rw [← List.append_assoc, Script.begun_append, waiting.calls]
  rcases stands.begun with hnone | ⟨hone, hleft, eager⟩
  · refine ⟨last.1, by rw [hnone, List.append_nil], waiting.allowed, fun bound h => ?_⟩
    have hsum := hbound h
    omega
  · refine ⟨last.1 + 1, ?_, lt_of_eager eager, fun bound h => ?_⟩
    · rw [hone, List.replicate_succ']
      rfl
    · have hsum := hbound h
      omega

/-- An output that is better than the input is what the loop returns, at once. -/
theorem comes_of_better (ready : p.Ready task) {next : Outcome → Script} {k : Point} {output : Data}
    (plays : Script.Plays sched task ctx p ((LoopKind.improve maxTries).script l input) es q
      (.call l.body input next))
    (comes : (l.body.next ctx input).Comes sched task q k (.ok output))
    (better : (output.key l.criteria.key).rank < (input.key l.criteria.key).rank) :
    ((l.improve maxTries).next ctx input).Comes sched task p (k.noted ctx l.body.name false)
      (.ok output) := by
  obtain ⟨-, next', hs⟩ | ⟨started, before, left, last, es₁, es₂, -, waiting, -, stands, rfl⟩ :=
    exists_waiting plays
  · cases hs
  obtain ⟨-, -, -, goOn, rfl⟩ := stands.of_call
  have hafter : after (l.improvePlan maxTries input) goOn last (.ok output) = .done (.ok output) := by
    rw [after_ok (show (l.improvePlan maxTries input).accept last output = .ok _ from rfl)]
    simp [improvePlan, Double.below_iff.mpr better]
  have hplays := plays.append (.call comes (.nil _ _))
  rw [hafter] at hplays
  exact (LoopKind.course_of_plays ready hplays).comes

/-- For every body, key, input and criteria, from any point under any schedule. Wherever the loop has
come to that waits for an improvement, it has called its body on its input only, and no more often than
tries and iterations are allowed. If it returns data, that is the first output with a key below that of
the input, after which the body is not run any more; or the input, if there was no such output before
the iterations, the tries or the time were used up, the predicate held of the input, or the token was
stopped. So the key of what it returns is never greater than the key of the input, where the key of data
is the least of the keys of its states. And whenever the body returns an output with a smaller key, the
loop returns that. -/
theorem returns_first_improvement (l : Loop) (maxTries : Option Nat) (ctx : Context) (input : Data)
    {sched : Schedule} {task : TaskId} {p : Point} (ready : p.Ready task) :
    let loop := (l.improve maxTries).next ctx input
    let plays := Script.Plays sched task ctx p ((LoopKind.improve maxTries).script l input)
    (∀ es q s, plays es q s → ∃ n, Script.begun es s = List.replicate n (l.body, input) ∧
      (∀ bound, maxTries = some bound → n ≤ bound) ∧
      ∀ bound, l.criteria.maxIterations = some bound → n ≤ bound) ∧
    (∀ q d, loop.Comes sched task p q (.ok d) → ∃ es, plays es q (.done (.ok d)) ∧
      Retried l maxTries input (q.world.isStopped ctx.token) es d ∧
      ∃ x y, d.HasKey l.criteria.key x ∧ input.HasKey l.criteria.key y ∧ x.rank ≤ y.rank) ∧
    ∀ es q next k output, plays es q (.call l.body input next) →
      (l.body.next ctx input).Comes sched task q k (.ok output) →
        (output.key l.criteria.key).rank < (input.key l.criteria.key).rank →
          loop.Comes sched task p (k.noted ctx l.body.name false) (.ok output) := by
  intro loop plays
  refine ⟨fun es q s hplays => exists_begun hplays, fun q d comes => ?_,
    fun es q next k output hplays comes better => comes_of_better ready hplays comes better⟩
  obtain ⟨es, course⟩ := (LoopKind.improve maxTries).exists_course ready comes
  have hretried : Retried l maxTries input (q.world.isStopped ctx.token) es d := by
    obtain ⟨-, next, hs⟩ | ⟨started, before, left, last, es₁, es₂, reads, waiting, hrounds, stands,
      rfl⟩ := exists_waiting course.plays
    · cases hs
    have hplays := course.plays
    rw [← List.append_assoc] at hplays ⊢
    refine stands.retried waiting hrounds (fun before' hbefore => ?_) fun late => ?_
    · rw [hbefore] at hplays
      exact hplays.stopped_eq
    · rw [List.append_assoc]
      exact late.lateAfter reads es₁
  exact ⟨_, course.plays, hretried, _, _, d.hasKey_key _, input.hasKey_key _, hretried.rank_le⟩

/-- A loop over a body that takes 10 ms and returns an energy of 9 before the instant of 20 ms, and then 1. -/
def cooling : Loop :=
  ⟨⟨"Cooling", fun _ => "Cooling", fun _ _ =>
      .ask (.sleep (.ofMillis 10) none) fun _ => .ask .now fun instant => .succeed
        (.one (State.empty.withEnergy (if instant < 20 * Duration.nanosPerMilli then ⟨9⟩ else ⟨1⟩)))⟩,
    ⟨some 5, none, none, State.minEnergy⟩⟩

/-- Started with an energy of 5 and allowed three tries, it returns the output of the second one. -/
theorem returns_first_improvement_of_cooling :
    let input : Data := .one (State.empty.withEnergy ⟨5⟩)
    let output : Data := .one (State.empty.withEnergy ⟨1⟩)
    ∃ before q n, Script.Plays (fun _ => .next) 0 ⟨1, .default, 0⟩ .first
        ((LoopKind.improve (some 3)).script cooling input)
        (before ++ [.looked false, .returned cooling.body input (.ok output)]) q
        (.done (.ok output)) ∧
      Event.calls before ++ [(cooling.body, input)] = List.replicate n (cooling.body, input) ∧ n ≤ 3 := by
  intro input output
  have comes : ∃ q, ((cooling.improve (some 3)).next ⟨1, .default, 0⟩
      (.one (State.empty.withEnergy ⟨5⟩))).Comes (fun _ => .next) 0 .first q
        (.ok (.one (State.empty.withEnergy ⟨1⟩))) :=
    ⟨_, Machine.comes_of_result? 30 (by with_unfolding_all rfl)⟩
  obtain ⟨q, comes⟩ := comes
  obtain ⟨hbegun, hreturns, -⟩ :=
    returns_first_improvement cooling (some 3) ⟨1, .default, 0⟩ input Point.ready_first
  obtain ⟨es, plays, hretried, -⟩ := hreturns q output comes
  obtain ⟨n, hcalls, htries, -⟩ := hbegun es q _ plays
  generalize hd : output = d at hretried
  cases hretried with
  | @improved before =>
    subst hd
    rw [Script.begun_done, Event.calls_append] at hcalls
    exact ⟨before, q, n, plays, hcalls, htries 3 rfl⟩
  | unimproved => exact absurd (congrArg (Data.key State.minEnergy) hd) (by with_unfolding_all decide)

end Loop

end Orchestra
