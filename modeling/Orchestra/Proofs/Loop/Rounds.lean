import Orchestra.Proofs.Loop.Plan

/-!
# The rounds of a loop

A loop has been through a number of rounds, after each of which it went on, and stands somewhere in the
next one. Where it may stand is a short list, with the events of the round so far and the rest of the
script for each place. What holds of every loop is read off that list.
-/

namespace Orchestra.Loop

variable {σ : Type} {l : Loop} {plan : Plan σ} {started : Nat}

/-! ### The time -/

/-- The events of a look at the clock, which there is only with a budget, and the reading to go on
with. -/
inductive Reads : Option Duration → List Event → Nat → Prop
  | unlimited : Reads none [] 0
  | limited (budget : Duration) (reading : Nat) : Reads (some budget) [.timed reading] reading

/-- A check of the time since the loop has started, and whether it is used up. -/
def Checks (l : Loop) (started : Nat) (before : List Event) (late : Bool) : Prop :=
  ∃ reading, Reads l.criteria.budget before reading ∧ l.criteria.usedUp started reading = late

theorem not_usedUp_of_unlimited (unlimited : l.criteria.budget = none) (started reading : Nat) :
    l.criteria.usedUp started reading = false := by
  simp only [Criteria.usedUp, unlimited]

theorem goes_timing {next : Nat → Script} {before es : List Event} {reading : Nat} {s : Script}
    (reads : Reads l.criteria.budget before reading) (rest : (next reading).Goes es s) :
    (l.timing next).Goes (before ++ es) s := by
  rw [timing]
  generalize l.criteria.budget = budget at reads ⊢
  cases reads with
  | unlimited => exact rest
  | limited => exact .time reading rest

/-- A script that first looks at the clock is about to do so, or goes on with what it has read. -/
theorem reads_of_goes_timing {next : Nat → Script} {es : List Event} {s : Script}
    (goes : (l.timing next).Goes es s) :
    (l.criteria.budget.isSome = true ∧ es = [] ∧ s = .time next) ∨
      ∃ before rest reading, Reads l.criteria.budget before reading ∧ (next reading).Goes rest s ∧
        es = before ++ rest := by
  rw [timing] at goes
  cases hbudget : l.criteria.budget with
  | none =>
    rw [hbudget] at goes
    exact .inr ⟨[], es, 0, .unlimited, goes, rfl⟩
  | some budget =>
    rw [hbudget] at goes
    cases goes with
    | nil => exact .inl ⟨rfl, rfl, rfl⟩
    | time reading rest => exact .inr ⟨[.timed reading], _, reading, .limited budget reading, rest, rfl⟩

/-- The first and the last event are looks at the clock, and the time between them has used up the
budget. -/
def LateAfter (l : Loop) (es : List Event) : Prop :=
  ∃ started middle reading, es = .timed started :: (middle ++ [.timed reading]) ∧
    l.criteria.usedUp started reading = true

/-- A loop whose check shows that the time is used up is late. -/
theorem Checks.lateAfter {before after : List Event} (late : l.Checks started after true)
    (reads : Reads l.criteria.budget before started) (middle : List Event) :
    l.LateAfter (before ++ (middle ++ after)) := by
  obtain ⟨reading, reads', used⟩ := late
  cases hbudget : l.criteria.budget with
  | none =>
    rw [not_usedUp_of_unlimited hbudget] at used
    contradiction
  | some budget =>
    rw [hbudget] at reads reads'
    cases reads
    cases reads'
    exact ⟨started, middle, reading, rfl, used⟩

/-! ### The rounds -/

/-- A round after which the loop goes on: it is in time and has not given up, and an output of the body
is accepted, which does not satisfy it. -/
structure GoesOn (l : Loop) (plan : Plan σ) (started : Nat) (before : List Event) (held : σ)
    (output : Data) (held' : σ) : Prop where
  inTime : l.Checks started before false
  eager : plan.weary held = false
  accepted : plan.accept held output = .ok held'
  unsatisfied : plan.satisfied held' = false

/-- A number of rounds after each of which the loop goes on, from what is held before them to what is
held after them. -/
inductive Rounds (l : Loop) (plan : Plan σ) (started : Nat) :
    Nat → σ → List Event → Nat → σ → Prop
  | nil (rounds : Nat) (held : σ) : Rounds l plan started rounds held [] rounds held
  | cons {rounds left : Nat} {before : List Event} {held held' last : σ} {output : Data}
    {es : List Event} (first : GoesOn l plan started before held output held')
    (rest : Rounds l plan started rounds held' es left last) :
    Rounds l plan started (rounds + 1) held
      (before ++ .looked false :: .returned l.body (plan.input held) (.ok output) :: es) left last

/-- Where a loop stands in a round, with the events of the round so far and the rest of the script. -/
inductive Stands (l : Loop) (plan : Plan σ) (started : Nat) :
    Nat → σ → List Event → Script → Prop
  | exhausted {held : σ} (bounded : l.criteria.maxIterations.isSome = true) :
    Stands l plan started 0 held [] (.done (.ok (plan.result held)))
  | endless {held : σ} (unbounded : l.criteria.maxIterations.isSome = false) :
    Stands l plan started 0 held [] .endless
  /-- It is about to look at the clock. -/
  | timing {rounds : Nat} {held : σ} (limited : l.criteria.budget.isSome = true) :
    Stands l plan started (rounds + 1) held [] (.time fun reading =>
      if l.criteria.usedUp started reading then .done (.ok (plan.result held))
      else l.round plan (l.script plan started rounds) held)
  | outOfTime {rounds : Nat} {before : List Event} {held : σ}
    (late : l.Checks started before true) :
    Stands l plan started (rounds + 1) held before (.done (.ok (plan.result held)))
  | looking {rounds : Nat} {before : List Event} {held : σ}
    (inTime : l.Checks started before false) :
    Stands l plan started (rounds + 1) held before (l.round plan (l.script plan started rounds) held)
  /-- It ends before the body is run. -/
  | ended {rounds : Nat} {before : List Event} {held : σ} (inTime : l.Checks started before false)
    {stopped : Bool} (ending : (stopped || plan.weary held) = true) :
    Stands l plan started (rounds + 1) held (before ++ [.looked stopped])
      (.done (.ok (plan.result held)))
  | calling {rounds : Nat} {before : List Event} {held : σ} (inTime : l.Checks started before false)
    (eager : plan.weary held = false) :
    Stands l plan started (rounds + 1) held (before ++ [.looked false])
      (.call l.body (plan.input held) (after plan (l.script plan started rounds) held))
  | satisfied {rounds : Nat} {before : List Event} {held held' : σ} {output : Data}
    (inTime : l.Checks started before false) (eager : plan.weary held = false)
    (accepted : plan.accept held output = .ok held') (enough : plan.satisfied held' = true) :
    Stands l plan started (rounds + 1) held
      (before ++ [.looked false, .returned l.body (plan.input held) (.ok output)])
      (.done (.ok (plan.result held')))
  | refused {rounds : Nat} {before : List Event} {held : σ} {output : Data} {e : RunError}
    (inTime : l.Checks started before false) (eager : plan.weary held = false)
    (refusal : plan.accept held output = .error e) :
    Stands l plan started (rounds + 1) held
      (before ++ [.looked false, .returned l.body (plan.input held) (.ok output)])
      (.done (.error e))
  | failed {rounds : Nat} {before : List Event} {held : σ} {e : RunError}
    (inTime : l.Checks started before false) (eager : plan.weary held = false)
    (he : e.isCancelled = false) :
    Stands l plan started (rounds + 1) held
      (before ++ [.looked false, .returned l.body (plan.input held) (.error e)])
      (.done (.error e))
  /-- The body was cancelled, and the loop looks why. -/
  | wondering {rounds : Nat} {before : List Event} {held : σ} {e : RunError}
    (inTime : l.Checks started before false) (eager : plan.weary held = false)
    (he : e.isCancelled = true) :
    Stands l plan started (rounds + 1) held
      (before ++ [.looked false, .returned l.body (plan.input held) (.error e)])
      (.look fun stopped => .done (if stopped then .ok (plan.result held) else .error e))
  | cancelled {rounds : Nat} {before : List Event} {held : σ} {e : RunError}
    (inTime : l.Checks started before false) (eager : plan.weary held = false)
    (he : e.isCancelled = true) (stopped : Bool) :
    Stands l plan started (rounds + 1) held
      (before ++ [.looked false, .returned l.body (plan.input held) (.error e), .looked stopped])
      (.done (if stopped then .ok (plan.result held) else .error e))

/-! ### The script, place by place -/

theorem exhausted_of_bounded (bounded : l.criteria.maxIterations.isSome = true) (result : Data) :
    l.exhausted result = .done (.ok result) :=
  if_pos bounded

theorem exhausted_of_unbounded (unbounded : l.criteria.maxIterations.isSome = false)
    (result : Data) : l.exhausted result = .endless := by
  rw [exhausted, unbounded]
  rfl

theorem after_refused {goOn : σ → Script} {held : σ} {output : Data} {e : RunError}
    (refusal : plan.accept held output = .error e) :
    after plan goOn held (.ok output) = .done (.error e) := by
  simp only [after, refusal]

theorem after_failed {e : RunError} (he : e.isCancelled = false) (goOn : σ → Script) (held : σ) :
    after plan goOn held (.error e) = .done (.error e) := by
  simp [after, he]

theorem after_cancelled {e : RunError} (he : e.isCancelled = true) (goOn : σ → Script) (held : σ) :
    after plan goOn held (.error e) =
      .look fun stopped => .done (if stopped then .ok (plan.result held) else .error e) := by
  simp [after, he]

/-- A round that is in time goes on to look, -/
theorem goes_to_round {before es : List Event} (inTime : l.Checks started before false)
    (rounds : Nat) {held : σ} {s : Script}
    (rest : (l.round plan (l.script plan started rounds) held).Goes es s) :
    (l.script plan started (rounds + 1) held).Goes (before ++ es) s := by
  obtain ⟨reading, reads, unused⟩ := inTime
  refine goes_timing reads ?_
  rw [unused]
  exact rest

/-- a round leads up to the run of the body, -/
theorem goes_to_call {before : List Event} (inTime : l.Checks started before false) {held : σ}
    (eager : plan.weary held = false) (rounds : Nat) (o : Outcome) {es : List Event} {s : Script}
    (rest : (after plan (l.script plan started rounds) held o).Goes es s) :
    (l.script plan started (rounds + 1) held).Goes
      (before ++ .looked false :: .returned l.body (plan.input held) o :: es) s := by
  refine goes_to_round inTime rounds (.look false ?_)
  rw [eager]
  exact .call o rest

/-- rounds lead from script to script, -/
theorem Rounds.goes {rounds left : Nat} {held last : σ} {es : List Event}
    (through : Rounds l plan started rounds held es left last) :
    (l.script plan started rounds held).Goes es (l.script plan started left last) := by
  induction through with
  | nil => exact .nil _
  | cons first _ ih =>
    refine goes_to_call first.inTime first.eager _ _ ?_
    rw [after_ok first.accepted, first.unsatisfied]
    exact ih

/-- and the script leads to wherever the loop stands. -/
theorem Stands.goes {rounds : Nat} {held : σ} {es : List Event} {s : Script}
    (stands : Stands l plan started rounds held es s) :
    (l.script plan started rounds held).Goes es s := by
  cases stands with
  | exhausted bounded =>
    rw [← exhausted_of_bounded bounded]
    exact .nil _
  | endless unbounded =>
    rw [← exhausted_of_unbounded unbounded (plan.result held)]
    exact .nil _
  | timing limited =>
    obtain ⟨budget, hbudget⟩ := Option.isSome_iff_exists.mp limited
    rw [script, Loop.timing, hbudget]
    exact .nil _
  | outOfTime late =>
    obtain ⟨reading, reads, used⟩ := late
    rw [← List.append_nil es]
    refine goes_timing reads ?_
    rw [used]
    exact .nil _
  | looking inTime =>
    rw [← List.append_nil es]
    exact goes_to_round inTime _ (.nil _)
  | ended inTime ending =>
    refine goes_to_round inTime _ (.look _ ?_)
    rw [ending]
    exact .nil _
  | calling inTime eager =>
    refine goes_to_round inTime _ (.look false ?_)
    rw [eager]
    exact .nil _
  | satisfied inTime eager accepted enough =>
    refine goes_to_call inTime eager _ _ ?_
    rw [after_ok accepted, enough]
    exact .nil _
  | refused inTime eager refusal =>
    refine goes_to_call inTime eager _ _ ?_
    rw [after_refused refusal]
    exact .nil _
  | failed inTime eager he =>
    refine goes_to_call inTime eager _ _ ?_
    rw [after_failed he]
    exact .nil _
  | wondering inTime eager he =>
    refine goes_to_call inTime eager _ _ ?_
    rw [after_cancelled he]
    exact .nil _
  | cancelled inTime eager he stopped =>
    refine goes_to_call inTime eager _ _ ?_
    rw [after_cancelled he]
    exact .look stopped (.nil _)

/-- After a run of the body the loop stands in the same round, or has been through it. -/
theorem stands_or_goesOn_of_goes_after {rounds : Nat} {before : List Event} {held : σ} {o : Outcome}
    {es : List Event} {s : Script} (inTime : l.Checks started before false)
    (eager : plan.weary held = false)
    (goes : (after plan (l.script plan started rounds) held o).Goes es s) :
    Stands l plan started (rounds + 1) held
        (before ++ .looked false :: .returned l.body (plan.input held) o :: es) s ∨
      ∃ output held', o = .ok output ∧ GoesOn l plan started before held output held' ∧
        (l.script plan started rounds held').Goes es s := by
  cases o with
  | ok output =>
    cases haccept : plan.accept held output with
    | error e =>
      rw [after_refused haccept] at goes
      obtain ⟨rfl, rfl⟩ := goes.of_done
      exact .inl (.refused inTime eager haccept)
    | ok held' =>
      rw [after_ok haccept] at goes
      cases hsatisfied : plan.satisfied held' with
      | true =>
        rw [hsatisfied] at goes
        obtain ⟨rfl, rfl⟩ := goes.of_done
        exact .inl (.satisfied inTime eager haccept hsatisfied)
      | false =>
        rw [hsatisfied] at goes
        exact .inr ⟨output, held', rfl, ⟨inTime, eager, haccept, hsatisfied⟩, goes⟩
  | error e =>
    cases he : e.isCancelled with
    | false =>
      rw [after_failed he] at goes
      obtain ⟨rfl, rfl⟩ := goes.of_done
      exact .inl (.failed inTime eager he)
    | true =>
      rw [after_cancelled he] at goes
      cases goes with
      | nil => exact .inl (.wondering inTime eager he)
      | look stopped rest =>
        obtain ⟨rfl, rfl⟩ := rest.of_done
        exact .inl (.cancelled inTime eager he stopped)

/-- In a round that is in time the loop stands somewhere, or has been through it. -/
theorem stands_or_goesOn_of_goes_round {rounds : Nat} {before : List Event} {held : σ}
    {es : List Event} {s : Script} (inTime : l.Checks started before false)
    (goes : (l.round plan (l.script plan started rounds) held).Goes es s) :
    Stands l plan started (rounds + 1) held (before ++ es) s ∨
      ∃ output held' es', es = .looked false :: .returned l.body (plan.input held) (.ok output) :: es' ∧
        GoesOn l plan started before held output held' ∧
        (l.script plan started rounds held').Goes es' s := by
  cases goes with
  | nil =>
    rw [List.append_nil]
    exact .inl (.looking inTime)
  | look stopped rest =>
    dsimp only at rest
    cases hending : stopped || plan.weary held with
    | true =>
      rw [hending] at rest
      obtain ⟨rfl, rfl⟩ := rest.of_done
      exact .inl (.ended inTime hending)
    | false =>
      obtain ⟨rfl, eager⟩ := Bool.or_eq_false_iff.mp hending
      rw [hending] at rest
      cases rest with
      | nil => exact .inl (.calling inTime eager)
      | call o rest =>
        rcases stands_or_goesOn_of_goes_after inTime eager rest with stands | goesOn
        · exact .inl stands
        · obtain ⟨output, held', rfl, first, rest⟩ := goesOn
          exact .inr ⟨output, held', _, rfl, first, rest⟩

/-- A loop has been through a number of rounds, and stands somewhere in the next one. -/
theorem exists_rounds_of_goes {rounds : Nat} {held : σ} {es : List Event} {s : Script}
    (goes : (l.script plan started rounds held).Goes es s) : ∃ left last es₁ es₂,
      Rounds l plan started rounds held es₁ left last ∧ Stands l plan started left last es₂ s ∧
        es = es₁ ++ es₂ := by
  have hhere {rounds : Nat} {held : σ} {es : List Event} {s : Script}
      (stands : Stands l plan started rounds held es s) : ∃ left last es₁ es₂,
        Rounds l plan started rounds held es₁ left last ∧ Stands l plan started left last es₂ s ∧
          es = es₁ ++ es₂ :=
    ⟨rounds, held, [], es, .nil _ _, stands, rfl⟩
  induction rounds generalizing held es with
  | zero =>
    rw [script] at goes
    cases hbounded : l.criteria.maxIterations.isSome with
    | true =>
      rw [exhausted_of_bounded hbounded] at goes
      obtain ⟨rfl, rfl⟩ := goes.of_done
      exact hhere (.exhausted hbounded)
    | false =>
      rw [exhausted_of_unbounded hbounded] at goes
      obtain ⟨rfl, rfl⟩ := goes.of_endless
      exact hhere (.endless hbounded)
  | succ rounds ih =>
    obtain ⟨limited, rfl, rfl⟩ | ⟨before, rest, reading, reads, here, rfl⟩ :=
      reads_of_goes_timing goes
    · exact hhere (.timing limited)
    · cases hused : l.criteria.usedUp started reading with
      | true =>
        rw [hused] at here
        obtain ⟨rfl, rfl⟩ := here.of_done
        rw [List.append_nil]
        exact hhere (.outOfTime ⟨reading, reads, hused⟩)
      | false =>
        rw [hused] at here
        rcases stands_or_goesOn_of_goes_round ⟨reading, reads, hused⟩ here with stands | goesOn
        · exact hhere stands
        · obtain ⟨output, held', es', rfl, first, rest⟩ := goesOn
          obtain ⟨left, last, es₁, es₂, through, stands, rfl⟩ := ih rest
          refine ⟨left, last, _, es₂, .cons first through, stands, ?_⟩
          rw [List.append_assoc]
          rfl

/-- A loop is about to look at the clock for the first time, or has started. -/
theorem exists_rounds_of_goes_start {held : σ} {es : List Event} {s : Script}
    (goes : (l.start plan held).Goes es s) :
    (es = [] ∧ ∃ next, s = .time next) ∨
      ∃ started before left last es₁ es₂, Reads l.criteria.budget before started ∧
        Rounds l plan started l.rounds held es₁ left last ∧ Stands l plan started left last es₂ s ∧
          es = before ++ (es₁ ++ es₂) := by
  obtain ⟨-, rfl, rfl⟩ | ⟨before, rest, started, reads, here, rfl⟩ := reads_of_goes_timing goes
  · exact .inl ⟨rfl, _, rfl⟩
  · obtain ⟨left, last, es₁, es₂, through, stands, rfl⟩ := exists_rounds_of_goes here
    exact .inr ⟨started, before, left, last, es₁, es₂, reads, through, stands, rfl⟩

end Orchestra.Loop
