import Orchestra.Proofs.Improvements
import Orchestra.Proofs.Loop.Best

/-!
# Patience

If nothing else ends it, a loop that keeps its best output gives up once as many outputs in a row as its
patience allows are no improvement. What it counts is the number of outputs after the last improvement, and
what it returns is that improvement. There are finitely many keys, so that it gives up whatever its body
does.
-/

namespace Orchestra

/-- The events besides the looks at the clock. -/
def Event.untimed (es : List Event) : List Event :=
  es.filter fun
    | .timed _ => false
    | _ => true

@[simp] theorem Event.untimed_append (es fs : List Event) :
    untimed (es ++ fs) = untimed es ++ untimed fs :=
  List.filter_append ..

/-- They have all the outputs. -/
theorem Event.outputs_untimed (es : List Event) : outputs (untimed es) = outputs es := by
  induction es with
  | nil => rfl
  | cons e es ih =>
    cases e with
    | timed reading => exact ih
    | looked | noted => exact ih
    | returned part input o =>
      cases o with
      | ok output => exact congrArg (List.cons output) ih
      | error => exact ih

/-- Nothing disturbs a loop: it is never late, no look at the token shows a stop, the body returns an
output on each run, and the predicate does not hold of the best output so far. -/
structure LoopKind.Undisturbed (kind : LoopKind) (l : Loop) (ctx : Context) (input : Data)
    (sched : Schedule) (task : TaskId) (p : Point) : Prop where
  inTime : ∀ es q s, Script.Plays sched task ctx p (kind.script l input) es q s → ¬ l.LateAfter es
  looks : ∀ es q next, Script.Plays sched task ctx p (kind.script l input) es q (.look next) →
    q.world.isStopped ctx.token = false
  returns : ∀ es q part x next,
    Script.Plays sched task ctx p (kind.script l input) es q (.call part x next) →
      ∃ k d, (part.next ctx x).Comes sched task q k (.ok d)
  unsatisfied : ∀ es q s i d, Script.Plays sched task ctx p (kind.script l input) es q s →
    EarliestLeast (Data.key l.criteria.key) (Event.outputs es) i d →
      l.criteria.holdsOf (some d) = false

namespace Loop

/-- The events of a loop that feeds each output back to its body, besides the looks at the clock. -/
def feeding (body : Runnable) : Data → List Data → List Event
  | _, [] => []
  | input, output :: outputs =>
    .looked false :: .returned body input (.ok output) :: feeding body output outputs

theorem feeding_append (body : Runnable) (input : Data) (outputs : List Data) (output : Data) :
    feeding body input (outputs ++ [output]) = feeding body input outputs ++
      [.looked false, .returned body (outputs.getLast?.getD input) (.ok output)] := by
  induction outputs generalizing input with
  | nil => rfl
  | cons first outputs ih =>
    rw [List.cons_append, feeding, ih, feeding, List.getLast?_cons]
    rfl

@[simp] theorem outputs_feeding (body : Runnable) (input : Data) (outputs : List Data) :
    Event.outputs (feeding body input outputs) = outputs := by
  induction outputs generalizing input with
  | nil => rfl
  | cons output outputs ih => exact congrArg (List.cons output) (ih output)

variable {l : Loop} {patience : Nat} {ctx : Context} {input : Data} {sched : Schedule}
  {task : TaskId} {p q : Point} {outputs : List Data} {left : Nat}

/-- What the loop holds after some outputs: their best, how many of them are stale, and the last. -/
def heldBest (l : Loop) (input : Data) (outputs : List Data) : Tracker Data × Nat × Data :=
  (outputs.foldl l.observe .empty, stale (Data.key l.criteria.key) outputs,
    outputs.getLast?.getD input)

/-- To replace the best of some outputs is to improve on all of them. -/
theorem improves_iff_all (outputs : List Data) (output : Data) :
    (outputs.foldl l.observe .empty).improves (output.key l.criteria.key) =
      outputs.all fun d => (output.key l.criteria.key).below (d.key l.criteria.key) := by
  by_cases hnil : outputs = []
  · subst hnil
    rfl
  · obtain ⟨i, d, hd, hbest⟩ :=
      Tracker.exists_earliestLeast (Data.key l.criteria.key) outputs hnil
    have hfold : (outputs.foldl l.observe .empty).best = some (d.key l.criteria.key, d) := hbest
    rw [hd.all_below, Tracker.improves, hfold]

/-- The loop counts the stale outputs. -/
theorem accept_heldBest (output : Data) :
    (l.bestPlan (some patience)).accept (l.heldBest input outputs) output =
      .ok (l.heldBest input (outputs ++ [output])) := by
  have hstale : l.staleAfter (outputs.foldl l.observe .empty)
      (stale (Data.key l.criteria.key) outputs) output =
        stale (Data.key l.criteria.key) (outputs ++ [output]) := by
    rw [staleAfter, improves_iff_all, stale_append]
  simp only [bestPlan, heldBest, hstale, List.foldl_append, List.foldl_cons, List.foldl_nil,
    List.getLast?_concat, Option.getD_some]

/-- What the loop returns if it ends after some outputs. -/
theorem result_heldBest : (l.bestPlan (some patience)).result (l.heldBest input outputs) =
    (outputs.foldl l.observe .empty).value?.getD (outputs.getLast?.getD input) := rfl

/-- The best of some outputs is the last improvement among them. -/
theorem earliestLeast_result (hne : outputs ≠ []) : ∃ i,
    upToBest (Data.key l.criteria.key) outputs = i + 1 ∧
      EarliestLeast (Data.key l.criteria.key) outputs i
        ((l.bestPlan (some patience)).result (l.heldBest input outputs)) := by
  obtain ⟨i, d, hd, hvalue⟩ := exists_best (l := l) hne
  rw [result_heldBest, hvalue]
  exact ⟨i, hd.upToBest_eq, hd⟩

theorem Reads.untimed {budget : Option Duration} {reading : Nat} {before : List Event}
    (reads : Reads budget before reading) : Event.untimed before = [] := by
  cases reads <;> rfl

/-- A script that first looks at the clock goes on with what it reads. -/
theorem exists_plays_timing (l : Loop) (next : Nat → Script) (p : Point) : ∃ before reading q,
    Reads l.criteria.budget before reading ∧
      Script.Plays sched task ctx p (l.timing next) before q (next reading) := by
  rw [timing]
  cases l.criteria.budget with
  | none => exact ⟨[], 0, p, .unlimited, .nil _ _⟩
  | some budget => exact ⟨_, _, _, .limited budget _, .time (.nil _ _)⟩

/-- The loop is about to start a round after some outputs. -/
structure ReadyAfter (l : Loop) (patience : Nat) (ctx : Context) (input : Data) (sched : Schedule)
    (task : TaskId) (p q : Point) (started left : Nat) (es : List Event) (outputs : List Data) :
    Prop where
  plays : Script.Plays sched task ctx p ((LoopKind.best (some patience)).script l input) es q
    (l.script (l.bestPlan (some patience)) started left (l.heldBest input outputs))
  untimed : Event.untimed es = feeding l.body input outputs
  clocked : ∃ before rest, Reads l.criteria.budget before started ∧ es = before ++ rest

section Undisturbed

variable (und : (LoopKind.best (some patience)).Undisturbed l ctx input sched task p)
  {started : Nat} {es : List Event}

include und

/-- A loop that is about to start a round is in time. -/
theorem exists_in_time
    (here : ReadyAfter l patience ctx input sched task p q started (left + 1) es outputs) :
    ∃ check k, Event.untimed check = [] ∧
      Script.Plays sched task ctx p ((LoopKind.best (some patience)).script l input) (es ++ check) k
        (l.round (l.bestPlan (some patience)) (l.script (l.bestPlan (some patience)) started left)
          (l.heldBest input outputs)) := by
  obtain ⟨check, reading, k, reads, next⟩ := exists_plays_timing l _ q
  have hchecked := here.plays.append next
  have hunused : l.criteria.usedUp started reading = false := by
    refine Bool.eq_false_iff.mpr fun used => und.inTime _ _ _ hchecked ?_
    obtain ⟨before, rest, hreads, rfl⟩ := here.clocked
    have late : l.Checks started check true := ⟨reading, reads, used⟩
    rw [List.append_assoc]
    exact late.lateAfter hreads rest
  rw [hunused] at hchecked
  exact ⟨check, k, reads.untimed, hchecked⟩

/-- In a round the body returns an output, after which the loop ends if too many are stale. -/
theorem exists_round
    (here : ReadyAfter l patience ctx input sched task p q started (left + 1) es outputs) :
    ∃ output events k,
      Event.untimed (es ++ events) = feeding l.body input (outputs ++ [output]) ∧
      Script.Plays sched task ctx p ((LoopKind.best (some patience)).script l input)
        (es ++ events) k
        (if patience ≤ stale (Data.key l.criteria.key) (outputs ++ [output]) then
          .done (.ok ((l.bestPlan (some patience)).result (l.heldBest input (outputs ++ [output]))))
        else l.script (l.bestPlan (some patience)) started left
          (l.heldBest input (outputs ++ [output]))) := by
  obtain ⟨check, q', hcheck, hround⟩ := exists_in_time und here
  have hlook := und.looks _ _ _ hround
  have hcall := hround.append (.look_of_eq hlook (.nil _ _))
  obtain ⟨k, output, comes⟩ := und.returns _ _ _ _ _ hcall
  have hreturned := hcall.append (.call comes (.nil _ _))
  rw [after_ok (accept_heldBest output), List.append_assoc, List.append_assoc] at hreturned
  have huntimed : Event.untimed (es ++ (check ++ ([.looked false] ++
      [.returned l.body (outputs.getLast?.getD input) (.ok output)]))) =
        feeding l.body input (outputs ++ [output]) := by
    rw [Event.untimed_append, Event.untimed_append, hcheck, here.untimed, feeding_append]
    rfl
  have hunsatisfied : l.criteria.holdsOf ((outputs ++ [output]).foldl l.observe .empty).value? =
      false := by
    have hne : outputs ++ [output] ≠ [] := by simp
    obtain ⟨i, d, hd, hvalue⟩ := exists_best (l := l) hne
    have houtputs := outputs_feeding l.body input (outputs ++ [output])
    rw [← huntimed, Event.outputs_untimed] at houtputs
    rw [hvalue]
    refine und.unsatisfied _ _ _ i d hreturned ?_
    rw [← houtputs] at hd
    exact hd
  have hsatisfied : (l.bestPlan (some patience)).satisfied
      (l.heldBest input (outputs ++ [output])) =
        decide (patience ≤ stale (Data.key l.criteria.key) (outputs ++ [output])) := by
    simp only [bestPlan, heldBest, hunsatisfied, impatient, Bool.or_false]
  simp only [hsatisfied, decide_eq_true_eq] at hreturned
  exact ⟨output, _, _, huntimed, hreturned⟩

/-- From the start of a round the loop goes on until too many outputs are stale, or until it has no
round left. -/
theorem exists_end (here : ReadyAfter l patience ctx input sched task p q started left es outputs)
    (hpatient : Patient patience (Data.key l.criteria.key) outputs)
    (hstale : outputs ≠ [] → stale (Data.key l.criteria.key) outputs < patience) :
    ∃ es' outputs' k left', outputs'.length + left' = outputs.length + left ∧
      Patient patience (Data.key l.criteria.key) outputs' ∧
      Event.untimed es' = feeding l.body input outputs' ∧
      ((outputs' ≠ [] ∧ patience ≤ stale (Data.key l.criteria.key) outputs' ∧
          Script.Plays sched task ctx p ((LoopKind.best (some patience)).script l input) es' k
            (.done (.ok ((l.bestPlan (some patience)).result (l.heldBest input outputs'))))) ∨
        left' = 0 ∧ (outputs' ≠ [] → stale (Data.key l.criteria.key) outputs' < patience) ∧
          Script.Plays sched task ctx p ((LoopKind.best (some patience)).script l input) es' k
            (l.script (l.bestPlan (some patience)) started 0 (l.heldBest input outputs'))) := by
  induction left generalizing q es outputs with
  | zero => exact ⟨es, outputs, q, 0, rfl, hpatient, here.untimed, .inr ⟨rfl, hstale, here.plays⟩⟩
  | succ left ih =>
    obtain ⟨output, events, k, huntimed, hround⟩ := exists_round und here
    have hpatient : Patient patience (Data.key l.criteria.key) (outputs ++ [output]) :=
      patient_append_iff.mpr ⟨hpatient, hstale⟩
    by_cases henough : patience ≤ stale (Data.key l.criteria.key) (outputs ++ [output])
    · rw [if_pos henough] at hround
      exact ⟨es ++ events, outputs ++ [output], k, left, by simp; omega, hpatient, huntimed,
        .inl ⟨by simp, henough, hround⟩⟩
    · rw [if_neg henough] at hround
      have hclocked : ∃ before rest, Reads l.criteria.budget before started ∧
          es ++ events = before ++ rest := by
        obtain ⟨before, rest, reads, rfl⟩ := here.clocked
        exact ⟨before, rest ++ events, reads, List.append_assoc _ _ _⟩
      obtain ⟨es', outputs', k', left', hlength, hend⟩ :=
        ih ⟨hround, huntimed, hclocked⟩ hpatient fun _ => Nat.lt_of_not_le henough
      rw [List.length_append, List.length_singleton] at hlength
      exact ⟨es', outputs', k', left', by omega, hend⟩

end Undisturbed

/-- A loop without a bound does not come to its horizon if it is patient all the time. -/
theorem length_lt_horizon (hpatience : patience < UInt64.size)
    (hpatient : Patient patience (Data.key l.criteria.key) outputs)
    (hstale : outputs ≠ [] → stale (Data.key l.criteria.key) outputs < patience) :
    outputs.length < horizon := by
  by_cases hnil : outputs = []
  · subst hnil
    exact Nat.mul_pos (by decide) (by decide)
  · have hlength := hpatient.length_add_le hnil
    have hlt := hstale hnil
    have hsize : (improvements (Data.key l.criteria.key) outputs).length * patience ≤
        UInt64.size * patience :=
      Nat.mul_le_mul_right patience length_improvements_le
    have hhorizon : UInt64.size * patience < horizon :=
      Nat.mul_lt_mul_of_pos_left hpatience (by decide)
    omega

/-- For every body, key and patience, from any point under any schedule: if nothing disturbs the loop that
keeps its best output, it runs its body on the input and on each output in turn, with nothing between but
looks at the token and the clock, and ends. No proper part of
the outputs has as many stale ones as patience allows; all of them have, or they are as many as the criteria
allow, and they are never more than that. What is returned is the last improvement: its key is below the keys
of all earlier outputs and no greater than any later one. Without an output, as when no iteration is allowed,
it is the input. With `R` improvements there are at most `R * patience + 1` outputs; and there are no more
improvements than keys, so that patience ends the loop whatever its body returns. -/
theorem best_of_patience (l : Loop) {patience : Nat} (hpatience : patience < UInt64.size)
    (ctx : Context) (input : Data) {sched : Schedule} {task : TaskId} {p : Point}
    (ready : p.Ready task)
    (und : (LoopKind.best (some patience)).Undisturbed l ctx input sched task p) :
    ∃ es outputs q d,
      (LoopKind.best (some patience)).Course l ctx input sched task p es q (.ok d) ∧
      Event.untimed es = feeding l.body input outputs ∧
      Patient patience (Data.key l.criteria.key) outputs ∧
      (outputs ≠ [] ∧ patience ≤ stale (Data.key l.criteria.key) outputs ∨
        l.criteria.maxIterations = some outputs.length) ∧
      (∀ bound, l.criteria.maxIterations = some bound → outputs.length ≤ bound) ∧
      (outputs = [] → d = input) ∧
      (outputs ≠ [] → ∃ i, upToBest (Data.key l.criteria.key) outputs = i + 1 ∧
        EarliestLeast (Data.key l.criteria.key) outputs i d) ∧
      outputs.length ≤ (improvements (Data.key l.criteria.key) outputs).length * patience + 1 ∧
      (improvements (Data.key l.criteria.key) outputs).length ≤ UInt64.size := by
  have hstart : ∃ before started p',
      ReadyAfter l patience ctx input sched task p p' started l.rounds before [] := by
    let next (started : Nat) : Script :=
      l.script (l.bestPlan (some patience)) started l.rounds (l.heldBest input [])
    have hread : ∃ before started p', Reads l.criteria.budget before started ∧
        Script.Plays sched task ctx p (l.timing next) before p' (next started) :=
      exists_plays_timing l next p
    obtain ⟨before, started, p', reads, plays⟩ := hread
    exact ⟨before, started, p', plays, reads.untimed, before, [], reads, (List.append_nil _).symm⟩
  obtain ⟨before, started, p', hstart⟩ := hstart
  obtain ⟨es, outputs, q, left, hlength, hpatient, huntimed, hend⟩ :=
    exists_end und hstart .nil fun hne => absurd rfl hne
  rw [List.length_nil, Nat.zero_add] at hlength
  have hbound (bound : Nat) (h : l.criteria.maxIterations = some bound) :
      outputs.length ≤ bound := by
    rw [rounds, h, Option.getD_some] at hlength
    omega
  have hresult (hnil : outputs = []) :
      (l.bestPlan (some patience)).result (l.heldBest input outputs) = input := by
    rw [hnil]
    rfl
  refine ⟨es, outputs, q, (l.bestPlan (some patience)).result (l.heldBest input outputs), ?_⟩
  rcases hend with ⟨hne, hstale, plays⟩ | ⟨rfl, hstale, hlast⟩
  · exact ⟨LoopKind.course_of_plays ready plays, huntimed, hpatient, .inl ⟨hne, hstale⟩, hbound,
      hresult, earliestLeast_result, hpatient.length_le, length_improvements_le⟩
  · have hmax : l.criteria.maxIterations = some outputs.length := by
      cases hmax : l.criteria.maxIterations with
      | some bound =>
        rw [rounds, hmax, Option.getD_some, Nat.add_zero] at hlength
        rw [hlength]
      | none =>
        rw [rounds, hmax, Option.getD_none, Nat.add_zero] at hlength
        exact absurd hlength (Nat.ne_of_lt (length_lt_horizon hpatience hpatient hstale))
    have plays : Script.Plays sched task ctx p ((LoopKind.best (some patience)).script l input)
        es q (.done (.ok ((l.bestPlan (some patience)).result (l.heldBest input outputs)))) := by
      rw [← exhausted_of_bounded (l := l) (by rw [hmax]; rfl)]
      exact hlast
    exact ⟨LoopKind.course_of_plays ready plays, huntimed, hpatient, .inr hmax, hbound, hresult,
      earliestLeast_result, hpatient.length_le, length_improvements_le⟩

/-! ### Bodies that compute -/

/-- Nothing disturbs a loop without a budget or predicate whose body computes its output, unless the token
is stopped before. -/
theorem undisturbed_of_computes (f : Data → Data)
    (hbody : ∀ ctx x, l.body.next ctx x = .succeed (f x))
    (unlimited : l.criteria.budget = none) (hterminate : l.criteria.terminate = none)
    (hstop : p.world.isStopped ctx.token = false) :
    (LoopKind.best (some patience)).Undisturbed l ctx input sched task p where
  inTime es q s _ := by
    rintro ⟨started, middle, reading, -, used⟩
    rw [not_usedUp_of_unlimited unlimited] at used
    contradiction
  looks es q next plays := by
    rw [plays.isStopped_eq, hstop]
    intro part x o h
    rw [part_eq_body plays.goes h]
    exact ⟨.ok (f x), hbody ctx x⟩
  returns es q part x next plays := by
    have hgoes := Script.goes_append_iff.mpr ⟨_, plays.goes, .call (.ok x) (.nil _)⟩
    have hmem : .returned part x (.ok x) ∈ es ++ [.returned part x (.ok x)] := List.mem_concat_self
    have hpart : part = l.body := part_eq_body hgoes hmem
    rw [hpart, hbody]
    exact ⟨q, f x, Task.comes_done_iff.mpr ⟨rfl, rfl⟩⟩
  unsatisfied es q s i d _ _ := by
    simp only [Criteria.holdsOf, hterminate]

/-- The data with the energy that follows, if it is a single state. -/
def tide : Data → Data
  | .one s => .one (s.withEnergy (energyAfter s))
  | .many states => .many states

/-- An unbounded loop whose outputs go down and up again and again. -/
def tides : Loop :=
  ⟨.ofFunction "Tide" "Tide" fun d => .ok (tide d), ⟨none, none, none, State.minEnergy⟩⟩

/-- Its outputs have energies 3, 1, 2, 3 and so on: with a patience of two it returns the second. -/
theorem best_of_patience_of_tides : ∃ es outputs q,
    (LoopKind.best (some 2)).Course tides ⟨1, .default, 0⟩ (.one .empty) (fun _ => .next) 0 .first
      es q (.ok (.one (State.empty.withEnergy ⟨1⟩))) ∧
    Event.untimed es = feeding tides.body (.one .empty) outputs ∧
    2 ≤ stale (Data.key State.minEnergy) outputs ∧
    outputs.length ≤ (improvements (Data.key State.minEnergy) outputs).length * 2 + 1 := by
  have comes : ∃ q, ((tides.best (some 2)).next ⟨1, .default, 0⟩ (.one .empty)).Comes
      (fun _ => .next) 0 .first q (.ok (.one (State.empty.withEnergy ⟨1⟩))) :=
    ⟨_, Machine.comes_of_result? 20 (by with_unfolding_all rfl)⟩
  obtain ⟨q, comes⟩ := comes
  have hpatience : 2 < UInt64.size := by decide
  obtain ⟨es, outputs, q', d, course, huntimed, -, hend, -, -, -, hlength, -⟩ :=
    best_of_patience tides hpatience ⟨1, .default, 0⟩ (.one .empty) Point.ready_first
      (undisturbed_of_computes tide (fun _ _ => rfl) rfl rfl rfl)
  obtain ⟨rfl, hd⟩ := course.comes.unique comes
  cases hd
  rcases hend with ⟨-, hstale⟩ | hbound
  · exact ⟨es, outputs, q, course, huntimed, hstale, hlength⟩
  · cases hbound

end Loop

end Orchestra
