import Orchestra.Proofs.Loop.Held

/-!
# Loops over the same body

The loop that returns its last output and the one that returns all of them feed the same inputs to their
body and end for the same reasons, as long as the outputs are single states. So they have the same course
up to what they return at its end: the one the last entry of the list that the other one returns. Bounded
to fewer rounds, the loop returns an earlier entry.
-/

namespace Orchestra

/-- Two plans that do the same with single states, when what they hold is related. -/
structure Plan.Matches {σ τ : Type} (plan : Plan σ) (plan' : Plan τ) (R : σ → τ → Prop) : Prop where
  input : ∀ held held', R held held' → plan'.input held' = plan.input held
  weary : ∀ held held', R held held' → plan'.weary held' = plan.weary held
  accept : ∀ held held' state, R held held' → ∃ next next', R next next' ∧
    plan.accept held (.one state) = .ok next ∧ plan'.accept held' (.one state) = .ok next' ∧
      plan'.satisfied next' = plan.satisfied next

namespace Loop

variable {σ τ : Type} {l : Loop} {plan : Plan σ} {plan' : Plan τ} {R : σ → τ → Prop}
  {started rounds left : Nat} {held last : σ} {held' : τ} {es : List Event} {o : Outcome}

/-- All outputs are single states. -/
def AllSingle (outputs : List Data) : Prop :=
  ∀ d ∈ outputs, ∃ s, d = .one s

/-- Both loops go through the same rounds, -/
theorem Rounds.of_matches (through : Rounds l plan started rounds held es left last)
    (hmatch : plan.Matches plan' R) (hheld : R held held') (hsingle : AllSingle (Event.outputs es)) :
    ∃ last', R last last' ∧ Rounds l plan' started rounds held' es left last' := by
  induction through generalizing held' with
  | nil => exact ⟨held', hheld, .nil _ _⟩
  | cons first _ ih =>
    rw [first.outputs] at hsingle
    obtain ⟨⟨s, rfl⟩, hrest⟩ := List.forall_mem_cons.mp hsingle
    obtain ⟨next, next', hnext, haccept, haccept', hsatisfied⟩ := hmatch.accept _ _ s hheld
    obtain rfl := Except.ok.inj (haccept.symm.trans first.accepted)
    obtain ⟨last', hlast, through⟩ := ih hnext hrest
    refine ⟨last', hlast, ?_⟩
    rw [← hmatch.input _ _ hheld]
    refine .cons ⟨first.inTime, ?_, haccept', ?_⟩ through
    · rw [hmatch.weary _ _ hheld, first.eager]
    · rw [hsatisfied, first.unsatisfied]

/-- and end with the same error if they fail, or both return what they hold. -/
theorem Stands.of_matches (stands : Stands l plan started rounds held es (.done o))
    (hmatch : plan.Matches plan' R) (hheld : R held held') (hsingle : AllSingle (Event.outputs es)) :
    (∀ d, o = .ok d → ∃ d', Stands l plan' started rounds held' es (.done (.ok d'))) ∧
      ∀ e, o = .error e → Stands l plan' started rounds held' es (.done (.error e)) := by
  have hweary := hmatch.weary _ _ hheld
  have hinput := hmatch.input _ _ hheld
  have hok {d : Data} (stands : Stands l plan' started rounds held' es (.done (.ok d))) (d₀ : Data) :
      (∀ d, Except.ok (ε := RunError) d₀ = .ok d →
          ∃ d', Stands l plan' started rounds held' es (.done (.ok d'))) ∧
        ∀ e, Except.ok d₀ = .error e → Stands l plan' started rounds held' es (.done (.error e)) :=
    ⟨fun _ _ => ⟨d, stands⟩, nofun⟩
  generalize hs : Script.done o = s at stands
  cases stands with
  | exhausted bounded =>
    cases hs
    exact hok (.exhausted bounded) _
  | outOfTime late =>
    cases hs
    exact hok (.outOfTime late) _
  | ended inTime ending =>
    cases hs
    rw [← hweary] at ending
    exact hok (.ended inTime ending) _
  | satisfied inTime eager accepted enough =>
    cases hs
    rw [Event.outputs_append, inTime.outputs] at hsingle
    obtain ⟨⟨s, rfl⟩, -⟩ := List.forall_mem_cons.mp hsingle
    obtain ⟨next, next', hnext, haccept, haccept', hsatisfied⟩ := hmatch.accept _ _ s hheld
    obtain rfl := Except.ok.inj (haccept.symm.trans accepted)
    rw [← hweary] at eager
    rw [← hsatisfied] at enough
    rw [← hinput] at hok ⊢
    exact hok (.satisfied inTime eager haccept' enough) _
  | refused inTime eager refusal =>
    rw [Event.outputs_append, inTime.outputs] at hsingle
    obtain ⟨⟨s, rfl⟩, -⟩ := List.forall_mem_cons.mp hsingle
    obtain ⟨next, next', hnext, haccept, -, -⟩ := hmatch.accept _ _ s hheld
    rw [haccept] at refusal
    contradiction
  | failed inTime eager he =>
    cases hs
    rw [← hweary] at eager
    rw [← hinput]
    refine ⟨nofun, fun e' h => ?_⟩
    cases h
    exact .failed inTime eager he
  | cancelled inTime eager he stopped =>
    rw [← hweary] at eager
    rw [← hinput] at hok ⊢
    cases hs
    cases stopped with
    | true => exact hok (.cancelled inTime eager he true) _
    | false =>
      refine ⟨nofun, fun e' h => ?_⟩
      cases h
      exact .cancelled inTime eager he false
  | _ => cases hs

/-- Loops over the same body with plans that match have the same course. -/
theorem goes_of_matches (hmatch : plan.Matches plan' R) (hheld : R held held')
    (hsingle : AllSingle (Event.outputs es)) (goes : (l.start plan held).Goes es (.done o)) :
    (∀ d, o = .ok d → ∃ d', (l.start plan' held').Goes es (.done (.ok d'))) ∧
      ∀ e, o = .error e → (l.start plan' held').Goes es (.done (.error e)) := by
  obtain ⟨-, _, hs⟩ | ⟨started, before, left, last, es₁, es₂, reads, through, stands, rfl⟩ :=
    exists_rounds_of_goes_start goes
  · cases hs
  rw [Event.outputs_append, reads.outputs, List.nil_append, Event.outputs_append, AllSingle,
    List.forall_mem_append] at hsingle
  obtain ⟨last', hlast, through⟩ := through.of_matches hmatch hheld hsingle.1
  obtain ⟨hok, herror⟩ := stands.of_matches hmatch hlast hsingle.2
  have hgoes {s : Script} (stands : Stands l plan' started left last' es₂ s) :
      (l.start plan' held').Goes (before ++ (es₁ ++ es₂)) s :=
    goes_timing reads (Script.goes_append_iff.mpr ⟨_, through.goes, stands.goes⟩)
  refine ⟨fun d hd => ?_, fun e he => hgoes (herror e he)⟩
  obtain ⟨d', stands⟩ := hok d hd
  exact ⟨d', hgoes stands⟩

/-! ### Fewer rounds -/

/-- The loop with a bound on its iterations in place of its own. -/
def within (l : Loop) (bound : Nat) : Loop :=
  { l with criteria := { l.criteria with maxIterations := some bound } }

/-- A loop that is bounded to fewer rounds ends after as many outputs of the same course. -/
theorem exists_goes_within {d : Data} (bound : Nat)
    (goes : (l.script plan started rounds held).Goes es (.done (.ok d))) {i : Nat}
    (hi : i < (Event.outputs es).length) : ∃ before d', before <+: es ∧
      Event.outputs before = (Event.outputs es).take (i + 1) ∧
        ((l.within bound).script plan started (i + 1) held).Goes before (.done (.ok d')) := by
  obtain ⟨left, last, es₁, es₂, through, stands, rfl⟩ := exists_rounds_of_goes goes
  clear goes
  induction through generalizing i with
  | nil rounds held =>
    generalize hs : Script.done (.ok d) = s at stands
    cases stands with
    | @satisfied rounds before _ held' output inTime eager accepted enough =>
      have hone : Event.outputs (before ++
          [.looked false, .returned l.body (plan.input held) (.ok output)]) = [output] := by
        rw [Event.outputs_append, inTime.outputs]
        rfl
      rw [List.nil_append, hone] at hi ⊢
      obtain rfl : i = 0 := Nat.lt_one_iff.mp hi
      have stands : Stands (l.within bound) plan started 1 held
          (before ++ [.looked false, .returned l.body (plan.input held) (.ok output)])
          (.done (.ok (plan.result held'))) :=
        .satisfied inTime eager accepted enough
      exact ⟨_, _, List.prefix_rfl, hone, stands.goes⟩
    | exhausted => exact absurd hi (Nat.not_lt_zero i)
    | outOfTime late =>
      rw [List.nil_append, late.outputs] at hi
      exact absurd hi (Nat.not_lt_zero i)
    | ended inTime | cancelled inTime =>
      simp [inTime.outputs] at hi
    | _ => cases hs
  | @cons rounds left before held held' last output es₁ first _ ih =>
    have hsplit : (before ++ .looked false :: .returned l.body (plan.input held) (.ok output) :: es₁) ++
        es₂ = before ++
          .looked false :: .returned l.body (plan.input held) (.ok output) :: (es₁ ++ es₂) :=
      List.append_assoc _ _ _
    rw [hsplit, first.outputs] at hi ⊢
    cases i with
    | zero =>
      refine ⟨before ++ [.looked false, .returned l.body (plan.input held) (.ok output)],
        plan.result held', ⟨es₁ ++ es₂, List.append_assoc _ _ _⟩, first.outputs _ _ _, ?_⟩
      refine goes_to_call (l := l.within bound) first.inTime first.eager 0 _ ?_
      rw [after_ok first.accepted, first.unsatisfied]
      exact .nil _
    | succ i =>
      obtain ⟨before', d', hprefix, houtputs, goes⟩ := ih stands (Nat.lt_of_succ_lt_succ hi)
      refine ⟨before ++ .looked false :: .returned l.body (plan.input held) (.ok output) :: before',
        d', ?_, ?_, ?_⟩
      · exact (List.prefix_append_right_inj before).mpr
          ((List.prefix_append_right_inj [_, _]).mpr hprefix)
      · rw [first.outputs]
        exact congrArg (List.cons output) houtputs
      refine goes_to_call (l := l.within bound) first.inTime first.eager (i + 1) _ ?_
      rw [after_ok first.accepted, first.unsatisfied]
      exact goes

/-- So does the loop from its start. -/
theorem exists_goes_start_within {d : Data} (goes : (l.start plan held).Goes es (.done (.ok d)))
    {i : Nat} (hi : i < (Event.outputs es).length) : ∃ before d', before <+: es ∧
      Event.outputs before = (Event.outputs es).take (i + 1) ∧
        ((l.within (i + 1)).start plan held).Goes before (.done (.ok d')) := by
  obtain ⟨-, -, hs⟩ | ⟨reading, rest, started, reads, here, rfl⟩ := reads_of_goes_timing goes
  · cases hs
  have houtputs (es : List Event) : Event.outputs (reading ++ es) = Event.outputs es := by
    rw [Event.outputs_append, reads.outputs, List.nil_append]
  rw [houtputs] at hi ⊢
  obtain ⟨before, d', hprefix, hbefore, goes⟩ := exists_goes_within (i + 1) here hi
  refine ⟨reading ++ before, d', (List.prefix_append_right_inj reading).mpr hprefix, ?_, ?_⟩
  · rw [houtputs, hbefore]
  · exact goes_timing (l := l.within (i + 1)) reads goes

theorem Reads.calls {budget : Option Duration} {reading : Nat} {before : List Event}
    (reads : Reads budget before reading) : Event.calls before = [] := by
  cases reads <;> rfl

theorem Checks.calls {late : Bool} {before : List Event} (checks : l.Checks started before late) :
    Event.calls before = [] := by
  obtain ⟨_, reads, _⟩ := checks
  exact reads.calls

/-- Only the body is run, -/
theorem Rounds.eq_body (through : Rounds l plan started rounds held es left last) {c : Runnable × Data}
    (h : c ∈ Event.calls es) : c.1 = l.body := by
  induction through with
  | nil => contradiction
  | cons first _ ih =>
    simp only [Event.calls_append, first.inTime.calls, Event.calls_looked, Event.calls_returned,
      List.nil_append, List.mem_cons] at h
    rcases h with rfl | h
    · rfl
    · exact ih h

theorem Stands.eq_body {s : Script} (stands : Stands l plan started rounds held es s)
    {c : Runnable × Data} (h : c ∈ Event.calls es) : c.1 = l.body := by
  cases stands with
  | satisfied inTime | refused inTime | failed inTime | wondering inTime | cancelled inTime =>
    simp only [Event.calls_append, inTime.calls, Event.calls_looked, Event.calls_returned,
      Event.calls_nil, List.nil_append, List.mem_singleton] at h
    exact congrArg Prod.fst h
  | outOfTime late => simp [late.calls] at h
  | looking inTime | ended inTime | calling inTime => simp [inTime.calls] at h
  | _ => simp at h

/-- by the whole loop. -/
theorem part_eq_body {s : Script} (goes : (l.start plan held).Goes es s) {part : Runnable}
    {input : Data} (h : .returned part input o ∈ es) : part = l.body := by
  have hcall : (part, input) ∈ Event.calls es := List.mem_filterMap.mpr ⟨_, h, rfl⟩
  obtain ⟨rfl, -⟩ | ⟨started, before, left, last, es₁, es₂, reads, through, stands, rfl⟩ :=
    exists_rounds_of_goes_start goes
  · contradiction
  rw [Event.calls_append, reads.calls, List.nil_append, Event.calls_append, List.mem_append] at hcall
  exact hcall.elim through.eq_body stands.eq_body

end Loop

/-! ### Courses -/

/-- A loop of a kind comes to an outcome, with the events on the way: the looks at its token, and the runs
of its body with their inputs and outcomes. -/
structure LoopKind.Course (kind : LoopKind) (l : Loop) (ctx : Context) (input : Data)
    (sched : Schedule) (task : TaskId) (p : Point) (es : List Event) (q : Point) (o : Outcome) :
    Prop where
  comes : ((kind.runnable l).next ctx input).Comes sched task p q o
  plays : Script.Plays sched task ctx p (kind.script l input) es q (.done o)

/-- Whatever a runnable comes to is a single state. -/
def Runnable.Single (r : Runnable) : Prop :=
  ∀ (ctx : Context) (input : Data) (sched : Schedule) (task : TaskId) (p q : Point) (d : Data),
    (r.next ctx input).Comes sched task p q (.ok d) → ∃ s, d = .one s

namespace LoopKind

variable {kind kind' : LoopKind} {l l' : Loop} {ctx : Context} {input input' : Data}
  {sched : Schedule} {task : TaskId} {p q : Point} {es : List Event} {o o' : Outcome}

theorem course_of_plays (ready : p.Ready task)
    (plays : Script.Plays sched task ctx p (kind.script l input) es q (.done o)) :
    kind.Course l ctx input sched task p es q o := by
  refine ⟨?_, plays⟩
  rw [← kind.task_script, Script.comes_iff ready]
  exact ⟨es, plays⟩

/-- Whatever a loop comes to, it has had a course. -/
theorem exists_course (ready : p.Ready task)
    (comes : ((kind.runnable l).next ctx input).Comes sched task p q o) :
    ∃ es, kind.Course l ctx input sched task p es q o := by
  rw [← kind.task_script, Script.comes_iff ready] at comes
  obtain ⟨es, plays⟩ := comes
  exact ⟨es, course_of_plays ready plays⟩

/-- A loop whose script goes on with the same events has the same course. -/
theorem Course.alike (course : kind.Course l ctx input sched task p es q o) (ready : p.Ready task)
    (goes : (kind'.script l' input').Goes es (.done o')) :
    kind'.Course l' ctx input' sched task p es q o' :=
  course_of_plays ready (course.plays.alike goes)

end LoopKind

/-! ### The last output and all of them -/

namespace Loop

variable {l : Loop} {ctx : Context} {input : Data} {sched : Schedule} {task : TaskId} {p q : Point}
  {es : List Event} {o : Outcome}

/-- What the loop that collects its outputs holds besides them, and what the other one holds. -/
def SameLast (held : Tracker Data × List State × State) (held' : Tracker Data × Data) : Prop :=
  held'.1 = held.1 ∧ held'.2 = .one held.2.2

theorem unwindPlan_matches_lastPlan (l : Loop) : l.unwindPlan.Matches l.lastPlan SameLast where
  input _ _ h := h.2
  weary _ _ _ := rfl
  accept held held' state h := by
    refine ⟨(l.observeForPredicate held.1 (.one state), held.2.1 ++ [state], state),
      (l.observeForPredicate held'.1 (.one state), .one state), ⟨?_, rfl⟩, rfl, rfl, ?_⟩
    · rw [h.1]
    · simp only [lastPlan, unwindPlan, h.1]

/-- The outputs of a body that yields single states are single states. -/
theorem allSingle_of_plays {σ : Type} {plan : Plan σ} {held : σ} {s : Script}
    (hsingle : l.body.Single)
    (plays : Script.Plays sched task ctx p (l.start plan held) es q s) :
    AllSingle (Event.outputs es) := by
  intro d hd
  obtain ⟨part, input, hmem⟩ := Event.mem_outputs hd
  obtain ⟨k, k', comes⟩ := plays.exists_comes hmem
  rw [part_eq_body plays.goes hmem] at comes
  exact hsingle _ _ _ _ _ _ _ comes

/-- A loop that returns its last output returns the last of them, or its input. -/
theorem eq_of_goes_last {best : Tracker Data} {held d : Data}
    (goes : (l.start l.lastPlan (best, held)).Goes es (.done (.ok d))) :
    d = (Event.outputs es).getLast?.getD held := by
  obtain ⟨-, last, hlast, rfl⟩ := exists_heldAfter_of_goes_start goes
  exact heldAfter_last hlast

/-- For every body that yields single states, every criteria and single state, whatever the loop that
collects its outputs comes to, from any point under any schedule. If it returns a history, the loop that
returns its last output has the same course and returns the last entry, or the input if there is none;
bounded to `i + 1` iterations it has the first part of that course and returns entry `i`; and there are
no more entries than the criteria allow iterations. If it fails, so does the other loop with the same
course and error. -/
theorem last_of_unwind (l : Loop) (hsingle : l.body.Single) (ctx : Context) (input : State)
    {sched : Schedule} {task : TaskId} {p q : Point} {o : Outcome} (ready : p.Ready task)
    (comes : (l.unwind.next ctx (.one input)).Comes sched task p q o) :
    ∃ es, LoopKind.unwind.Course l ctx (.one input) sched task p es q o ∧
      (∀ d, o = .ok d → ∃ history : List State, d = .ofList history ∧
        Event.outputs es = history.map .one ∧
        LoopKind.last.Course l ctx (.one input) sched task p es q
          (.ok (.one (history.getLast?.getD input))) ∧
        (∀ i (hi : i < history.length), ∃ before q', before <+: es ∧
          LoopKind.last.Course (l.within (i + 1)) ctx (.one input) sched task p before q'
            (.ok (.one history[i]))) ∧
        ∀ bound, l.criteria.maxIterations = some bound → history.length ≤ bound) ∧
      ∀ e, o = .error e →
        LoopKind.last.Course l ctx (.one input) sched task p es q (.error e) := by
  obtain ⟨es, course⟩ := LoopKind.unwind.exists_course ready comes
  have hstart : SameLast (.empty, [], input) (.empty, .one input) := ⟨rfl, rfl⟩
  obtain ⟨hok, herror⟩ := goes_of_matches l.unwindPlan_matches_lastPlan hstart
    (allSingle_of_plays hsingle course.plays) course.plays.goes
  refine ⟨es, course, ?_, fun e he => course.alike ready (herror e he)⟩
  rintro d rfl
  obtain ⟨last, goes⟩ := hok d rfl
  obtain ⟨hlength, held, hheld, rfl⟩ := exists_heldAfter_of_goes_start course.plays.goes
  obtain ⟨history, houtputs, hlist, -⟩ := heldAfter_unwind hheld
  refine ⟨history, congrArg collected hlist, houtputs, ?_, fun i hi => ?_, fun bound hbound => ?_⟩
  · have hlast := eq_of_goes_last goes
    rw [houtputs, List.getLast?_map, Option.getD_map] at hlast
    subst hlast
    exact course.alike ready goes
  · have hi' : i < (Event.outputs es).length := by
      rw [houtputs, List.length_map]
      exact hi
    obtain ⟨before, d', hprefix, hbefore, goes'⟩ := exists_goes_start_within goes hi'
    have hentry := eq_of_goes_last (l := l.within (i + 1)) goes'
    obtain ⟨after, rfl⟩ := hprefix
    obtain ⟨q', s, plays, -⟩ := course.plays.split
    refine ⟨before, q', ⟨after, rfl⟩, LoopKind.course_of_plays ready (plays.alike ?_)⟩
    rw [hbefore, houtputs, ← List.map_take, List.getLast?_map, List.getLast?_take,
      if_neg (Nat.succ_ne_zero i), Nat.add_sub_cancel, List.getElem?_eq_getElem hi] at hentry
    subst hentry
    exact goes'
  · rw [houtputs, List.length_map, rounds, hbound] at hlength
    exact hlength

/-- The energy that follows the one of a state: first 3, then 1, then each the next. -/
def energyAfter (s : State) : Double :=
  match s.minEnergy? with
  | none => ⟨3⟩
  | some x => if x.bits = 3 then ⟨1⟩ else ⟨x.bits + 1⟩

/-- A loop of three iterations whose outputs go down and up again. -/
def swings : Loop :=
  ⟨Leaf.onState "Swing" fun s => .ok (s.withEnergy (energyAfter s)),
    ⟨some 3, none, none, State.minEnergy⟩⟩

theorem single_swings : swings.body.Single := by
  intro ctx input sched task p q d comes
  obtain ⟨-, hd⟩ := Task.comes_done_iff.mp comes
  cases input with
  | one s => exact ⟨_, Except.ok.inj hd⟩
  | many => cases hd

/-- Its outputs have energies 3, 1 and 2: the loop returns the last of them, and bounded to two iterations
the second. -/
theorem last_of_unwind_of_swings :
    let course := fun (kind : LoopKind) (l : Loop) (es : List Event) (q : Point) (d : Data) =>
      kind.Course l ⟨1, .default, 0⟩ (.one .empty) (fun _ => .next) 0 .first es q (.ok d)
    let outputs := [⟨3⟩, ⟨1⟩, ⟨2⟩].map State.empty.withEnergy
    ∃ es q, course .unwind swings es q (.ofList outputs) ∧
      course .last swings es q (.one (State.empty.withEnergy ⟨2⟩)) ∧
      ∃ before q', before <+: es ∧
        course .last (swings.within 2) before q' (.one (State.empty.withEnergy ⟨1⟩)) := by
  intro course outputs
  have comes : ∃ q, (swings.unwind.next ⟨1, .default, 0⟩ (.one .empty)).Comes (fun _ => .next) 0
      .first q (.ok (.ofList outputs)) :=
    ⟨_, Machine.comes_of_result? 10 (by with_unfolding_all rfl)⟩
  obtain ⟨q, comes⟩ := comes
  obtain ⟨es, hunwind, hok, -⟩ :=
    last_of_unwind swings single_swings ⟨1, .default, 0⟩ .empty Point.ready_first comes
  obtain ⟨history, hd, -, hlast, hentries, -⟩ := hok _ rfl
  obtain rfl : outputs = history := congrArg Data.states hd
  exact ⟨es, q, hunwind, hlast, hentries 1 (by decide)⟩

end Loop

end Orchestra
