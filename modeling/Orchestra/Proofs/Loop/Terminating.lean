import Orchestra.Proofs.Improvements
import Orchestra.Proofs.Loop.Unwinding

/-!
# Ending by a predicate

After each output a loop asks its predicate about the best output so far, and ends if it holds. Before
the last output it did not hold of the best one, so the best one is another since then: it is the last
output. Hence what the loop returns, or has collected last, is what the predicate was asked about, and
its key is below the keys of all outputs before.
-/

namespace Orchestra

namespace Criteria

/-- The predicate holds of the best of some outputs. -/
def MetBy (c : Criteria) (outputs : List Data) : Prop :=
  ∃ i best, EarliestLeast (Data.key c.key) outputs i best ∧ c.holdsOf (some best) = true

/-- The predicate holds of the last of some outputs, which is the best of them with a key below all
others, and before that output it did not hold of the best one. -/
structure FirstMetBy (c : Criteria) (outputs : List Data) (d : Data) : Prop where
  last : outputs.getLast? = some d
  best : EarliestLeast (Data.key c.key) outputs (outputs.length - 1) d
  holds : c.holdsOf (some d) = true
  unmet : ∀ n < outputs.length, ¬ c.MetBy (outputs.take n)

end Criteria

/-- A plan that keeps the best output if there is a predicate, and ends if the predicate holds of it. -/
structure Plan.Tracks {σ : Type} (plan : Plan σ) (l : Loop) (best : σ → Tracker Data) : Prop where
  accept : ∀ held output held', plan.accept held output = .ok held' →
    best held' = l.observeForPredicate (best held) output
  satisfied : ∀ held, plan.satisfied held = l.criteria.holdsOf (best held).value?

namespace Loop

variable {l : Loop} {outputs : List Data} {output : Data}

theorem lastPlan_tracks (l : Loop) : l.lastPlan.Tracks l Prod.fst where
  accept held output held' h := by
    cases h
    rfl
  satisfied _ := rfl

theorem unwindPlan_tracks (l : Loop) : l.unwindPlan.Tracks l Prod.fst where
  accept held output held' h := by
    cases output with
    | one state =>
      cases h
      rfl
    | many => cases h
  satisfied _ := rfl

/-- The best of some outputs is what the tracker holds to which they were offered. -/
theorem metBy_iff : l.criteria.MetBy outputs ↔
    l.criteria.holdsOf (outputs.foldl l.observe .empty).value? = true := by
  by_cases hnil : outputs = []
  · subst hnil
    constructor
    · rintro ⟨i, best, hbest, -⟩
      exact absurd hbest.entry nofun
    · intro h
      have hnone : l.criteria.holdsOf none = false := by
        unfold Criteria.holdsOf
        cases l.criteria.terminate <;> rfl
      exact absurd (hnone.symm.trans h) Bool.false_ne_true
  · obtain ⟨i, best, hbest, hvalue⟩ := exists_best (l := l) hnil
    rw [hvalue]
    constructor
    · rintro ⟨j, best', hbest', hholds⟩
      obtain ⟨-, rfl⟩ := hbest.unique hbest'
      exact hholds
    · exact fun hholds => ⟨i, best, hbest, hholds⟩

/-- So far the predicate has held of no best output, the last of which the tracker holds. -/
structure Unmet (l : Loop) (best : Tracker Data) (outputs : List Data) : Prop where
  tracked : best = outputs.foldl l.observe .empty
  unmet : ∀ n ≤ outputs.length, ¬ l.criteria.MetBy (outputs.take n)

theorem Unmet.start (l : Loop) : Unmet l .empty [] := by
  refine ⟨rfl, fun n _ => ?_⟩
  rintro ⟨i, best, hbest, -⟩
  rw [List.take_nil] at hbest
  exact absurd hbest.entry nofun

theorem Unmet.not_metBy {best : Tracker Data} (unmet : Unmet l best outputs) :
    ¬ l.criteria.MetBy outputs := by
  have hwhole := unmet.unmet outputs.length (Nat.le_refl _)
  rwa [List.take_length] at hwhole

/-- If the predicate holds after a further output, that is because of it. -/
theorem Unmet.firstMetBy {best : Tracker Data} (unmet : Unmet l best outputs)
    (met : l.criteria.MetBy (outputs ++ [output])) :
    l.criteria.FirstMetBy (outputs ++ [output]) output := by
  obtain ⟨i, d, hbest, hholds⟩ := met
  rcases hbest.of_append with ⟨-, hi, hd⟩ | ⟨-, hbefore⟩
  · subst hi hd
    refine ⟨List.getLast?_concat, ?_, hholds, fun n hn => ?_⟩
    · rwa [List.length_append, List.length_singleton, Nat.add_sub_cancel]
    · rw [List.length_append, List.length_singleton, Nat.lt_succ_iff] at hn
      rw [List.take_append_of_le_length hn]
      exact unmet.unmet n hn
  · exact absurd ⟨i, d, hbefore, hholds⟩ unmet.not_metBy

variable {σ : Type} {plan : Plan σ} {best : σ → Tracker Data}
  {started rounds left : Nat} {before : List Event} {held held' last : σ}
  {es : List Event} {s : Script}

/-- A loop that goes on after an output has asked its predicate in vain. -/
theorem Unmet.next (tracks : plan.Tracks l best) (hsome : l.criteria.terminate.isSome = true)
    (unmet : Unmet l (best held) outputs) (first : GoesOn l plan started before held output held') :
    Unmet l (best held') (outputs ++ [output]) := by
  have htracked : best held' = (outputs ++ [output]).foldl l.observe .empty := by
    rw [tracks.accept _ _ _ first.accepted, observeForPredicate, if_pos hsome, unmet.tracked,
      List.foldl_append]
    rfl
  refine ⟨htracked, fun n hn => ?_⟩
  rw [List.length_append, List.length_singleton] at hn
  rcases Nat.lt_or_eq_of_le hn with hlt | rfl
  · rw [List.take_append_of_le_length (Nat.le_of_lt_succ hlt)]
    exact unmet.unmet n (Nat.le_of_lt_succ hlt)
  · have hunsatisfied := first.unsatisfied
    rw [tracks.satisfied, htracked] at hunsatisfied
    rw [List.take_of_length_le (by simp), metBy_iff, hunsatisfied]
    exact Bool.false_ne_true

theorem Rounds.unmet (tracks : plan.Tracks l best) (hsome : l.criteria.terminate.isSome = true)
    (through : Rounds l plan started rounds held es left last) (unmet : Unmet l (best held) outputs) :
    Unmet l (best last) (outputs ++ Event.outputs es) := by
  induction through generalizing outputs with
  | nil => rwa [Event.outputs_nil, List.append_nil]
  | cons first _ ih =>
    have hrest := ih (unmet.next tracks hsome first)
    rw [first.outputs]
    rwa [List.append_assoc] at hrest

/-- If the predicate holds of the best output so far, the loop is over: the last output is the first
best one of which it holds, or the loop has refused that output. -/
theorem firstMetBy_or_refused (tracks : plan.Tracks l best) (hstart : best held = .empty)
    (goes : (l.start plan held).Goes es s) (met : l.criteria.MetBy (Event.outputs es)) :
    (∃ d result, l.criteria.FirstMetBy (Event.outputs es) d ∧ s = .done (.ok result)) ∨
      ∃ d last e, d ∈ Event.outputs es ∧ plan.accept last d = .error e ∧ s = .done (.error e) := by
  have hsome : l.criteria.terminate.isSome = true := by
    obtain ⟨i, d, -, hholds⟩ := met
    cases hterminate : l.criteria.terminate with
    | some => rfl
    | none => simp [Criteria.holdsOf, hterminate] at hholds
  obtain ⟨rfl, -⟩ | ⟨started, before, left, last, es₁, es₂, reads, through, stands, rfl⟩ :=
    exists_rounds_of_goes_start goes
  · exact absurd met (Unmet.start l).not_metBy
  have hunmet : Unmet l (best last) (Event.outputs es₁) :=
    through.unmet tracks hsome (hstart ▸ Unmet.start l)
  rw [Event.outputs_append, reads.outputs, List.nil_append, Event.outputs_append] at met ⊢
  have hnone (h : Event.outputs es₂ = []) : False := by
    rw [h, List.append_nil] at met
    exact hunmet.not_metBy met
  cases stands with
  | satisfied inTime =>
    rw [Event.outputs_append, inTime.outputs] at met ⊢
    exact .inl ⟨_, _, hunmet.firstMetBy met, rfl⟩
  | refused _ _ refusal => exact .inr ⟨_, _, _, by simp, refusal, rfl⟩
  | outOfTime late => exact (hnone late.outputs).elim
  | looking inTime => exact (hnone inTime.outputs).elim
  | ended inTime | calling inTime | failed inTime | wondering inTime | cancelled inTime =>
    exact (hnone (by simp [inTime.outputs])).elim
  | _ => exact (hnone rfl).elim

variable {ctx : Context} {input : Data} {sched : Schedule} {task : TaskId} {p q : Point}

/-- The loop that returns its last output refuses none. -/
theorem exists_firstMetBy_last
    (plays : Script.Plays sched task ctx p (LoopKind.last.script l input) es q s)
    (met : l.criteria.MetBy (Event.outputs es)) :
    ∃ d, l.criteria.FirstMetBy (Event.outputs es) d ∧ s = .done (.ok d) := by
  rcases firstMetBy_or_refused l.lastPlan_tracks rfl plays.goes met with ⟨d, d', hd, rfl⟩ | hrefused
  · refine ⟨d, hd, ?_⟩
    rw [eq_of_goes_last plays.goes, hd.last]
    rfl
  · obtain ⟨d, held, e, -, hrefusal, -⟩ := hrefused
    cases hrefusal

/-- The loop that collects its outputs refuses no single state. -/
theorem exists_firstMetBy_unwind
    (plays : Script.Plays sched task ctx p (LoopKind.unwind.script l input) es q s)
    (hsingle : AllSingle (Event.outputs es)) (met : l.criteria.MetBy (Event.outputs es)) :
    ∃ history state, l.criteria.FirstMetBy (Event.outputs es) (.one state) ∧
      Event.outputs es = history.map .one ∧ history.getLast? = some state ∧
      s = .done (.ok (.ofList history)) := by
  cases input with
  | many states =>
    obtain ⟨rfl, -⟩ := Script.Goes.of_done plays.goes
    exact absurd met (Unmet.start l).not_metBy
  | one first =>
    rcases firstMetBy_or_refused l.unwindPlan_tracks rfl plays.goes met with
      ⟨d, d', hd, rfl⟩ | hrefused
    · obtain ⟨-, last, hlast, rfl⟩ := exists_heldAfter_of_goes_start plays.goes
      obtain ⟨history, houtputs, hlist, -⟩ := heldAfter_unwind hlast
      have hstate := hd.last
      rw [houtputs, List.getLast?_map, Option.map_eq_some_iff] at hstate
      obtain ⟨state, hstate, rfl⟩ := hstate
      refine ⟨history, state, hd, houtputs, hstate, ?_⟩
      exact congrArg (fun history => Script.done (.ok (collected history))) hlist
    · obtain ⟨d, held, e, hd, hrefusal, -⟩ := hrefused
      obtain ⟨state, rfl⟩ := hsingle d hd
      cases hrefusal

/-- A loop that collects its outputs and returns them has got single states only. -/
theorem allSingle_of_goes_unwind {d : Data}
    (goes : (LoopKind.unwind.script l input).Goes es (.done (.ok d))) :
    AllSingle (Event.outputs es) := by
  cases input with
  | many states => cases goes
  | one first =>
    obtain ⟨-, last, hlast, -⟩ := exists_heldAfter_of_goes_start goes
    obtain ⟨history, houtputs, -⟩ := heldAfter_unwind hlast
    rw [houtputs]
    exact List.forall_mem_map.mpr fun s _ => ⟨s, rfl⟩

/-- For every body, key, criteria and input, from any point under any schedule: what the loop that
returns its last output and the one that collects its outputs come to if their predicate holds of the
best output so far. Either loop is over then, with the point at which it got the last output. That
output is the best one, the predicate holds of it, its key is below the keys of all outputs before, and
the predicate held of the best of no fewer outputs. The one loop returns it, and it is the last entry of
what the other one returns, if its outputs are single states, as they are when it returns something. -/
theorem ends_at_best (l : Loop) (ctx : Context) (input : Data) {sched : Schedule} {task : TaskId}
    {p : Point} (ready : p.Ready task) :
    let plays := fun (kind : LoopKind) => Script.Plays sched task ctx p (kind.script l input)
    (∀ es q s, plays .last es q s → l.criteria.MetBy (Event.outputs es) →
      ∃ d, l.criteria.FirstMetBy (Event.outputs es) d ∧ s = .done (.ok d) ∧
        LoopKind.last.Course l ctx input sched task p es q (.ok d)) ∧
    (∀ es q s, plays .unwind es q s → l.criteria.MetBy (Event.outputs es) →
      AllSingle (Event.outputs es) →
      ∃ history state, l.criteria.FirstMetBy (Event.outputs es) (.one state) ∧
        Event.outputs es = history.map .one ∧ history.getLast? = some state ∧
        s = .done (.ok (.ofList history)) ∧
        LoopKind.unwind.Course l ctx input sched task p es q (.ok (.ofList history))) ∧
    ∀ es q d, plays .unwind es q (.done (.ok d)) → AllSingle (Event.outputs es) := by
  intro plays
  refine ⟨fun es q s hplays met => ?_, fun es q s hplays met hsingle => ?_,
    fun es q d hplays => allSingle_of_goes_unwind hplays.goes⟩
  · obtain ⟨d, hd, rfl⟩ := exists_firstMetBy_last hplays met
    exact ⟨d, hd, rfl, LoopKind.course_of_plays ready hplays⟩
  · obtain ⟨history, state, hstate, houtputs, hlast, rfl⟩ :=
      exists_firstMetBy_unwind hplays hsingle met
    exact ⟨history, state, hstate, houtputs, hlast, rfl, LoopKind.course_of_plays ready hplays⟩

/-- An unbounded loop that ends once its best output has the energy 1. -/
def ebbing : Loop :=
  ⟨swings.body, ⟨none, none, some fun d => d.key State.minEnergy = ⟨1⟩, State.minEnergy⟩⟩

/-- Its outputs have energies 3 and 1: it ends with the second one, or with both. -/
theorem ends_at_best_of_ebbing :
    let course := fun (kind : LoopKind) (es : List Event) (q : Point) (d : Data) =>
      kind.Course ebbing ⟨1, .default, 0⟩ (.one .empty) (fun _ => .next) 0 .first es q (.ok d)
    let high := State.empty.withEnergy ⟨3⟩
    let low := State.empty.withEnergy ⟨1⟩
    ∃ es q, course .unwind es q (.ofList [high, low]) ∧ course .last es q (.one low) ∧
      ebbing.criteria.FirstMetBy (Event.outputs es) (.one low) := by
  intro course high low
  have comes : ∃ q, (ebbing.unwind.next ⟨1, .default, 0⟩ (.one .empty)).Comes (fun _ => .next) 0
      .first q (.ok (.ofList [high, low])) :=
    ⟨_, Machine.comes_of_result? 20 (by with_unfolding_all rfl)⟩
  obtain ⟨q, comes⟩ := comes
  obtain ⟨es, hunwind⟩ := LoopKind.unwind.exists_course Point.ready_first comes
  obtain ⟨hlast, hcollects, hsingle⟩ :=
    ends_at_best ebbing ⟨1, .default, 0⟩ (.one .empty) Point.ready_first
  have houtputs : Event.outputs es = [.one high, .one low] := by
    obtain ⟨-, held, hheld, hd⟩ := exists_heldAfter_of_goes_start hunwind.plays.goes
    obtain ⟨history, houtputs, hlist, -⟩ := heldAfter_unwind hheld
    have hhistory : [high, low] = history := (congrArg Data.states hd).trans hlist
    rw [houtputs, ← hhistory]
    rfl
  have met : ebbing.criteria.MetBy (Event.outputs es) := by
    rw [houtputs, metBy_iff]
    with_unfolding_all rfl
  obtain ⟨history, -, -, -, -, hs, hcourse⟩ :=
    hcollects es q _ hunwind.plays met (hsingle es q _ hunwind.plays)
  rw [← Except.ok.inj (Script.done.inj hs)] at hcourse
  have hstart : SameLast (.empty, [], .empty) (.empty, .one .empty) := ⟨rfl, rfl⟩
  obtain ⟨hok, -⟩ := goes_of_matches ebbing.unwindPlan_matches_lastPlan hstart
    (hsingle es q _ hunwind.plays) hunwind.plays.goes
  obtain ⟨d, goes⟩ := hok _ rfl
  obtain ⟨d', hd', -, hcourse'⟩ := hlast es q _ (hunwind.plays.alike goes) met
  have hlow : d' = .one low := by
    have hd := hd'.last
    rw [houtputs] at hd
    exact (Option.some.inj hd).symm
  subst hlow
  exact ⟨es, q, hcourse, hcourse', hd'⟩

end Loop

end Orchestra
