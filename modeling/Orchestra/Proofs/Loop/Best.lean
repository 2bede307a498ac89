import Orchestra.Leaf.Plain
import Orchestra.Proofs.Loop.Unwinding

/-!
# The best output

Without a bound on iterations in a row without improvement, the loop that returns its best output runs its
body as often as the one that collects all outputs, and on the same inputs. What it returns is what a
search for the least key selects from the collected ones: both come to the earliest of the least.
-/

namespace Orchestra

namespace Loop

variable {l : Loop} {es : List Event}

/-- What the loop that collects its outputs holds besides them, and what the loop holds that keeps the
best: only a predicate makes the first one keep it too. -/
def SameBest (l : Loop) (held : Tracker Data × List State × State)
    (held' : Tracker Data × Nat × Data) : Prop :=
  (l.criteria.terminate.isSome = true → held'.1 = held.1) ∧ held'.2.2 = .one held.2.2

theorem observeForPredicate_eq (hsome : l.criteria.terminate.isSome = true) (best : Tracker Data)
    (output : Data) : l.observeForPredicate best output = l.observe best output :=
  if_pos hsome

/-- Without a predicate it holds of nothing. -/
theorem holdsOf_congr {best best' : Option Data}
    (h : l.criteria.terminate.isSome = true → best = best') :
    l.criteria.holdsOf best = l.criteria.holdsOf best' := by
  cases hterminate : l.criteria.terminate with
  | none => simp only [Criteria.holdsOf, hterminate]
  | some holds => rw [h (by rw [hterminate]; rfl)]

theorem sameBest_observe {held : Tracker Data × List State × State}
    {held' : Tracker Data × Nat × Data} (hheld : SameBest l held held') (s : State) :
    SameBest l (l.observeForPredicate held.1 (.one s), held.2.1 ++ [s], s)
      (l.observe held'.1 (.one s), l.staleAfter held'.1 held'.2.1 (.one s), .one s) := by
  refine ⟨fun hsome => ?_, rfl⟩
  rw [observeForPredicate_eq hsome, hheld.1 hsome]

theorem unwindPlan_matches_bestPlan (l : Loop) :
    l.unwindPlan.Matches (l.bestPlan none) (SameBest l) where
  input _ _ h := h.2
  weary _ _ _ := rfl
  accept held held' s h := by
    have hnext := sameBest_observe h s
    refine ⟨_, _, hnext, rfl, rfl, ?_⟩
    exact holdsOf_congr fun hsome => congrArg Tracker.value? (hnext.1 hsome)

theorem bestPlan_matches_unwindPlan (l : Loop) :
    (l.bestPlan none).Matches l.unwindPlan fun held' held => SameBest l held held' where
  input _ _ h := h.2.symm
  weary _ _ _ := rfl
  accept held' held s h := by
    have hnext := sameBest_observe h s
    refine ⟨_, _, hnext, rfl, rfl, ?_⟩
    exact holdsOf_congr fun hsome => congrArg Tracker.value? (hnext.1 hsome).symm

/-- A loop that returns its best output returns the earliest of the least, if it has an output. -/
theorem earliestLeast_of_goes_best {patience : Option Nat} {stale : Nat} {held d : Data}
    (goes : (l.start (l.bestPlan patience) (.empty, stale, held)).Goes es (.done (.ok d)))
    (hne : Event.outputs es ≠ []) :
    ∃ i, EarliestLeast (Data.key l.criteria.key) (Event.outputs es) i d := by
  obtain ⟨-, last, hlast, rfl⟩ := exists_heldAfter_of_goes_start goes
  obtain ⟨hbest, -⟩ := heldAfter_best hlast
  obtain ⟨i, d, hd, hvalue⟩ := exists_best (l := l) hne
  refine ⟨i, ?_⟩
  rw [show (l.bestPlan patience).result last = last.1.value?.getD last.2.2 from rfl, hbest, hvalue]
  exact hd

/-- The loop that collects its outputs returns all of them. -/
theorem outputs_of_goes_unwind {best : Tracker Data} {s : State} {history : List State}
    (goes : (l.start l.unwindPlan (best, [], s)).Goes es (.done (.ok (.ofList history)))) :
    Event.outputs es = history.map .one := by
  obtain ⟨-, last, hlast, hd⟩ := exists_heldAfter_of_goes_start goes
  obtain ⟨history', houtputs, hlist, -⟩ := heldAfter_unwind hlast
  have hhistory : history = last.2.1 := congrArg Data.states hd
  rw [houtputs, hhistory, hlist]
  rfl

variable {ctx : Context} {input : State} {sched : Schedule} {task : TaskId} {p q : Point}
  {history : List State}

/-- On a course on which outputs are collected, the loop that keeps the best returns what a search selects
from them. -/
theorem exists_best_of_unwind (ready : p.Ready task) (hne : history ≠ [])
    (course : LoopKind.unwind.Course l ctx (.one input) sched task p es q (.ok (.ofList history))) :
    ∃ i best, EarliestLeast l.criteria.key history i best ∧
      (LoopKind.best none).Course l ctx (.one input) sched task p es q (.ok (.one best)) := by
  have hstart : SameBest l (.empty, [], input) (.empty, 0, .one input) := ⟨fun _ => rfl, rfl⟩
  have houtputs := outputs_of_goes_unwind course.plays.goes
  have hsingle : AllSingle (Event.outputs es) := by
    rw [houtputs]
    exact List.forall_mem_map.mpr fun s _ => ⟨s, rfl⟩
  obtain ⟨hok, -⟩ :=
    goes_of_matches l.unwindPlan_matches_bestPlan hstart hsingle course.plays.goes
  obtain ⟨d, goes⟩ := hok _ rfl
  obtain ⟨i, hleast⟩ := earliestLeast_of_goes_best goes (by simpa [houtputs] using hne)
  rw [houtputs] at hleast
  obtain ⟨best, rfl, hbest⟩ := hleast.of_map
  exact ⟨i, best, hbest, course.alike ready goes⟩

/-- On a course on which the loop that keeps the best ends well, its outputs may be collected. -/
theorem exists_history_of_best (hsingle : l.body.Single) (ready : p.Ready task) {d : Data}
    (course : (LoopKind.best none).Course l ctx (.one input) sched task p es q (.ok d)) :
    ∃ history, LoopKind.unwind.Course l ctx (.one input) sched task p es q
      (.ok (.ofList history)) := by
  have hstart : SameBest l (.empty, [], input) (.empty, 0, .one input) := ⟨fun _ => rfl, rfl⟩
  obtain ⟨hok, -⟩ := goes_of_matches l.bestPlan_matches_unwindPlan hstart
    (allSingle_of_plays hsingle course.plays) course.plays.goes
  obtain ⟨d', goes⟩ := hok d rfl
  obtain ⟨-, last, -, rfl⟩ := exists_heldAfter_of_goes_start goes
  exact ⟨last.2.1, course.alike ready goes⟩

/-- What a search selects from a history. -/
theorem next_select (key : Key) (ctx : Context) {i : Nat} {best : State}
    (h : EarliestLeast key history i best) :
    (Leaf.select key).next ctx (.ofList history) = .succeed (.one best) :=
  h.next_select ctx []

/-- For every body that yields single states, every criteria and single state, from any point under any
schedule. If the loop that collects its outputs returns a history with an entry, the loop that returns its
best output, without patience, has the same course and returns what a search for the least key selects
from the history: the earliest entry of those with the least key. If the second loop returns an output, the
first one has the same course and returns a history, from which the search selects that output if there is
an entry. -/
theorem best_of_unwind (l : Loop) (hsingle : l.body.Single) (ctx : Context) (input : State)
    {sched : Schedule} {task : TaskId} {p q : Point} (ready : p.Ready task) :
    (∀ history, history ≠ [] →
      (l.unwind.next ctx (.one input)).Comes sched task p q (.ok (.ofList history)) →
        ∃ es i best,
          LoopKind.unwind.Course l ctx (.one input) sched task p es q (.ok (.ofList history)) ∧
          (LoopKind.best none).Course l ctx (.one input) sched task p es q (.ok (.one best)) ∧
          EarliestLeast l.criteria.key history i best ∧
          (Leaf.select l.criteria.key).next ctx (.ofList history) = .succeed (.one best)) ∧
    ∀ d, ((l.best none).next ctx (.one input)).Comes sched task p q (.ok d) →
      ∃ es history, (LoopKind.best none).Course l ctx (.one input) sched task p es q (.ok d) ∧
        LoopKind.unwind.Course l ctx (.one input) sched task p es q (.ok (.ofList history)) ∧
        (history ≠ [] →
          (Leaf.select l.criteria.key).next ctx (.ofList history) = .succeed d) := by
  refine ⟨fun history hne comes => ?_, fun d comes => ?_⟩
  · obtain ⟨es, course⟩ := LoopKind.unwind.exists_course ready comes
    obtain ⟨i, best, hleast, hbest⟩ := exists_best_of_unwind ready hne course
    exact ⟨es, i, best, course, hbest, hleast, next_select _ _ hleast⟩
  · obtain ⟨es, course⟩ := (LoopKind.best none).exists_course ready comes
    obtain ⟨history, hunwind⟩ := exists_history_of_best hsingle ready course
    refine ⟨es, history, course, hunwind, fun hne => ?_⟩
    obtain ⟨i, best, hleast, hbest⟩ := exists_best_of_unwind ready hne hunwind
    obtain ⟨-, hd⟩ := hbest.comes.unique comes
    cases hd
    exact next_select _ _ hleast

/-- Of outputs with energies 3, 1 and 2 the second is the best. -/
theorem best_of_unwind_of_swings :
    let course := fun (kind : LoopKind) (es : List Event) (q : Point) (d : Data) =>
      kind.Course swings ⟨1, .default, 0⟩ (.one .empty) (fun _ => .next) 0 .first es q (.ok d)
    let outputs := [⟨3⟩, ⟨1⟩, ⟨2⟩].map State.empty.withEnergy
    ∃ es q, course .unwind es q (.ofList outputs) ∧
      course (.best none) es q (.one (State.empty.withEnergy ⟨1⟩)) := by
  intro course outputs
  have comes : ∃ q, (swings.unwind.next ⟨1, .default, 0⟩ (.one .empty)).Comes (fun _ => .next) 0
      .first q (.ok (.ofList outputs)) :=
    ⟨_, Machine.comes_of_result? 10 (by with_unfolding_all rfl)⟩
  obtain ⟨q, comes⟩ := comes
  obtain ⟨hfirst, -⟩ := best_of_unwind swings single_swings ⟨1, .default, 0⟩ .empty Point.ready_first
  obtain ⟨es, i, best, hunwind, hbest, -, hselect⟩ := hfirst outputs nofun comes
  have hleast : (Leaf.select State.minEnergy).next ⟨1, .default, 0⟩ (.ofList outputs) =
      .succeed (.one (State.empty.withEnergy ⟨1⟩)) := by with_unfolding_all rfl
  cases hselect.symm.trans hleast
  exact ⟨es, q, hunwind, hbest⟩

end Loop

end Orchestra
