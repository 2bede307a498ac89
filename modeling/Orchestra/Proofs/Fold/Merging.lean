import Orchestra.Proofs.Fold.Course

/-!
# Merging by folds

To merge a list of states at once comes to the same as to merge them two at a time from the left, whatever
their metadata hold, although merging metadata is not associative: both take them in the same order. So
the runnable that merges lists and the folds that merge pairs, by the function or by the runnable, come to
one state, and what some states were merged to stands for them ahead of more.
-/

namespace Orchestra

/-- One state alone is left as it is, -/
theorem mergeSamples_singleton (s : State) : mergeSamples [s] = .ok s := by
  simp [mergeSamples, SampleSet.concat]

/-- and the first two states may be merged before the others. -/
theorem mergeSamples_cons_cons (a b : State) (rest : List State) :
    mergeSamples (a :: b :: rest) =
      (mergeSamples [a, b]).bind fun merged => mergeSamples (merged :: rest) := by
  simp [mergeSamples, SampleSet.concat, Except.bind]

/-- To merge states at once is to merge two at a time from the left. -/
theorem mergeSamples_eq_foldlM (first : State) (rest : List State) :
    mergeSamples (first :: rest) = rest.foldlM (fun a b => mergeSamples [a, b]) first := by
  induction rest generalizing first with
  | nil => exact mergeSamples_singleton first
  | cons b rest ih =>
    rw [mergeSamples_cons_cons, List.foldlM_cons]
    exact congrArg (mergeSamples [first, b]).bind (funext ih)

/-- States are merged if there are any. -/
theorem exists_mergeSamples {states : List State} (hne : states ≠ []) :
    ∃ merged, mergeSamples states = .ok merged := by
  cases states with
  | nil => contradiction
  | cons first rest => exact ⟨_, rfl⟩

/-- What the first states are merged to stands for them. -/
theorem mergeSamples_append {states more : List State} {merged : State}
    (h : mergeSamples states = .ok merged) :
    mergeSamples (states ++ more) = mergeSamples (merged :: more) := by
  cases states with
  | nil => contradiction
  | cons first rest =>
    rw [mergeSamples_eq_foldlM] at h
    rw [List.cons_append, mergeSamples_eq_foldlM, List.foldlM_append, h, mergeSamples_eq_foldlM]
    rfl

namespace Reduce

/-- The folds that merge two states at a time: by the function, and by the runnable that merges lists. -/
def merging : List Reduce :=
  [⟨.function fun a b => mergeSamples [a, b], none⟩, ⟨.runnable (Leaf.mergeStates false), none⟩]

/-- The runnable that merges lists does so at once. -/
theorem next_mergeStates (ctx : Context) (states : States) :
    (Leaf.mergeStates false).next ctx (.many states) =
      .done ((mergeSamples states.items).map .one) := by
  change Task.done (((mergeSamples states.items).map fun merged => merged).map Data.one) = _
  cases mergeSamples states.items <;> rfl

/-- Of what it comes to a fold takes the merged state. -/
theorem taken_mergeStates (body : Runnable) (result : Except RunError State) :
    taken body (result.map .one) = result := by
  cases result <;> rfl

variable {r : Reduce} {first : State} {items : List State} {ctx : Context} {sched : Schedule}
  {task : TaskId} {p q : Point} {es : List Event} {s : Script}

/-- These folds call nothing but that runnable. -/
theorem eq_mergeStates (hr : r ∈ merging) {body : Runnable} (hbody : r.combiner = .runnable body) :
    body = Leaf.mergeStates false := by
  simp only [merging, List.mem_cons, List.not_mem_nil, or_false] at hr
  rcases hr with rfl | rfl
  · cases hbody
  · cases hbody
    rfl

/-- What has returned in a fold is its runnable, called on two states. -/
theorem of_returned (goes : (r.foldScript items first).Goes es s) {part : Runnable} {d : Data}
    {o : Outcome} (h : .returned part d o ∈ es) :
    r.combiner = .runnable part ∧ ∃ held item, d = .ofList [held, item] := by
  obtain ⟨before, after, rfl⟩ := List.append_of_mem h
  obtain ⟨t, first, last⟩ := Script.goes_append_iff.mp goes
  cases last with
  | call o last =>
    obtain ⟨hbody, -, item, -, held, -, -, -, -, hd⟩ := of_goes_call first
    exact ⟨hbody, held, item, hd⟩

/-- They stop nothing. -/
theorem isStopped_of_merging (hr : r ∈ merging)
    (plays : Script.Plays sched task ctx p (r.foldScript items first) es q s) :
    q.world.isStopped ctx.token = p.world.isStopped ctx.token := by
  refine plays.isStopped_eq (fun part d o h => ?_) ctx.token
  obtain ⟨hbody, held, item, rfl⟩ := of_returned plays.goes h
  rw [eq_mergeStates hr hbody]
  exact ⟨_, next_mergeStates ctx (.ofList [held, item])⟩

/-- Not stopped, they come to what all states are merged to. -/
theorem exists_comes_of_merging (hr : r ∈ merging) (ready : p.Ready task)
    (unstopped : p.world.isStopped ctx.token = false) (states : States) {merged : State}
    (hmerged : mergeSamples states.items = .ok merged) :
    ∃ q, (r.runnable.next ctx (.many states)).Comes sched task p q (.ok (.one merged)) := by
  obtain ⟨items, failures⟩ := states
  have hinitial : r.initial = none := by
    simp only [merging, List.mem_cons, List.not_mem_nil, or_false] at hr
    rcases hr with rfl | rfl <;> rfl
  cases items with
  | nil => contradiction
  | cons first rest =>
    have hscript : r.script (first :: rest) = r.foldScript rest first := by
      simp only [script, start, hinitial]
    have hplays : ∃ es q, Script.Plays sched task ctx p (r.foldScript rest first) es q
        (.done ((rest.foldlM (fun a b => mergeSamples [a, b]) first).map .one)) := by
      refine plays_foldlM (fun f hf => ?_) (fun es q next plays => ?_)
        fun es q body held item next plays => ?_
      · simp only [merging, List.mem_cons, List.not_mem_nil, or_false] at hr
        rcases hr with rfl | rfl
        · cases hf
          rfl
        · cases hf
      · rw [isStopped_of_merging hr plays, unstopped]
      · obtain ⟨hbody, -⟩ := of_goes_call plays.goes
        rw [eq_mergeStates hr hbody, Data.ofList, next_mergeStates]
        exact ⟨q, _, Task.comes_done_iff.mpr ⟨rfl, rfl⟩, taken_mergeStates _ _⟩
    obtain ⟨es, q, plays⟩ := hplays
    rw [← mergeSamples_eq_foldlM, hmerged] at plays
    refine ⟨q, ?_⟩
    rw [← task_script, hscript]
    exact (Script.comes_iff ready).mpr ⟨es, plays⟩

end Reduce

/-- For every list of states that is not empty, whatever their samples, metadata and problems, and every
context that is not stopped. The default merge, the runnable that merges lists and the folds that merge
two states at a time, by the function or by the runnable, come to one state. And to merge that state with
more is to merge all at once. -/
theorem merges_alike {states : List State} (hne : states ≠ []) (failures : List FailureMarker)
    (ctx : Context) {sched : Schedule} {task : TaskId} {p : Point} (ready : p.Ready task)
    (unstopped : p.world.isStopped ctx.token = false) :
    ∃ merged, mergeSamples states = .ok merged ∧
      (Leaf.mergeStates false).next ctx (.many ⟨states, failures⟩) = .succeed (.one merged) ∧
      (∀ r ∈ Reduce.merging, ∃ q, (r.runnable.next ctx (.many ⟨states, failures⟩)).Comes
        sched task p q (.ok (.one merged))) ∧
      ∀ more, mergeSamples (merged :: more) = mergeSamples (states ++ more) := by
  obtain ⟨merged, hmerged⟩ := exists_mergeSamples hne
  refine ⟨merged, hmerged, ?_, fun r hr => ?_, fun more => (mergeSamples_append hmerged).symm⟩
  · rw [Reduce.next_mergeStates, hmerged]
    rfl
  · exact Reduce.exists_comes_of_merging hr ready unstopped ⟨states, failures⟩ hmerged

/-- Three states with metadata of two kinds under one key, whose numbers have no sum. -/
def mixed : List State :=
  [.num (.int 1), .str "a", .num (.int 0x7fffffffffffffff)].map fun value =>
    (State.empty.withEnergy ⟨0⟩).withEntry "k" value

/-- Also such states come to one in all these ways: the first entry stays, and there are three samples. -/
theorem merges_alike_of_mixed :
    let ctx : Context := ⟨1, .default, 0⟩
    ∃ merged, mergeSamples mixed = .ok merged ∧
      merged.info.get? "k" = some (.num (.int 1)) ∧ merged.samples.size = 3 ∧
      (Leaf.mergeStates false).next ctx (.ofList mixed) = .succeed (.one merged) ∧
      (∀ r ∈ Reduce.merging, ∃ q, (r.runnable.next ctx (.ofList mixed)).Comes
        (fun _ => .next) 0 .first q (.ok (.one merged))) ∧
      mergeSamples [merged, State.empty] = mergeSamples (mixed ++ [State.empty]) := by
  intro ctx
  obtain ⟨merged, hmerged, hlist, hfolds, happend⟩ :=
    @merges_alike mixed (by simp [mixed]) [] ctx (fun _ => .next) 0 .first Point.ready_first
      (by with_unfolding_all rfl)
  have hinfo : (mergeSamples mixed).map (fun s => (s.info.get? "k", s.samples.size)) =
      .ok (some (.num (.int 1)), 3) := by with_unfolding_all rfl
  rw [hmerged] at hinfo
  obtain ⟨hentry, hsize⟩ := Prod.mk.inj (Except.ok.inj hinfo)
  exact ⟨merged, hmerged, hentry, hsize, hlist, hfolds, happend [State.empty]⟩

end Orchestra
