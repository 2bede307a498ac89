import Orchestra.Proofs.Loop.Rounds
import Orchestra.Proofs.Selection

/-!
# What a loop holds

Between two rounds a loop holds what its plan has made of the outputs so far, one after the other. For
the loop that returns its last output that is the last of them, for the one that collects them their
list, for the one that returns the best the earliest of those with the least key; and the loop that waits
for an improvement holds its input as long as it goes on.
-/

namespace Orchestra

namespace Event

variable {es fs : List Event} {part : Runnable} {input : Data}

@[simp] theorem outputs_nil : outputs [] = [] := rfl

@[simp] theorem outputs_looked (stopped : Bool) : outputs (looked stopped :: es) = outputs es := rfl

@[simp] theorem outputs_timed (reading : Nat) : outputs (timed reading :: es) = outputs es := rfl

@[simp] theorem outputs_ok (output : Data) :
    outputs (returned part input (.ok output) :: es) = output :: outputs es := rfl

@[simp] theorem outputs_error (e : RunError) :
    outputs (returned part input (.error e) :: es) = outputs es := rfl

@[simp] theorem outputs_append : outputs (es ++ fs) = outputs es ++ outputs fs :=
  List.filterMap_append

end Event

namespace Loop

variable {σ : Type} {l : Loop} {plan : Plan σ} {started rounds left : Nat} {held last : σ}
  {before es : List Event}

/-- Without a run of the body there is no output. -/
theorem Reads.outputs {budget : Option Duration} {reading : Nat} (reads : Reads budget before reading) :
    Event.outputs before = [] := by
  cases reads <;> rfl

theorem Checks.outputs {late : Bool} (checks : l.Checks started before late) :
    Event.outputs before = [] := by
  obtain ⟨_, reads, _⟩ := checks
  exact reads.outputs

/-- The output of a round comes before those of the later ones. -/
theorem GoesOn.outputs {held' : σ} {output : Data} (first : GoesOn l plan started before held output held')
    (part : Runnable) (input : Data) (es : List Event) :
    Event.outputs (before ++ .looked false :: .returned part input (.ok output) :: es) =
      output :: Event.outputs es := by
  rw [Event.outputs_append, first.inTime.outputs]
  rfl

/-- What is held after some outputs. -/
def heldAfter (plan : Plan σ) (held : σ) (outputs : List Data) : Except RunError σ :=
  outputs.foldlM plan.accept held

theorem heldAfter_cons {output : Data} {outputs : List Data} {held' : σ}
    (accepted : plan.accept held output = .ok held') :
    heldAfter plan held (output :: outputs) = heldAfter plan held' outputs := by
  rw [heldAfter, List.foldlM_cons, accepted]
  rfl

theorem heldAfter_append {outputs outputs' : List Data} {held' : σ}
    (before : heldAfter plan held outputs = .ok held') :
    heldAfter plan held (outputs ++ outputs') = heldAfter plan held' outputs' := by
  rw [heldAfter, List.foldlM_append, ← heldAfter, before]
  rfl

/-- Rounds lead to what is held after their outputs, -/
theorem Rounds.heldAfter (through : Rounds l plan started rounds held es left last) :
    heldAfter plan held (Event.outputs es) = .ok last := by
  induction through with
  | nil => rfl
  | cons first _ ih =>
    rw [first.outputs, heldAfter_cons first.accepted]
    exact ih

/-- each with one output. -/
theorem Rounds.length (through : Rounds l plan started rounds held es left last) :
    rounds = left + (Event.outputs es).length := by
  induction through with
  | nil => rfl
  | cons first _ ih =>
    rw [first.outputs, ih]
    rfl

/-- A loop that ends well in a round returns the result of what it holds then, -/
theorem Stands.exists_heldAfter {d : Data} (stands : Stands l plan started rounds held es (.done (.ok d))) :
    (Event.outputs es).length ≤ rounds ∧
      ∃ last, heldAfter plan held (Event.outputs es) = .ok last ∧ d = plan.result last := by
  have hnone (h : Event.outputs es = []) (hd : d = plan.result held) :
      (Event.outputs es).length ≤ rounds ∧
        ∃ last, heldAfter plan held (Event.outputs es) = .ok last ∧ d = plan.result last := by
    rw [h]
    exact ⟨Nat.zero_le _, held, rfl, hd⟩
  generalize hs : Script.done (.ok d) = s at stands
  cases stands with
  | exhausted =>
    cases hs
    exact hnone rfl rfl
  | outOfTime late =>
    cases hs
    exact hnone late.outputs rfl
  | ended inTime =>
    cases hs
    exact hnone (by simp [inTime.outputs]) rfl
  | satisfied inTime _ accepted =>
    cases hs
    rw [Event.outputs_append, inTime.outputs]
    exact ⟨Nat.succ_le_succ (Nat.zero_le _), _, heldAfter_cons accepted, rfl⟩
  | cancelled inTime _ _ stopped =>
    cases stopped with
    | true =>
      cases hs
      exact hnone (by simp [inTime.outputs]) rfl
    | false => cases hs
  | _ => cases hs

/-- and so does a loop that ends well. -/
theorem exists_heldAfter_of_goes_ok {d : Data}
    (goes : (l.script plan started rounds held).Goes es (.done (.ok d))) :
    (Event.outputs es).length ≤ rounds ∧
      ∃ last, heldAfter plan held (Event.outputs es) = .ok last ∧ d = plan.result last := by
  obtain ⟨left, last, es₁, es₂, through, stands, rfl⟩ := exists_rounds_of_goes goes
  obtain ⟨hle, last', hlast, hd⟩ := stands.exists_heldAfter
  rw [Event.outputs_append, heldAfter_append through.heldAfter, List.length_append]
  have hlength := through.length
  exact ⟨by omega, last', hlast, hd⟩

/-- The same holds of a loop from its start. -/
theorem exists_heldAfter_of_goes_start {d : Data}
    (goes : (l.start plan held).Goes es (.done (.ok d))) :
    (Event.outputs es).length ≤ l.rounds ∧
      ∃ last, heldAfter plan held (Event.outputs es) = .ok last ∧ d = plan.result last := by
  obtain ⟨-, -, hs⟩ | ⟨before, rest, started, reads, here, rfl⟩ := reads_of_goes_timing goes
  · cases hs
  · rw [Event.outputs_append, reads.outputs]
    exact exists_heldAfter_of_goes_ok here

/-! ### The four loops -/

/-- The loop that returns its last output. -/
theorem heldAfter_last {outputs : List Data} {held last : Tracker Data × Data}
    (h : heldAfter l.lastPlan held outputs = .ok last) : last.2 = outputs.getLast?.getD held.2 := by
  induction outputs generalizing held with
  | nil =>
    cases h
    rfl
  | cons output outputs ih =>
    have hrest : heldAfter l.lastPlan (l.observeForPredicate held.1 output, output) outputs =
        .ok last := h
    rw [ih hrest, List.getLast?_cons]
    rfl

/-- The loop that collects its outputs, which are single states. -/
theorem heldAfter_unwind {outputs : List Data} {held last : Tracker Data × List State × State}
    (h : heldAfter l.unwindPlan held outputs = .ok last) : ∃ history,
      outputs = history.map .one ∧ last.2.1 = held.2.1 ++ history ∧
        last.2.2 = history.getLast?.getD held.2.2 := by
  induction outputs generalizing held with
  | nil =>
    cases h
    exact ⟨[], rfl, (List.append_nil _).symm, rfl⟩
  | cons output outputs ih =>
    cases output with
    | one s =>
      have hrest : heldAfter l.unwindPlan
          (l.observeForPredicate held.1 (.one s), held.2.1 ++ [s], s) outputs = .ok last := h
      obtain ⟨history, rfl, hlist, hlast⟩ := ih hrest
      refine ⟨s :: history, rfl, ?_, ?_⟩
      · rw [hlist, List.append_assoc]
        rfl
      · rw [hlast, List.getLast?_cons]
        rfl
    | many => cases h

/-- The loop that returns its best output. -/
theorem heldAfter_best {patience : Option Nat} {outputs : List Data}
    {held last : Tracker Data × Nat × Data}
    (h : heldAfter (l.bestPlan patience) held outputs = .ok last) :
    last.1 = outputs.foldl l.observe held.1 ∧ last.2.2 = outputs.getLast?.getD held.2.2 := by
  induction outputs generalizing held with
  | nil =>
    cases h
    exact ⟨rfl, rfl⟩
  | cons output outputs ih =>
    have hrest : heldAfter (l.bestPlan patience)
        (l.observe held.1 output, l.staleAfter held.1 held.2.1 output, output) outputs =
          .ok last := h
    obtain ⟨hbest, hlast⟩ := ih hrest
    rw [hbest, hlast, List.getLast?_cons]
    exact ⟨rfl, rfl⟩

/-- The best of some outputs is the earliest of the least. -/
theorem exists_best {outputs : List Data} (hne : outputs ≠ []) : ∃ i d,
    EarliestLeast (Data.key l.criteria.key) outputs i d ∧
      (outputs.foldl l.observe .empty).value? = some d := by
  obtain ⟨i, d, hd, hbest⟩ := Tracker.exists_earliestLeast (Data.key l.criteria.key) outputs hne
  exact ⟨i, d, hd, congrArg (Option.map Prod.snd) hbest⟩

/-- The loop that waits for an improvement has none as long as it goes on. -/
theorem Rounds.improvement {maxTries : Option Nat} {baseline : Data} {held last : Nat × Option Data}
    (through : Rounds l (l.improvePlan maxTries baseline) started rounds held es left last)
    (hheld : held.2 = none) : last.2 = none := by
  induction through with
  | nil => exact hheld
  | cons first _ ih =>
    refine ih ?_
    have hunsatisfied := first.unsatisfied
    simp only [improvePlan, Bool.or_eq_false_iff] at hunsatisfied
    exact Option.not_isSome_iff_eq_none.mp (Bool.eq_false_iff.mp hunsatisfied.1)

end Loop

/-! ### What each kind of loop holds -/

/-- What a loop of a kind holds with an input and the outputs so far. -/
def LoopKind.Holds (l : Loop) (input : Data) : LoopKind → List Data → Data → Prop
  | last, outputs, d => d = outputs.getLast?.getD input
  | unwind, outputs, d => ∃ history, outputs = history.map .one ∧ d = Loop.collected history
  | best _, outputs, d =>
    outputs = [] ∧ d = input ∨ ∃ i, EarliestLeast (Data.key l.criteria.key) outputs i d
  | improve _, _, d => d = input

/-- A loop of a kind starts with a plan whose result is what it holds, and which refuses an output
with no cancellation; or its input is refused. -/
structure LoopKind.Starts (kind : LoopKind) (l : Loop) (input : Data) {σ : Type} (plan : Plan σ)
    (held : σ) : Prop where
  script : kind.script l input = l.start plan held
  refuses : ∀ held output e, plan.accept held output = .error e → e.isCancelled = false
  holds : ∀ started es left last, Loop.Rounds l plan started l.rounds held es left last →
    kind.Holds l input (Event.outputs es) (plan.result last)

theorem LoopKind.starts (kind : LoopKind) (l : Loop) (input : Data) :
    (∃ e, kind.script l input = .done (.error e) ∧ e.isCancelled = false) ∨
      ∃ σ, ∃ plan : Plan σ, ∃ held, kind.Starts l input plan held := by
  cases kind with
  | last =>
    refine .inr ⟨_, l.lastPlan, (.empty, input), rfl, nofun, fun started es left last through => ?_⟩
    exact Loop.heldAfter_last through.heldAfter
  | unwind =>
    cases input with
    | many states => exact .inl ⟨_, rfl, rfl⟩
    | one s =>
      refine .inr ⟨_, l.unwindPlan, (.empty, [], s), rfl, fun held output e h => ?_,
        fun started es left last through => ?_⟩
      · cases output with
        | one => cases h
        | many =>
          cases h
          rfl
      · obtain ⟨history, houtputs, hlist, -⟩ := Loop.heldAfter_unwind through.heldAfter
        exact ⟨history, houtputs, congrArg Loop.collected hlist⟩
  | best patience =>
    refine .inr ⟨_, l.bestPlan patience, (.empty, 0, input), rfl, nofun,
      fun started es left last through => ?_⟩
    obtain ⟨hbest, hlast⟩ := Loop.heldAfter_best through.heldAfter
    have hresult : (l.bestPlan patience).result last = last.1.value?.getD last.2.2 := rfl
    rw [hresult, hbest, hlast]
    by_cases hnil : Event.outputs es = []
    · rw [hnil]
      exact .inl ⟨rfl, rfl⟩
    · obtain ⟨i, d, hd, hvalue⟩ := Loop.exists_best hnil
      rw [hvalue]
      exact .inr ⟨i, hd⟩
  | improve maxTries =>
    refine .inr ⟨_, l.improvePlan maxTries input, (0, none), rfl, nofun,
      fun started es left last through => ?_⟩
    have hnone := through.improvement rfl
    simp [Holds, Loop.improvePlan, hnone]

end Orchestra
