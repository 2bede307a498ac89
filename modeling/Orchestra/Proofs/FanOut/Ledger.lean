import Orchestra.FanOut.Race
import Orchestra.Proofs.FanOut.Results

/-!
# What the ledger of a race comes to

A ledger that is given completions one after the other singles out the first output among them, and
keeps everything else in a way that forgets the order: late outputs and markers are sorted by
position in the end. So what a race comes to depends on two things only, which output came first and
what the results are.
-/

namespace Orchestra

namespace Results

/-- The results of all children but one. -/
def others (r : Results) (i : Nat) : Results :=
  fun j => if j = i then none else r j

/-- The output of a child with its position. -/
def outputAt? (r : Results) (j : Nat) : Option (Nat × Data) :=
  (r.output? j).map fun d => (j, d)

/-- The states of listed outputs are the states of the results. -/
theorem flatMap_outputAt? (r : Results) (n : Nat) :
    ((List.range n).filterMap r.outputAt?).flatMap (fun x => x.2.states) = r.states n := by
  unfold states outputs
  induction List.range n with
  | nil => rfl
  | cons j rest ih =>
    rw [List.map_cons, List.flatMap_cons]
    cases hj : r.output? j with
    | none => rw [List.filterMap_cons_none (by rw [outputAt?, hj]; rfl), ih]; rfl
    | some d =>
      rw [List.filterMap_cons_some (by rw [outputAt?, hj]; rfl), List.flatMap_cons, ih]
      rfl

/-- One output and those of the others are all outputs. -/
theorem perm_others (r : Results) {n i : Nat} (hi : i < n) {d : Data} (hd : r.output? i = some d) :
    ((List.range n).filterMap r.outputAt?).Perm
      ((i, d) :: (List.range n).filterMap (r.others i).outputAt?) := by
  have hperm : (List.range n).Perm (i :: (List.range n).erase i) :=
    List.perm_cons_erase (List.mem_range.mpr hi)
  have hself : r.outputAt? i = some (i, d) := by rw [outputAt?, hd]; rfl
  have hnone : (r.others i).outputAt? i = none := by simp [outputAt?, output?, others]
  have hrest : ((List.range n).erase i).filterMap r.outputAt? =
      ((List.range n).erase i).filterMap (r.others i).outputAt? := by
    refine List.filterMap_congr fun j hj => ?_
    have hne : j ≠ i := (List.nodup_range.mem_erase_iff.mp hj).1
    simp [outputAt?, output?, others, hne]
  calc ((List.range n).filterMap r.outputAt?).Perm
          ((i :: (List.range n).erase i).filterMap r.outputAt?) := hperm.filterMap _
    _ = (i, d) :: ((List.range n).erase i).filterMap (r.others i).outputAt? := by
          rw [List.filterMap_cons_some hself, hrest]
    _ = (i, d) :: (i :: (List.range n).erase i).filterMap (r.others i).outputAt? := by
          rw [List.filterMap_cons_none hnone]
    _ |>.Perm ((i, d) :: (List.range n).filterMap (r.others i).outputAt?) :=
          (hperm.symm.filterMap _).cons _

end Results

namespace RaceLedger

/-- The output of a completion with its position. -/
def outputOf (c : Completion) : Option (Nat × Data) :=
  c.outcome.output?.map fun d => (c.index, d)

/-- The ledger after one completion that is not refused. -/
def record (name : Nat → String) (l : RaceLedger) (c : Completion) : RaceLedger where
  decisive := l.decisive <|> c.outcome.output?
  late := match l.decisive with
    | none => l.late
    | some _ => l.late ++ (outputOf c).toList
  markers := l.markers ++ (Results.markerOf name c).toList
  firstError := l.firstError <|> c.outcome.failure?

/-- The ledger after completions none of which is refused. -/
def recordAll (name : Nat → String) (l : RaceLedger) (completions : List Completion) :
    RaceLedger :=
  completions.foldl (record name) l

variable {name : Nat → String} {l : RaceLedger} {c : Completion} {policy : FailurePolicy}

/-- A completion is refused only as a failure under fail-fast while nothing is decided. -/
theorem observe_eq (policy : FailurePolicy) (name : Nat → String) (l : RaceLedger)
    (c : Completion) : l.observe policy name c =
      match c.outcome.failure? with
      | some e => if l.decisive = none ∧ policy = .failFast then .error e else .ok (l.record name c)
      | none => .ok (l.record name c) := by
  obtain ⟨decisive, late, markers, firstError⟩ := l
  unfold observe record outputOf Results.markerOf
  cases hc : c.outcome with
  | ok d => cases decisive <;> simp [Outcome.failure?, Outcome.output?]
  | error e =>
    cases he : e.isCancelled with
    | true => cases decisive <;> simp [Outcome.failure?, Outcome.output?, he]
    | false =>
      cases decisive <;> cases policy <;> simp [Outcome.failure?, Outcome.output?, he]

theorem observe_eq_ok {l' : RaceLedger} (h : l.observe policy name c = .ok l') :
    l' = l.record name c ∧
      (policy = .failFast → l.decisive = none → c.outcome.failure? = none) := by
  rw [observe_eq] at h
  cases hf : c.outcome.failure? with
  | none =>
    rw [hf] at h
    exact ⟨(Except.ok.inj h).symm, fun _ _ => rfl⟩
  | some e =>
    rw [hf] at h
    dsimp only at h
    split at h
    · contradiction
    · next hno => exact ⟨(Except.ok.inj h).symm, fun hp hl => absurd ⟨hl, hp⟩ hno⟩

theorem observe_eq_error {e : RunError} (h : l.observe policy name c = .error e) :
    policy = .failFast ∧ l.decisive = none ∧ c.outcome.failure? = some e := by
  rw [observe_eq] at h
  cases hf : c.outcome.failure? with
  | none =>
    rw [hf] at h
    contradiction
  | some e' =>
    rw [hf] at h
    dsimp only at h
    split at h
    · next hrefused => exact ⟨hrefused.2, hrefused.1, congrArg some (Except.error.inj h)⟩
    · contradiction

theorem recordAll_append (completions completions' : List Completion) :
    l.recordAll name (completions ++ completions') =
      (l.recordAll name completions).recordAll name completions' :=
  List.foldl_append

theorem recordAll_markers (completions : List Completion) :
    (l.recordAll name completions).markers =
      l.markers ++ completions.filterMap (Results.markerOf name) := by
  induction completions generalizing l with
  | nil => simp [recordAll]
  | cons c rest ih =>
    have hrest := ih (l := l.record name c)
    rw [recordAll] at hrest ⊢
    rw [List.foldl_cons, hrest, record, List.append_assoc]
    cases h : Results.markerOf name c with
    | none => rw [List.filterMap_cons_none h]; rfl
    | some marker => rw [List.filterMap_cons_some h]; rfl

/-- Without an output nothing is decided, and nothing comes late. -/
theorem recordAll_of_no_output {completions : List Completion}
    (h : ∀ c ∈ completions, c.outcome.output? = none) :
    (l.recordAll name completions).decisive = l.decisive ∧
      (l.recordAll name completions).late = l.late := by
  induction completions generalizing l with
  | nil => exact ⟨rfl, rfl⟩
  | cons c rest ih =>
    obtain ⟨hc, hrest⟩ := List.forall_mem_cons.mp h
    obtain ⟨hdecisive, hlate⟩ := ih (l := l.record name c) hrest
    constructor
    · refine hdecisive.trans ?_
      rw [record, hc]
      cases l.decisive <;> rfl
    · refine hlate.trans ?_
      unfold record outputOf
      rw [hc]
      cases l.decisive with
      | none => rfl
      | some d => exact List.append_nil l.late

/-- If nothing is decided, there was no output. -/
theorem no_output_of_recordAll {completions : List Completion}
    (h : (l.recordAll name completions).decisive = none) :
    l.decisive = none ∧ ∀ c ∈ completions, c.outcome.output? = none := by
  induction completions generalizing l with
  | nil => exact ⟨h, fun c hc => absurd hc List.not_mem_nil⟩
  | cons c rest ih =>
    obtain ⟨hc, hrest⟩ := ih h
    rw [record] at hc
    dsimp only at hc
    cases hl : l.decisive with
    | some d => rw [hl] at hc; contradiction
    | none =>
      rw [hl] at hc
      exact ⟨rfl, List.forall_mem_cons.mpr ⟨hc, hrest⟩⟩

/-- Who becomes decisive has an output. -/
theorem exists_output_of_recordAll {completions : List Completion} (hl : l.decisive = none)
    (h : (l.recordAll name completions).decisive.isSome) :
    ∃ x ∈ completions, ∃ d, x.outcome = .ok d := by
  by_contra hnone
  have houtput : ∀ x ∈ completions, x.outcome.output? = none := fun x hx => by
    cases ho : x.outcome with
    | ok d => exact absurd ⟨x, hx, d, ho⟩ hnone
    | error e => rfl
  rw [(recordAll_of_no_output houtput).1, hl] at h
  contradiction


/-- Once it is decided, outputs come late. -/
theorem recordAll_of_decisive {d : Data} (h : l.decisive = some d) (completions : List Completion) :
    (l.recordAll name completions).decisive = some d ∧
      (l.recordAll name completions).late = l.late ++ completions.filterMap outputOf := by
  induction completions generalizing l with
  | nil => exact ⟨h, (List.append_nil l.late).symm⟩
  | cons c rest ih =>
    have hc : (l.record name c).decisive = some d := by rw [record, h]; rfl
    have hlate : (l.record name c).late = l.late ++ (outputOf c).toList := by rw [record, h]
    obtain ⟨hdecisive, hrest⟩ := ih hc
    refine ⟨hdecisive, hrest.trans ?_⟩
    rw [hlate, List.append_assoc]
    cases ho : outputOf c with
    | none => rw [List.filterMap_cons_none ho]; rfl
    | some x => rw [List.filterMap_cons_some ho]; rfl

/-- Without a failure no error is kept. -/
theorem recordAll_of_no_failure {completions : List Completion}
    (h : ∀ c ∈ completions, c.outcome.failure? = none) :
    (l.recordAll name completions).firstError = l.firstError := by
  induction completions generalizing l with
  | nil => rfl
  | cons c rest ih =>
    obtain ⟨hc, hrest⟩ := List.forall_mem_cons.mp h
    refine (ih (l := l.record name c) hrest).trans ?_
    rw [record, hc]
    cases l.firstError <;> rfl

/-- The first error kept is never replaced. -/
theorem recordAll_of_firstError {e : RunError} (h : l.firstError = some e)
    (completions : List Completion) : (l.recordAll name completions).firstError = some e := by
  induction completions generalizing l with
  | nil => exact h
  | cons c rest ih =>
    refine ih (l := l.record name c) ?_
    rw [record, h]
    rfl

/-! ### The end of a race -/

variable {r : Results} {n : Nat} {before after : List Completion}

/-- The first output comes first, and the other outputs follow in declared order. -/
theorem finish_of_output (fanIn : FanIn) (h : r.Lists n (before ++ c :: after))
    (hbefore : ∀ x ∈ before, x.outcome.output? = none) {d : Data} (hc : c.outcome = .ok d) :
    (empty.recordAll name (before ++ c :: after)).finish fanIn =
      fanIn.apply (d.states ++ (r.others c.index).states n) (r.markers n name) := by
  have hstart : (empty.recordAll name before).decisive = none ∧
      (empty.recordAll name before).late = [] := recordAll_of_no_output hbefore
  have hdecided : ((empty.recordAll name before).record name c).decisive = some d := by
    rw [record, hstart.1, hc]
    rfl
  have hlate : ((empty.recordAll name before).record name c).late = [] := by
    rw [record, hstart.1]
    exact hstart.2
  have hall : empty.recordAll name (before ++ c :: after) =
      ((empty.recordAll name before).record name c).recordAll name after := recordAll_append _ _
  obtain ⟨hdecisive, hlates⟩ := recordAll_of_decisive hdecided after
  obtain ⟨hindex, hresult⟩ := h.mem_iff.mp
    (List.mem_append_right before (List.mem_cons_self : c ∈ c :: after))
  have houtput : r.output? c.index = some d := by
    rw [Results.output?_eq_some, hresult, hc]
  have hothers : (after.filterMap outputOf).Perm
      ((List.range n).filterMap (r.others c.index).outputAt?) := by
    refine List.Perm.cons_inv (a := (c.index, d)) ?_
    calc ((c.index, d) :: after.filterMap outputOf)
        = (before ++ c :: after).filterMap outputOf := by
          have hnil : before.filterMap outputOf = [] :=
            List.filterMap_eq_nil_iff.mpr fun x hx => by rw [outputOf, hbefore x hx]; rfl
          have hsome : outputOf c = some (c.index, d) := by rw [outputOf, hc]; rfl
          rw [List.filterMap_append, hnil, List.filterMap_cons_some hsome, List.nil_append]
      _ |>.Perm ((List.range n).filterMap r.outputAt?) := by
          refine (h.filterMap_perm outputOf).trans (List.Perm.of_eq ?_)
          refine List.filterMap_congr fun j _ => ?_
          unfold outputOf Results.outputAt? Results.output?
          cases r j <;> rfl
      _ |>.Perm _ := r.perm_others hindex houtput
  have hsorted : (after.filterMap outputOf).mergeSort (fun a b => decide (a.1 ≤ b.1)) =
      (List.range n).filterMap (r.others c.index).outputAt? := by
    refine mergeSort_eq_of_perm Prod.fst hothers ?_
    refine pairwise_filterMap_range Prod.fst _ (fun j x hx => ?_) n
    obtain ⟨d', -, rfl⟩ := Option.map_eq_some_iff.mp hx
    rfl
  rw [hlate, List.nil_append] at hlates
  rw [finish, hall, hdecisive, lateStates, hlates, hsorted]
  rw [← hall, recordAll_markers, empty, List.nil_append, h.sorted_markers]
  rw [← (r.others c.index).flatMap_outputAt? n]

/-- Without any output the first failure is reported, with the number of failures. -/
theorem finish_of_failure (fanIn : FanIn) (h : r.Lists n (before ++ c :: after))
    (houtput : ∀ x ∈ before ++ c :: after, x.outcome.output? = none)
    (hbefore : ∀ x ∈ before, x.outcome.failure? = none) {e : RunError}
    (hc : c.outcome.failure? = some e) :
    (empty.recordAll name (before ++ c :: after)).finish fanIn =
      .error (.allFailed (r.failed n) e) := by
  have hdecisive : (empty.recordAll name (before ++ c :: after)).decisive = none :=
    (recordAll_of_no_output houtput).1
  have hkept : ((empty.recordAll name before).record name c).firstError = some e := by
    rw [record, recordAll_of_no_failure hbefore, hc]
    rfl
  have hfirst : (empty.recordAll name (before ++ c :: after)).firstError = some e := by
    rw [recordAll_append]
    exact recordAll_of_firstError hkept after
  rw [finish, hdecisive, hfirst]
  dsimp only [empty]
  rw [recordAll_markers, List.nil_append, h.length_markers]

/-- Without any output or failure the race is cancelled. -/
theorem finish_of_cancelled (fanIn : FanIn) {completions : List Completion}
    (houtput : ∀ x ∈ completions, x.outcome.output? = none)
    (hfailed : ∀ x ∈ completions, x.outcome.failure? = none) :
    (empty.recordAll name completions).finish fanIn = .error .cancelled := by
  have hdecisive : (empty.recordAll name completions).decisive = none :=
    (recordAll_of_no_output houtput).1
  have hfirst : (empty.recordAll name completions).firstError = none :=
    recordAll_of_no_failure hfailed
  rw [finish, hdecisive, hfirst]

end RaceLedger

end Orchestra
