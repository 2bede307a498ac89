import Orchestra.Proofs.FanOut.Results

/-!
# What a tally comes to

A tally accepts completions in the order of the endings, and keeps outputs by position and failures
in that order. When it has recorded everything, its outputs and markers are those of the results in
declared order, so that the order of the endings is forgotten; the error it may finish with names
the failure that came first.
-/

namespace Orchestra

/-- Whether an outcome is one that a gathering refuses: a failure under fail-fast. -/
def FailurePolicy.Refuses (policy : FailurePolicy) (o : Outcome) : Prop :=
  policy = .failFast ∧ ∃ e, o = .error e ∧ e ≠ .cancelled

namespace Tally

/-- The failure of a child, as a tally keeps it. -/
def failureOf (name : Nat → String) (c : Completion) : Option (FailureMarker × RunError) :=
  c.outcome.failure?.map fun e => (FailureMarker.ofError c.index (name c.index) e, e)

/-- The tally after one completion that is not refused. -/
def record (name : Nat → String) (t : Tally) (c : Completion) : Tally where
  outputs := match c.outcome.output? with
    | some d => t.outputs.set c.index (some d)
    | none => t.outputs
  failures := t.failures ++ (failureOf name c).toList

/-- The tally after completions none of which is refused. -/
def recordAll (name : Nat → String) (t : Tally) (completions : List Completion) : Tally :=
  completions.foldl (record name) t

variable {name : Nat → String} {t : Tally} {c : Completion}

/-- Only a failure under fail-fast is refused. -/
theorem accept_of_not_failed (policy : FailurePolicy) (h : c.outcome.failure? = none) :
    t.accept policy name c = .ok (t.record name c) := by
  have hnone : failureOf name c = none := by rw [failureOf, h]; rfl
  unfold accept record
  rw [hnone]
  cases hc : c.outcome with
  | ok d => simp [Outcome.output?]
  | error e =>
    cases he : e.isCancelled with
    | true => simp [Outcome.output?, he]
    | false =>
      rw [hc, Outcome.failure?_eq_some.mpr ⟨rfl, he⟩] at h
      contradiction

theorem accept_failFast {e : RunError} (h : c.outcome.failure? = some e) :
    t.accept .failFast name c = .error e := by
  obtain ⟨hc, he⟩ := Outcome.failure?_eq_some.mp h
  simp [accept, hc, he]

/-- Under best effort nothing is refused. -/
theorem accept_bestEffort : t.accept .bestEffort name c = .ok (t.record name c) := by
  cases h : c.outcome.failure? with
  | none => exact accept_of_not_failed .bestEffort h
  | some e =>
    have hsome : failureOf name c = some (FailureMarker.ofError c.index (name c.index) e, e) := by
      rw [failureOf, h]
      rfl
    obtain ⟨hc, he⟩ := Outcome.failure?_eq_some.mp h
    simp [accept, record, hsome, hc, he, Outcome.output?]

/-- An accepted completion is recorded, and it is no failure under fail-fast. -/
theorem accept_eq_ok {policy : FailurePolicy} {t' : Tally} (h : t.accept policy name c = .ok t') :
    t' = t.record name c ∧ (policy = .failFast → c.outcome.failure? = none) := by
  cases hf : c.outcome.failure? with
  | none =>
    rw [accept_of_not_failed policy hf] at h
    exact ⟨(Except.ok.inj h).symm, fun _ => rfl⟩
  | some e =>
    cases policy with
    | failFast =>
      rw [accept_failFast hf] at h
      contradiction
    | bestEffort =>
      rw [accept_bestEffort] at h
      exact ⟨(Except.ok.inj h).symm, fun hp => by contradiction⟩

/-- A completion is refused only as a failure under fail-fast, and with its error. -/
theorem accept_eq_error {policy : FailurePolicy} {e : RunError}
    (h : t.accept policy name c = .error e) :
    policy = .failFast ∧ c.outcome.failure? = some e := by
  cases policy with
  | bestEffort =>
    rw [accept_bestEffort] at h
    contradiction
  | failFast =>
    cases hf : c.outcome.failure? with
    | none =>
      rw [accept_of_not_failed .failFast hf] at h
      contradiction
    | some e' =>
      rw [accept_failFast hf] at h
      exact ⟨rfl, congrArg some (Except.error.inj h)⟩

/-- The failures are recorded in the order of the completions. -/
theorem recordAll_failures (completions : List Completion) :
    (t.recordAll name completions).failures =
      t.failures ++ completions.filterMap (failureOf name) := by
  induction completions generalizing t with
  | nil => simp [recordAll]
  | cons c rest ih =>
    have hrest := ih (t := t.record name c)
    rw [recordAll] at hrest ⊢
    rw [List.foldl_cons, hrest, record, List.append_assoc]
    cases h : failureOf name c with
    | none => rw [List.filterMap_cons_none h]; rfl
    | some f => rw [List.filterMap_cons_some h]; rfl

/-- If all completions of one position have the same output, the tally holds that output there. -/
theorem recordAll_outputs_get (completions : List Completion) {i : Nat} {x : Option Data}
    (hsame : ∀ c ∈ completions, c.index = i → c.outcome.output? = x)
    (hinit : t.outputs[i]? = some none ∨ t.outputs[i]? = some x)
    (hthere : (∃ c ∈ completions, c.index = i) ∨ t.outputs[i]? = some x) :
    (t.recordAll name completions).outputs[i]? = some x := by
  induction completions generalizing t with
  | nil =>
    rcases hthere with ⟨c, hc, -⟩ | hthere
    · contradiction
    · exact hthere
  | cons c rest ih =>
    have hrest (c' : Completion) (hc' : c' ∈ rest) := hsame c' (List.mem_cons_of_mem c hc')
    have hlt : i < t.outputs.length := by
      rcases hinit with hinit | hinit <;> exact (List.getElem?_eq_some_iff.mp hinit).1
    by_cases hi : c.index = i
    · have hx : (t.record name c).outputs[i]? = some x := by
        have houtput := hsame c List.mem_cons_self hi
        unfold record
        rw [houtput]
        cases x with
        | none => rcases hinit with hinit | hinit <;> exact hinit
        | some d => rw [hi, List.getElem?_set_self hlt]
      exact ih hrest (.inr hx) (.inr hx)
    · have hkeep : (t.record name c).outputs[i]? = t.outputs[i]? := by
        unfold record
        cases c.outcome.output? with
        | none => rfl
        | some d => exact List.getElem?_set_ne hi
      refine ih hrest (hkeep ▸ hinit) ?_
      rcases hthere with ⟨c', hc', hi'⟩ | hthere
      · rcases List.mem_cons.mp hc' with rfl | hc'
        · exact absurd hi' hi
        · exact .inl ⟨c', hc', hi'⟩
      · exact .inr (hkeep.trans hthere)

theorem recordAll_outputs_length (completions : List Completion) :
    (t.recordAll name completions).outputs.length = t.outputs.length := by
  induction completions generalizing t with
  | nil => rfl
  | cons c rest ih =>
    have hrest := ih (t := t.record name c)
    rw [recordAll] at hrest ⊢
    rw [List.foldl_cons, hrest]
    unfold record
    cases c.outcome.output? with
    | none => rfl
    | some d => exact List.length_set

/-! ### All completions of a fan-out -/

section Ranked

variable {E : Endings} {n : Nat} {taken : List (Nat × Completion)}

/-- The tally of all completions taken so far. -/
def ofTaken (name : Nat → String) (n : Nat) (taken : List (Nat × Completion)) : Tally :=
  (empty n).recordAll name (taken.map Prod.snd)

/-- The outputs are those of the results. -/
theorem ofTaken_outputs (h : E.Ranked n taken) :
    (ofTaken name n taken).outputs = E.results.outputs n := by
  refine List.ext_getElem? fun i => ?_
  have hlength : (ofTaken name n taken).outputs.length = n := by
    rw [ofTaken, recordAll_outputs_length, empty, List.length_replicate]
  by_cases hi : i < n
  · have hresult : (E.results.outputs n)[i]? = some (E.results.output? i) := by
      rw [Results.outputs, List.getElem?_map, List.getElem?_range hi]
      rfl
    have hnone : (empty n).outputs[i]? = some none := by
      rw [empty, List.getElem?_replicate, if_pos hi]
    rw [hresult]
    refine recordAll_outputs_get _ (fun c hc hci => ?_) (.inl hnone) ?_
    · obtain ⟨⟨place, c'⟩, hmem, rfl⟩ := List.mem_map.mp hc
      have hending := (h.mem_iff.mp hmem).2
      subst hci
      simp [Results.output?, Endings.results, hending]
    · cases hending : E i with
      | none =>
        refine .inr (hnone.trans ?_)
        simp [Results.output?, Endings.results, hending]
      | some e =>
        have hmem : (e.1, (⟨i, e.2⟩ : Completion)) ∈ taken := h.mem_iff.mpr ⟨hi, hending⟩
        exact .inl ⟨⟨i, e.2⟩, List.mem_map.mpr ⟨_, hmem, rfl⟩, rfl⟩
  · rw [List.getElem?_eq_none (by omega), List.getElem?_eq_none]
    rw [Results.outputs, List.length_map, List.length_range]
    omega

/-- The markers of the failures kept. -/
theorem map_failureOf (name : Nat → String) (completions : List Completion) :
    (completions.filterMap (failureOf name)).map Prod.fst =
      completions.filterMap (Results.markerOf name) := by
  rw [List.map_filterMap]
  refine List.filterMap_congr fun c _ => ?_
  rw [failureOf, Results.markerOf, Option.map_map]
  rfl

theorem ofTaken_failures (name : Nat → String) (n : Nat) (taken : List (Nat × Completion)) :
    (ofTaken name n taken).failures = (taken.map Prod.snd).filterMap (failureOf name) := by
  rw [ofTaken, recordAll_failures, empty, List.nil_append]

/-- The markers in the order of their indices are those of the results. -/
theorem ofTaken_markers (h : E.Ranked n taken) :
    FailureMarker.sorted ((ofTaken name n taken).failures.map Prod.fst) =
      E.results.markers n name := by
  rw [ofTaken_failures, map_failureOf]
  exact h.lists.sorted_markers name

theorem ofTaken_failed (name : Nat → String) (h : E.Ranked n taken) :
    (ofTaken name n taken).failures.length = E.results.failed n := by
  rw [← h.lists.length_markers name, ← map_failureOf, ← ofTaken_failures, List.length_map]

/-- With some output the tally finishes with the outputs and markers in declared order. -/
theorem finish_of_output (h : E.Ranked n taken) {i : Nat} (hi : i < n)
    (houtput : (E.results.output? i).isSome) :
    (ofTaken name n taken).finish =
      .ok ⟨E.results.outputs n, E.results.markers n name⟩ := by
  have hany := Results.any_outputs.mpr ⟨i, hi, houtput⟩
  rw [finish, ofTaken_outputs h, if_pos hany, ofTaken_markers h]

/-- Without any output, but with some failure, it finishes with the number of failures and the
first of them. -/
theorem finish_of_failure (name : Nat → String) (h : E.Ranked n taken)
    (houtput : ∀ i < n, E.results.output? i = none)
    {i : Nat} (hi : i < n) (hfailed : (E.results.failure? i).isSome) :
    ∃ e, E.FirstFailure n e ∧
      (ofTaken name n taken).finish = .error (.allFailed (E.results.failed n) e) := by
  have hcount : (ofTaken name n taken).failures.length ≠ 0 := by
    rw [ofTaken_failed name h]
    exact Nat.ne_of_gt (List.countP_pos_iff.mpr ⟨i, List.mem_range.mpr hi, hfailed⟩)
  rw [finish, ofTaken_outputs h, if_neg (Results.not_any_outputs houtput), ← ofTaken_failed name h]
  cases hfailures : (ofTaken name n taken).failures with
  | nil =>
    rw [hfailures] at hcount
    exact absurd rfl hcount
  | cons first rest =>
    obtain ⟨marker, e⟩ := first
    have hpicked := (ofTaken_failures name n taken).symm.trans hfailures
    rw [List.filterMap_map] at hpicked
    obtain ⟨before, x, after, rfl, hbefore, hx, -⟩ := List.filterMap_eq_cons_iff.mp hpicked
    obtain ⟨e', he', heq⟩ := Option.map_eq_some_iff.mp hx
    cases heq
    exact ⟨e, h.firstFailure (fun y hy => Option.map_eq_none_iff.mp (hbefore y hy)) he', rfl⟩

/-- Without any output or failure every child has acknowledged a stop, and so does the tally. -/
theorem finish_of_cancelled (h : E.Ranked n taken) (houtput : ∀ i < n, E.results.output? i = none)
    (hfailed : ∀ i < n, E.results.failure? i = none) :
    (ofTaken name n taken).finish = .error .cancelled := by
  have hnil : (ofTaken name n taken).failures = [] := by
    refine List.eq_nil_of_length_eq_zero ?_
    rw [ofTaken_failed name h]
    refine List.countP_eq_zero.mpr fun i hi => ?_
    rw [hfailed i (List.mem_range.mp hi)]
    exact Bool.false_ne_true
  rw [finish, ofTaken_outputs h, if_neg (Results.not_any_outputs houtput), hnil]

/-- What is concluded from the tally of all completions. -/
theorem yields_of_ranked (h : E.Ranked n taken) (finish : Gathered → Outcome) {o : Outcome}
    (ho : o = match (ofTaken name n taken).finish with
      | .ok gathered => finish gathered
      | .error e => .error e) : E.Yields n name finish o where
  output := by
    rintro ⟨i, hi, houtput⟩
    rw [ho, finish_of_output h hi houtput]
  failure houtput := by
    rintro ⟨i, hi, hfailed⟩
    obtain ⟨e, hfirst, hfinish⟩ := finish_of_failure name h houtput hi hfailed
    exact ⟨e, hfirst, by rw [ho, hfinish]⟩
  cancelled houtput hfailed := by
    rw [ho, finish_of_cancelled h houtput hfailed]

end Ranked

end Tally

end Orchestra
