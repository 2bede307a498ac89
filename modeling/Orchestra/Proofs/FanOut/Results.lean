import Orchestra.FanOut.Gather
import Orchestra.Proofs.FanOut.Endings

/-!
# Results in declared order

What children have come to is read off by declared position: the outputs, the failures and their
markers. A tally that was given the completions one by one, in the order of the endings, comes to
the same; only its first failure depends on that order.
-/

namespace Orchestra

/-- The output of a success. -/
def Outcome.output? : Outcome → Option Data
  | .ok d => some d
  | .error _ => none

/-- The error of a failure. Acknowledging a stop is no failure. -/
def Outcome.failure? : Outcome → Option RunError
  | .ok _ => none
  | .error e => if e.isCancelled then none else some e

theorem Outcome.output?_eq_some {o : Outcome} {d : Data} : o.output? = some d ↔ o = .ok d := by
  cases o <;> simp [output?]

theorem RunError.isCancelled_eq_false {e : RunError} : e.isCancelled = false ↔ e ≠ .cancelled := by
  cases e <;> simp [isCancelled]

theorem Outcome.failure?_eq_some {o : Outcome} {e : RunError} :
    o.failure? = some e ↔ o = .error e ∧ e.isCancelled = false := by
  cases o with
  | ok d => simp [failure?]
  | error e' =>
    cases hc : e'.isCancelled with
    | true =>
      simp only [failure?, hc, if_true]
      constructor
      · intro h
        contradiction
      · rintro ⟨heq, hfalse⟩
        cases heq
        rw [hc] at hfalse
        contradiction
    | false =>
      simp only [failure?, hc]
      constructor
      · rintro ⟨⟩
        exact ⟨rfl, hc⟩
      · rintro ⟨⟨⟩, -⟩
        rfl

/-- What is neither an output nor a failure acknowledges a stop. -/
theorem Outcome.eq_cancelled {o : Outcome} (houtput : o.output? = none) (hfailed : o.failure? = none) :
    o = .error .cancelled := by
  cases o with
  | ok d => contradiction
  | error e => cases e <;> first | rfl | contradiction

namespace Gathered

variable {g : Gathered} {d : Data}

/-- The outputs that there are, -/
theorem mem_outputs : d ∈ g.outputs.filterMap id ↔ some d ∈ g.outputs := by
  simp

/-- and the states of all of them. -/
theorem states_eq (g : Gathered) : g.states = (g.outputs.filterMap id).flatMap Data.states := by
  unfold states
  induction g.outputs with
  | nil => rfl
  | cons x rest ih =>
    cases x with
    | none => rw [List.filterMap_cons_none rfl, ← ih]; rfl
    | some d =>
      rw [List.filterMap_cons_some (f := id) rfl, List.flatMap_cons, List.flatMap_cons, ih]
      rfl

end Gathered

/-- What children have come to so far, by declared position. -/
abbrev Results := Nat → Option Outcome

/-- How children have ended so far, by declared position: the place among all endings, and the
outcome. -/
abbrev Endings := Nat → Option (Nat × Outcome)

namespace Results

/-- The output of one child. -/
def output? (r : Results) (i : Nat) : Option Data :=
  (r i).bind Outcome.output?

/-- The failure of one child. -/
def failure? (r : Results) (i : Nat) : Option RunError :=
  (r i).bind Outcome.failure?

/-- The outputs of the first `n` children. -/
def outputs (r : Results) (n : Nat) : List (Option Data) :=
  (List.range n).map r.output?

/-- The states of the outputs, in declared order. -/
def states (r : Results) (n : Nat) : List State :=
  (r.outputs n).flatMap fun output => (output.map Data.states).getD []

/-- One marker for each failure, in declared order. -/
def markers (r : Results) (n : Nat) (name : Nat → String) : List FailureMarker :=
  (List.range n).filterMap fun i => (r.failure? i).map (FailureMarker.ofError i (name i))

/-- The number of failures. -/
def failed (r : Results) (n : Nat) : Nat :=
  (List.range n).countP fun i => (r.failure? i).isSome

variable {r r' : Results} {n : Nat}

/-- Results that agree on the first `n` children have the same outputs. -/
theorem outputs_congr (h : ∀ i < n, r i = r' i) : r.outputs n = r'.outputs n :=
  List.map_congr_left fun i hi => by rw [output?, output?, h i (List.mem_range.mp hi)]

theorem states_congr (h : ∀ i < n, r i = r' i) : r.states n = r'.states n := by
  rw [states, states, outputs_congr h]

theorem markers_congr {name name' : Nat → String} (h : ∀ i < n, r i = r' i)
    (hname : ∀ i < n, name i = name' i) : r.markers n name = r'.markers n name' := by
  refine List.filterMap_congr fun i hi => ?_
  rw [failure?, failure?, h i (List.mem_range.mp hi), hname i (List.mem_range.mp hi)]

theorem failed_congr (h : ∀ i < n, r i = r' i) : r.failed n = r'.failed n := by
  refine List.countP_congr fun i hi => ?_
  rw [failure?, failure?, h i (List.mem_range.mp hi)]

theorem any_outputs : (r.outputs n).any Option.isSome ↔ ∃ i < n, (r.output? i).isSome := by
  simp [outputs]

theorem not_any_outputs (h : ∀ i < n, r.output? i = none) : ¬ (r.outputs n).any Option.isSome := by
  rw [any_outputs]
  rintro ⟨i, hi, hsome⟩
  rw [h i hi] at hsome
  contradiction

/-- Without a failure there is no marker. -/
theorem markers_eq_nil {name : Nat → String} (h : ∀ i < n, r.failure? i = none) :
    r.markers n name = [] := by
  refine List.filterMap_eq_nil_iff.mpr fun i hi => ?_
  rw [h i (List.mem_range.mp hi)]
  rfl

theorem output?_eq_some {i : Nat} {d : Data} : r.output? i = some d ↔ r i = some (.ok d) := by
  rw [output?, Option.bind_eq_some_iff]
  simp [Outcome.output?_eq_some]

theorem failure?_eq_some {i : Nat} {e : RunError} :
    r.failure? i = some e ↔ r i = some (.error e) ∧ e ≠ .cancelled := by
  rw [failure?, Option.bind_eq_some_iff]
  simp [Outcome.failure?_eq_some, RunError.isCancelled_eq_false]

/-- The states are those of the outputs. -/
theorem mem_states {s : State} :
    s ∈ r.states n ↔ ∃ i < n, ∃ d, r i = some (.ok d) ∧ s ∈ d.states := by
  simp only [states, outputs, List.flatMap_map, List.mem_flatMap, List.mem_range]
  refine exists_congr fun i => and_congr_right fun _ => ?_
  constructor
  · intro hs
    cases hd : r.output? i with
    | none =>
      rw [hd] at hs
      contradiction
    | some d =>
      rw [hd] at hs
      exact ⟨d, output?_eq_some.mp hd, hs⟩
  · rintro ⟨d, hd, hs⟩
    rw [output?_eq_some.mpr hd]
    exact hs

end Results

/-! ### Sorting by position -/

/-- Sorting by a key gives the one arrangement in which the keys increase. -/
theorem mergeSort_eq_of_perm {α : Type} (key : α → Nat) {l l' : List α} (hperm : l.Perm l')
    (hsorted : l'.Pairwise (key · < key ·)) :
    l.mergeSort (fun a b => decide (key a ≤ key b)) = l' := by
  have hkeys : (l'.map key).Nodup := (List.pairwise_map.mpr hsorted).imp Nat.ne_of_lt
  have hmerge : (l.mergeSort fun a b => decide (key a ≤ key b)).Perm l' :=
    (List.mergeSort_perm l _).trans hperm
  have htrans (a b c : α) (hab : decide (key a ≤ key b)) (hbc : decide (key b ≤ key c)) :
      decide (key a ≤ key c) := by
    rw [decide_eq_true_eq] at *
    exact Nat.le_trans hab hbc
  have htotal (a b : α) : (decide (key a ≤ key b) || decide (key b ≤ key a)) = true := by
    rw [Bool.or_eq_true, decide_eq_true_eq, decide_eq_true_eq]
    exact Nat.le_total (key a) (key b)
  have hpairwise : (l.mergeSort fun a b => decide (key a ≤ key b)).Pairwise (key · ≤ key ·) :=
    (List.pairwise_mergeSort htrans htotal l).imp of_decide_eq_true
  refine List.Perm.eq_of_pairwise (fun a b ha hb hab hba => ?_) hpairwise
    (hsorted.imp Nat.le_of_lt) hmerge
  exact List.inj_on_of_nodup_map hkeys (hmerge.mem_iff.mp ha) hb (Nat.le_antisymm hab hba)

/-- What is picked by position from a range has increasing positions. -/
theorem pairwise_filterMap_range {α : Type} (key : α → Nat) (g : Nat → Option α)
    (hkey : ∀ i a, g i = some a → key a = i) (n : Nat) :
    ((List.range n).filterMap g).Pairwise (key · < key ·) := by
  refine List.pairwise_lt_range.filterMap g fun i j hij a ha b hb => ?_
  rw [hkey i a ha, hkey j b hb]
  exact hij

namespace Results

/-- The list holds the completions of the first `n` children, in some order. -/
def Lists (r : Results) (n : Nat) (completions : List Completion) : Prop :=
  completions.Perm ((List.range n).filterMap fun i => (r i).map fun o => ⟨i, o⟩)

/-- The marker of a completion that is a failure. -/
def markerOf (name : Nat → String) (c : Completion) : Option FailureMarker :=
  c.outcome.failure?.map (FailureMarker.ofError c.index (name c.index))

namespace Lists

variable {r : Results} {n : Nat} {completions : List Completion}

/-- Completions that are those of the results, none of them twice. -/
theorem of_mem_iff (hnodup : (completions.map Completion.index).Nodup)
    (hmem : ∀ c, c ∈ completions ↔ c.index < n ∧ r c.index = some c.outcome) :
    r.Lists n completions := by
  have hpicked : ((List.range n).filterMap fun i =>
      (r i).map fun o => (⟨i, o⟩ : Completion)).Pairwise (·.index < ·.index) := by
    refine pairwise_filterMap_range Completion.index _ (fun i c hc => ?_) n
    obtain ⟨o, -, rfl⟩ := Option.map_eq_some_iff.mp hc
    rfl
  have hpickedNodup : ((List.range n).filterMap fun i =>
      (r i).map fun o => (⟨i, o⟩ : Completion)).Nodup :=
    List.Nodup.of_map Completion.index ((List.pairwise_map.mpr hpicked).imp Nat.ne_of_lt)
  refine (List.perm_ext_iff_of_nodup hnodup.of_map hpickedNodup).mpr fun c => ?_
  rw [hmem, List.mem_filterMap]
  constructor
  · rintro ⟨hi, ho⟩
    exact ⟨c.index, List.mem_range.mpr hi, by rw [ho]; rfl⟩
  · rintro ⟨i, hi, heq⟩
    obtain ⟨o, ho, rfl⟩ := Option.map_eq_some_iff.mp heq
    exact ⟨List.mem_range.mp hi, ho⟩

/-- A completion is listed exactly if the child has come to it. -/
theorem mem_iff (h : r.Lists n completions) {c : Completion} :
    c ∈ completions ↔ c.index < n ∧ r c.index = some c.outcome := by
  rw [List.Perm.mem_iff h, List.mem_filterMap]
  constructor
  · rintro ⟨i, hi, heq⟩
    obtain ⟨o, ho, rfl⟩ := Option.map_eq_some_iff.mp heq
    exact ⟨List.mem_range.mp hi, ho⟩
  · rintro ⟨hi, ho⟩
    exact ⟨c.index, List.mem_range.mpr hi, by rw [ho]; rfl⟩

/-- What is picked from the completions is what is picked from the results, up to the order. -/
theorem filterMap_perm (h : r.Lists n completions) {α : Type} (g : Completion → Option α) :
    (completions.filterMap g).Perm
      ((List.range n).filterMap fun i => (r i).bind fun o => g ⟨i, o⟩) := by
  have heq : (List.range n).filterMap (fun i => (r i).bind fun o => g ⟨i, o⟩) =
      ((List.range n).filterMap fun i => (r i).map fun o => (⟨i, o⟩ : Completion)).filterMap g := by
    rw [List.filterMap_filterMap]
    refine List.filterMap_congr fun i _ => ?_
    cases r i <;> rfl
  rw [heq]
  exact List.Perm.filterMap g h

/-- The markers of the failures, sorted by index, are those of the results. -/
theorem sorted_markers (h : r.Lists n completions) (name : Nat → String) :
    FailureMarker.sorted (completions.filterMap (markerOf name)) = r.markers n name := by
  refine mergeSort_eq_of_perm FailureMarker.index ?_ ?_
  · have hpicked : r.markers n name =
        (List.range n).filterMap fun i => (r i).bind fun o => markerOf name ⟨i, o⟩ := by
      refine List.filterMap_congr fun i _ => ?_
      unfold failure? markerOf
      cases r i <;> rfl
    rw [hpicked]
    exact h.filterMap_perm _
  · refine pairwise_filterMap_range FailureMarker.index _ (fun i marker hmarker => ?_) n
    obtain ⟨e, -, rfl⟩ := Option.map_eq_some_iff.mp hmarker
    rfl

/-- There are as many failures among the completions as among the results. -/
theorem length_markers (h : r.Lists n completions) (name : Nat → String) :
    (completions.filterMap (markerOf name)).length = r.failed n := by
  rw [(h.filterMap_perm _).length_eq, List.length_filterMap_eq_countP]
  refine List.countP_congr fun i _ => ?_
  unfold failure? markerOf
  cases r i with
  | none => rfl
  | some o => rw [Option.bind_some, Option.isSome_map]; rfl

end Lists

end Results

namespace Endings

/-- The outcomes without their places. -/
def results (E : Endings) : Results :=
  fun i => (E i).map Prod.snd

/-- The completion of one child with its place. -/
def completion? (E : Endings) (i : Nat) : Option (Nat × Completion) :=
  (E i).map fun e => (e.1, ⟨i, e.2⟩)

/-- The number of children that have not ended. -/
def unfinished (E : Endings) (n : Nat) : Nat :=
  (List.range n).countP fun i => (E i).isNone

/-- Among the first `n` children that have ended in a certain way the given one did so first, the
declared position deciding between endings of one place. -/
def Leads (E : Endings) (n : Nat) (p : Outcome → Prop) (i : Nat) (o : Outcome) : Prop :=
  i < n ∧ p o ∧ ∃ place, E i = some (place, o) ∧
    ∀ j < n, ∀ place' o', E j = some (place', o') → p o' →
      place < place' ∨ place = place' ∧ i ≤ j

/-- Among the failures of the first `n` children the one with the given error came first, the
declared position deciding between endings of one place. -/
def FirstFailure (E : Endings) (n : Nat) (e : RunError) : Prop :=
  ∃ i < n, ∃ place, E i = some (place, .error e) ∧ e.isCancelled = false ∧
    ∀ j < n, ∀ place' e', E j = some (place', .error e') → e'.isCancelled = false →
      place < place' ∨ place = place' ∧ i ≤ j

/-- What a gathering comes to that has recorded everything there was, where `finish` says what is
made of outputs and markers. -/
structure Yields (E : Endings) (n : Nat) (name : Nat → String) (finish : Gathered → Outcome)
    (o : Outcome) : Prop where
  /-- With some output, failures are only marked. -/
  output : (∃ i < n, (E.results.output? i).isSome) →
    o = finish ⟨E.results.outputs n, E.results.markers n name⟩
  /-- Without any output the first failure is reported, with the number of failures. -/
  failure : (∀ i < n, E.results.output? i = none) → (∃ i < n, (E.results.failure? i).isSome) →
    ∃ e, E.FirstFailure n e ∧ o = .error (.allFailed (E.results.failed n) e)
  /-- Without any output or failure the run is cancelled. -/
  cancelled : (∀ i < n, E.results.output? i = none) → (∀ i < n, E.results.failure? i = none) →
    o = .error .cancelled

/-- The list holds the completions of the first `n` children in the order of their endings. -/
structure Ranked (E : Endings) (n : Nat) (taken : List (Nat × Completion)) : Prop where
  perm : taken.Perm ((List.range n).filterMap E.completion?)
  ordered : taken.Pairwise Before

variable {E E' : Endings} {n : Nat}

/-- Endings that agree on the first `n` children have the same first failure. -/
theorem FirstFailure.congr {e : RunError} (h : ∀ i < n, E i = E' i)
    (hfirst : E.FirstFailure n e) : E'.FirstFailure n e := by
  obtain ⟨i, hi, place, hending, hfailed, hleast⟩ := hfirst
  refine ⟨i, hi, place, h i hi ▸ hending, hfailed, fun j hj place' e' he' => ?_⟩
  exact hleast j hj place' e' ((h j hj).trans he')

section Known

variable {result : Nat → Outcome} (known : ∀ i < n, ∃ place, E i = some (place, result i))
include known

end Known

/-- What a gathering yields depends on the endings and names of the first `n` children only. -/
theorem Yields.congr {name name' : Nat → String} {finish : Gathered → Outcome} {o : Outcome}
    (h : ∀ i < n, E i = E' i) (hname : ∀ i < n, name i = name' i)
    (hyields : E.Yields n name finish o) : E'.Yields n name' finish o := by
  have hresults : ∀ i < n, E.results i = E'.results i := fun i hi => by
    rw [results, results, h i hi]
  have houtput (i : Nat) (hi : i < n) : E.results.output? i = E'.results.output? i := by
    rw [Results.output?, Results.output?, hresults i hi]
  have hfailure (i : Nat) (hi : i < n) : E.results.failure? i = E'.results.failure? i := by
    rw [Results.failure?, Results.failure?, hresults i hi]
  refine ⟨?_, fun hno => ?_, fun hno hnone => ?_⟩
  · rintro ⟨i, hi, hsome⟩
    rw [← Results.outputs_congr hresults, ← Results.markers_congr hresults hname]
    exact hyields.output ⟨i, hi, by rw [houtput i hi, hsome]⟩
  · rintro ⟨i, hi, hsome⟩
    obtain ⟨e, hfirst, ho⟩ := hyields.failure (fun j hj => (houtput j hj).trans (hno j hj))
      ⟨i, hi, by rw [hfailure i hi, hsome]⟩
    exact ⟨e, hfirst.congr h, by rw [← Results.failed_congr hresults, ho]⟩
  · exact hyields.cancelled (fun j hj => (houtput j hj).trans (hno j hj))
      fun j hj => (hfailure j hj).trans (hnone j hj)

end Endings

/-- How the children with the given tasks have ended. -/
def World.endings (w : World) (child : Nat → TaskId) : Endings :=
  fun i => w.ended? (child i)

/-- Completions taken from all children are a ranking of their endings. -/
theorem World.Completes.ranked {w : World} {n : Nat} {child : Nat → TaskId}
    {taken : List (Nat × Completion)}
    (h : w.Completes ((List.range n).map fun i => ⟨i, child i⟩) taken) :
    (w.endings child).Ranked n taken where
  perm := by
    have heq : ((List.range n).map fun i => (⟨i, child i⟩ : Pending)).filterMap w.completion? =
        (List.range n).filterMap (w.endings child).completion? := by
      rw [List.filterMap_map]
      exact List.filterMap_congr fun i _ => w.completion?_eq ⟨i, child i⟩
    exact heq ▸ h.perm
  ordered := h.ordered

namespace Endings.Ranked

variable {E : Endings} {n : Nat} {taken : List (Nat × Completion)}

/-- A completion is listed exactly if the child has ended so. -/
theorem mem_iff (h : E.Ranked n taken) {place : Nat} {c : Completion} :
    (place, c) ∈ taken ↔ c.index < n ∧ E c.index = some (place, c.outcome) := by
  rw [h.perm.mem_iff, List.mem_filterMap]
  constructor
  · rintro ⟨i, hi, heq⟩
    obtain ⟨e, he, heq⟩ := Option.map_eq_some_iff.mp heq
    cases heq
    exact ⟨List.mem_range.mp hi, he⟩
  · rintro ⟨hi, he⟩
    exact ⟨c.index, List.mem_range.mpr hi, by rw [completion?, he]; rfl⟩

/-- The children that are not listed are those that have not ended. -/
theorem unfinished (h : E.Ranked n taken) : E.unfinished n = n - taken.length := by
  have hlisted : taken.length = (List.range n).countP fun i => (E i).isSome := by
    rw [h.perm.length_eq, List.length_filterMap_eq_countP]
    refine List.countP_congr fun i _ => ?_
    rw [completion?, Option.isSome_map]
  have hsplit : (List.range n).length = _ :=
    List.length_eq_countP_add_countP fun i => (E i).isSome
  have hnone : (List.range n).countP (fun i => decide ¬((E i).isSome = true)) = E.unfinished n := by
    refine List.countP_congr fun i _ => ?_
    cases E i <;> simp
  rw [List.length_range, hnone] at hsplit
  omega

/-- Without a failure among the completions no child has failed. -/
theorem failure?_eq_none (h : E.Ranked n taken)
    (htaken : ∀ x ∈ taken, x.2.outcome.failure? = none) {i : Nat} (hi : i < n) :
    E.results.failure? i = none := by
  unfold Results.failure? results
  cases hending : E i with
  | none => rfl
  | some e =>
    have hmem : (e.1, (⟨i, e.2⟩ : Completion)) ∈ taken := h.mem_iff.mpr ⟨hi, hending⟩
    exact htaken _ hmem

/-- A ranking lists the completions. -/
theorem lists (h : E.Ranked n taken) : E.results.Lists n (taken.map Prod.snd) := by
  have heq : ((List.range n).filterMap E.completion?).map Prod.snd =
      (List.range n).filterMap fun i => (E.results i).map fun o => (⟨i, o⟩ : Completion) := by
    rw [List.map_filterMap]
    refine List.filterMap_congr fun i _ => ?_
    unfold results completion?
    cases E i <;> rfl
  rw [Results.Lists, ← heq]
  exact h.perm.map Prod.snd

/-- The first of the completions of a kind is that of the child that ended so first. -/
theorem leads {before after : List (Nat × Completion)} {place : Nat} {c : Completion}
    (h : E.Ranked n (before ++ (place, c) :: after)) {p : Outcome → Prop} (hc : p c.outcome)
    (hbefore : ∀ x ∈ before, ¬ p x.2.outcome) : E.Leads n p c.index c.outcome := by
  obtain ⟨hindex, hending⟩ := h.mem_iff.mp
    (List.mem_append_right before (List.mem_cons_self : (place, c) ∈ (place, c) :: after))
  refine ⟨hindex, hc, place, hending, fun j hj place' o hended ho => ?_⟩
  have hmem : (place', (⟨j, o⟩ : Completion)) ∈ before ++ (place, c) :: after :=
    h.mem_iff.mpr ⟨hj, hended⟩
  rcases List.mem_append.mp hmem with hin | hin
  · exact absurd ho (hbefore _ hin)
  rcases List.mem_cons.mp hin with heq | hin
  · cases heq
    exact .inr ⟨rfl, Nat.le_refl _⟩
  · have hlt := (List.pairwise_cons.mp (List.pairwise_append.mp h.ordered).2.1).1 _ hin
    unfold Before at hlt
    dsimp only at hlt
    omega

/-- The first of the completions that failed is the first failure. -/
theorem firstFailure {before after : List (Nat × Completion)} {place : Nat} {c : Completion}
    (h : E.Ranked n (before ++ (place, c) :: after)) {e : RunError}
    (hbefore : ∀ x ∈ before, x.2.outcome.failure? = none) (hc : c.outcome.failure? = some e) :
    E.FirstFailure n e := by
  obtain ⟨houtcome, hfailed⟩ := Outcome.failure?_eq_some.mp hc
  obtain ⟨hindex, -, place', hending, hleast⟩ := h.leads (p := fun o => o.failure? ≠ none)
    (by rw [hc]; nofun) fun x hx hne => hne (hbefore x hx)
  rw [houtcome] at hending
  refine ⟨c.index, hindex, place', hending, hfailed, fun j hj place'' e' he' hfailed' => ?_⟩
  have hsome : Outcome.failure? (.error e') ≠ none := by
    rw [Outcome.failure?_eq_some.mpr ⟨rfl, hfailed'⟩]
    nofun
  exact hleast j hj place'' _ he' hsome

end Endings.Ranked

end Orchestra
