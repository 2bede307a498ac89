import Orchestra.Proofs.FanOut.Stopping

/-!
# Why a fan-out stops its children

A fan-out that gathers its children stops them in two cases only: its own context has been stopped, or
the policy is fail-fast and a child has failed.
-/

namespace Orchestra

namespace History

open FanOut

variable {h : History} {task : TaskId} {m n : Nat} {f : FanOut} {ctx : Context} {rules : Rules}
  {tokens : List TokenId}

/-- By a moment a gathering has a reason to stop its children. -/
def HasReason (h : History) (ctx : Context) (rules : Rules) (m : Nat) (pending : List Pending) :
    Prop :=
  (h.world m).isStopped ctx.token = true ∨ rules.policy = .failFast ∧
    ∃ p ∈ pending, ∃ place e, h.ended? m p.id = some (place, .error e) ∧ e ≠ .cancelled

theorem HasReason.later {k : Nat} {pending pending' : List Pending}
    (reason : h.HasReason ctx rules m pending) (hmk : m ≤ k) (hsub : pending ⊆ pending') :
    h.HasReason ctx rules k pending' := by
  have later := h.later_of_le hmk
  refine reason.imp (later.stopped _) (And.imp_right ?_)
  rintro ⟨p, hp, place, e, hended, hfailed⟩
  exact ⟨p, hsub hp, place, e, later.ended _ _ hended, hfailed⟩

/-- A report is no stop. -/
theorem leads_of_reporting {entry : Option LogEntry} {next : Task} {rest : Unit → Task}
    (leads : h.Leads task n (.ask (.stop tokens) rest) m (Task.reporting entry next)) :
    ∃ m₁, m ≤ m₁ ∧ h.Leads task n (.ask (.stop tokens) rest) m₁ next := by
  cases entry with
  | none => exact ⟨m, Nat.le_refl m, leads⟩
  | some e =>
    cases leads with
    | @ask _ k _ _ _ answers leads => exact ⟨k + 1, Nat.le_succ_of_le answers.le, leads⟩

/-- A gathering stops its children only for a reason. -/
theorem reason_of_gatherNext {finish : Gathered → Outcome} {count : Nat} {tally : Tally}
    {rest : Unit → Task} (hsorted : f.Sorted) (hcount : count = f.outstanding)
    (leads : h.Leads task n (.ask (.stop tokens) rest) m
      (gatherNext ctx rules (fun g => .done (finish g)) count f tally)) :
    h.HasReason ctx rules n f.pending := by
  induction count generalizing m f tally with
  | zero =>
    rw [gatherNext, conclude] at leads
    split at leads <;> cases leads
  | succ count ih =>
    cases leads with
    | @ask _ k _ _ a answers leads =>
      have hkn : k ≤ n := Nat.le_of_succ_le leads.le
      cases a with
      | none =>
        obtain ⟨-, hover⟩ := answers.nextChild_none
        have hne : f.pending.isEmpty = false := by
          refine List.isEmpty_eq_false_iff.mpr fun hnil => ?_
          rw [outstanding, hnil] at hcount
          contradiction
        rw [hne, Bool.false_or] at hover
        exact .inl ((h.later_of_le hkn).stopped _ hover)
      | some c =>
        have hfirst := answers.nextChild_some
        have hsub : (f.take c.index).pending ⊆ f.pending := List.filter_subset_self _
        have hone := FanOut.outstanding_take hsorted hfirst
        dsimp only at leads
        split at leads
        · next e herror =>
          obtain ⟨hpolicy, hfailed⟩ := Tally.accept_eq_error herror
          obtain ⟨p, hp, -, place, hended⟩ := World.exists_of_firstCompletion? hfirst
          obtain ⟨houtcome, hcancelled⟩ := Outcome.failure?_eq_some.mp hfailed
          have reason : h.HasReason ctx rules k f.pending := .inr ⟨hpolicy, p, hp, place, e,
            houtcome ▸ hended, RunError.isCancelled_eq_false.mp hcancelled⟩
          exact reason.later hkn (List.Subset.refl _)
        · obtain ⟨m₁, -, leads⟩ := leads_of_reporting leads
          exact (ih (hsorted.take c.index) (by omega) leads).later (Nat.le_refl _) hsub

end History

namespace Map

variable {map : Map} {ctx : Context} {states : List State}

/-- A map stops its elements only if its context has been stopped, or if an element has failed under
fail-fast. -/
theorem reason_of_mapStates {h : History} {task : TaskId} {m n : Nat} {tokens : List TokenId}
    {rest : Unit → Task}
    (leads : h.Leads task n (.ask (.stop tokens) rest) m (map.mapStates ctx states)) :
    h.HasReason ctx (map.rules ctx.config) n
      (h.startedAt (map.firstStart ctx.config m) states.length) := by
  have helements {limit : Option LimitId} {m₀ : Nat}
      (leads : h.Leads task n (.ask (.stop tokens) rest) m₀ (map.elements ctx states limit)) :
      h.HasReason ctx (map.rules ctx.config) n (h.startedAt m₀ states.length) := by
    have leads' := History.of_start (h := h)
      (Q := fun k t _ => h.Leads task n (.ask (.stop tokens) rest) k t)
      (fun leads => by cases leads with | spawn _ _ leads => exact leads) (fun _ => .endless) leads
    have start := h.started_fanOutOf ctx limit m₀ (states.map (map.worker, .one ·))
    have reason := History.reason_of_gatherNext start.sorted rfl leads'
    rwa [start.waits, List.map_map, List.length_map] at reason
  by_cases hne : states = []
  · subst hne
    cases leads
  rw [mapStates_eq hne] at leads
  unfold firstStart
  cases hbound : map.bound ctx.config with
  | none =>
    rw [hbound] at leads
    exact helements leads
  | some permits =>
    rw [hbound, withLimit] at leads
    split at leads
    · cases leads with
      | ask answers leads =>
        obtain ⟨rfl, -⟩ := answers.at_once rfl
        exact helements leads
    · cases leads

end Map

end Orchestra
