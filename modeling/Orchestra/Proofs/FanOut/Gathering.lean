import Orchestra.Proofs.FanOut.Collecting
import Orchestra.Proofs.FanOut.Tally

/-!
# How gathering comes to an end

A gathering ends in one of three ways: all completions were taken, a failure was refused under
fail-fast, or a stop of the context was noticed and the grace period ran its course. In each case it
is known which completions were taken, and that they are those of one moment in the order of the
endings; what follows for the outcome is a matter of the tally alone.
-/

namespace Orchestra.History

open FanOut

variable {h : History} {heeded : TokenId → Prop} {task : TaskId} {m m' : Nat} {es : List Exchange}
  {o : Outcome}
variable {f : FanOut} {ctx : Context} {rules : Rules} {tally : Tally} {next : Gathered → Task}

/-- The three ways in which gathering ends. -/
inductive GatherEnds (h : History) (task : TaskId) (ctx : Context) (rules : Rules) (f : FanOut)
    (tally : Tally) (next : Gathered → Task) (m : Nat) (es : List Exchange) (m' : Nat)
    (o : Outcome) : Prop
  /-- Every child has ended, and no completion was refused. -/
  | finished {e m₁ : Nat} {taken : List (Nat × Completion)} {es₀ es₁ : List Exchange}
      (from_le : m ≤ e) (le : e ≤ m₁) (clock_eq : h.clock m₁ = h.clock e)
      (all : ∀ p ∈ f.pending, (h.ended? e p.id).isSome)
      (completes : (h.world e).Completes f.pending taken)
      (accepted : rules.policy = .failFast → ∀ x ∈ taken, x.2.outcome.failure? = none)
      (split : es = es₀ ++ es₁) (quiet : Quiet es₀)
      (rest : h.Runs task m₁ (conclude (tally.recordAll f.name (taken.map Prod.snd)) next) es₁ m' o)
  /-- A failure was refused. Nothing depends on what would have followed the gathering. -/
  | raised {k place : Nat} {taken : List (Nat × Completion)} {c : Completion} {e : RunError}
      (failFast : rules.policy = .failFast) (from_le : m ≤ k) (le : k ≤ m')
      (accepted : ∀ x ∈ taken, x.2.outcome.failure? = none)
      (failed : c.outcome.failure? = some e)
      (completes : ∀ K, k ≤ K → ∃ rest,
        (h.world K).Completes f.pending (taken ++ (place, c) :: rest))
      (outcome : o = .error e) (quiet : Quiet es)
      (anyNext : ∀ next', h.Runs task m (gatherNext ctx rules next' f.outstanding f tally) es m' o)
  /-- A stop was noticed at moment `s`; nothing is refused from then on. -/
  | stopped {s e m₁ : Nat} {pending : List Pending} {taken : List (Nat × Completion)}
      {es₀ es₁ es₂ : List Exchange}
      (from_le : m ≤ s) (stop_le : s ≤ e) (le : e ≤ m₁) (clock_eq : h.clock m₁ = h.clock e)
      (clock_le : h.clock e ≤ h.clock s + rules.grace.nanos)
      (closed : (∀ p ∈ f.pending, (h.ended? e p.id).isSome) ∨
        h.clock e = h.clock s + rules.grace.nanos)
      (seen : (h.world s).isStopped ctx.token)
      (unended : ∃ p ∈ f.pending, h.ended? s p.id = none)
      (completes : (h.world e).Completes f.pending taken)
      (accepted : rules.policy = .failFast → ∀ p ∈ f.pending, ∀ x,
        (h.world s).completion? p = some x → x.2.outcome.failure? = none)
      (split : es = es₀ ++ ⟨s, .nextChild pending (.untilStopped ctx.token), none⟩ :: es₁ ++ es₂)
      (quiet : Quiet es₀) (quiet' : Quiet es₁)
      (abandoned : f.outstanding ≠ taken.length → ∃ k,
        ⟨k, .log (.abandoned rules.owner (f.outstanding - taken.length)), ()⟩ ∈ es)
      (rest : h.Runs task m₁ (conclude (tally.recordAll f.name (taken.map Prod.snd)) next) es₂ m' o)

/-- Completions taken after a stop are recorded one by one. -/
theorem runs_acceptLate {completions : List Completion} {next : Tally → Task}
    (run : h.Runs task m (acceptLate rules f completions tally next) es m' o) :
    ∃ m₁ es₀ es₁, es = es₀ ++ es₁ ∧ Quiet es₀ ∧ m ≤ m₁ ∧ h.clock m₁ = h.clock m ∧
      h.Runs task m₁ (next (tally.recordAll f.name completions)) es₁ m' o := by
  induction completions generalizing m tally es with
  | nil => exact ⟨m, [], es, rfl, quiet_nil, Nat.le_refl m, rfl, run⟩
  | cons c rest ih =>
    rw [acceptLate, Tally.accept_bestEffort] at run
    obtain ⟨m₁, es₀, es₁, rfl, hquiet, hm, hclock, run, -, -⟩ := runs_reporting run
    obtain ⟨m₂, es₂, es₃, rfl, hquiet', hm', hclock', run⟩ := ih run
    exact ⟨m₂, es₀ ++ es₂, es₃, (List.append_assoc _ _ _).symm, hquiet.append hquiet',
      Nat.le_trans hm hm', hclock'.trans hclock, run⟩

theorem not_stuck_acceptLate {completions : List Completion} {next : Tally → Task}
    (rest : ∀ m₁ tally', m ≤ m₁ → ¬ h.Stuck heeded task m₁ (next tally')) :
    ¬ h.Stuck heeded task m (acceptLate rules f completions tally next) := by
  induction completions generalizing m tally with
  | nil => exact rest m tally (Nat.le_refl m)
  | cons c completions ih =>
    rw [acceptLate]
    exact not_stuck_reporting fun m₁ hm _ =>
      ih fun m₂ tally' hm' => rest m₂ tally' (Nat.le_trans hm hm')

/-- A stopped gathering stops its children, takes what completes within the grace period, and leaves
the others to themselves. -/
theorem runs_gatherStopped (hsorted : f.Sorted)
    (run : h.Runs task m (gatherStopped rules f tally next) es m' o) :
    ∃ e m₁ new es₀ es₁, m ≤ e ∧ e ≤ m₁ ∧ h.clock m₁ = h.clock e ∧
      h.clock e ≤ h.clock m + rules.grace.nanos ∧
      ((∀ p ∈ f.pending, (h.ended? e p.id).isSome) ∨ h.clock e = h.clock m + rules.grace.nanos) ∧
      (h.world e).Completes f.pending new ∧ es = es₀ ++ es₁ ∧ Quiet es₀ ∧
      (f.outstanding ≠ new.length → ∃ k,
        ⟨k, .log (.abandoned rules.owner (f.outstanding - new.length)), ()⟩ ∈ es₀) ∧
      h.Runs task m₁ (conclude (tally.recordAll f.name (new.map Prod.snd)) next) es₁ m' o := by
  obtain ⟨es', rfl, hclock, rest⟩ := runs_stopAll run
  obtain ⟨e, m₁, new, f', es₀, es₁, hnew, hle, -, rfl, hquiet, rest⟩ := runs_collectWithin hsorted rest
  obtain ⟨m₂, es₂, es₃, rfl, hquiet₂, hm₂, hclock₂, rest⟩ := runs_acceptLate rest
  rw [abandon_eq] at rest
  obtain ⟨m₃, es₄, es₅, rfl, hquiet₄, hm₃, hclock₃, rest, hlog, -⟩ := runs_reporting rest
  have hname := name_eq_of_children hnew.children
  have hover := hnew.closed
  rw [hclock] at hle hover
  rw [hname] at rest
  refine ⟨e, m₃, new, ⟨m, .stop f.tokens, ()⟩ :: (es₀ ++ (es₂ ++ es₄)), es₅,
    Nat.le_of_succ_le hnew.from_le, Nat.le_trans hnew.le (Nat.le_trans hm₂ hm₃),
    (hclock₃.trans hclock₂).trans hnew.clock_eq, ?_, ?_, hnew.completes, ?_, ?_, fun hne => ?_, rest⟩
  · exact hle
  · exact hover.imp_right fun hge => Nat.le_antisymm hle (of_decide_eq_true hge)
  · rw [List.cons_append, List.append_assoc, List.append_assoc]
  · exact (hquiet.append (hquiet₂.append hquiet₄)).cons ⟨fun _ => rfl, rfl⟩
  · have hleft := hnew.left
    rw [show f.outstanding - new.length = f'.outstanding by omega]
    refine ⟨m₂, List.mem_cons_of_mem _ (List.mem_append_right _ (List.mem_append_right _ ?_))⟩
    exact hlog _ (if_neg (by omega))

/-- With nobody to wait for, a gathering is over. -/
theorem GatherEnds.nil (hnil : f.pending = []) (run : h.Runs task m (conclude tally next) es m' o) :
    h.GatherEnds task ctx rules f tally next m es m' o := by
  have hnone (P : Pending → Prop) : ∀ p ∈ f.pending, P p := by
    rw [hnil]
    exact List.forall_mem_nil P
  exact .finished (Nat.le_refl m) (Nat.le_refl m) rfl (hnone _) (World.completes_nil (hnone _))
    (fun _ => List.forall_mem_nil _) (List.nil_append es).symm quiet_nil run

/-- A look that finds nobody, although there is somebody to wait for, notices a stop. -/
theorem GatherEnds.of_stop {k : Nat} (hsorted : f.Sorted) (hne : f.pending ≠ [])
    (answers : h.Answers task m (.nextChild f.pending (.untilStopped ctx.token)) k none)
    (run : h.Runs task (k + 1) (gatherStopped rules f tally next) es m' o) :
    h.GatherEnds task ctx rules f tally next m
      (⟨k, .nextChild f.pending (.untilStopped ctx.token), none⟩ :: es) m' o := by
  obtain ⟨hnone, hover⟩ := answers.nextChild_none
  rw [Bool.or_eq_true, List.isEmpty_iff] at hover
  obtain ⟨e, m₁, new, es₀, es₁, hke, hle, hclock, hgrace, hall, hnew, rfl, hquiet, hlog, rest⟩ :=
    runs_gatherStopped hsorted run
  obtain ⟨p, hp⟩ := List.exists_mem_of_ne_nil _ hne
  rw [answers.atOnce] at hgrace hall
  refine .stopped answers.le (Nat.le_of_succ_le hke) hle hclock hgrace hall (hover.resolve_left hne)
    ⟨p, hp, hnone p hp⟩ hnew (fun _ p hp x hx => ?_)
    (show ⟨k, .nextChild f.pending (.untilStopped ctx.token), none⟩ :: (es₀ ++ es₁) =
      [] ++ ⟨k, .nextChild f.pending (.untilStopped ctx.token), none⟩ :: es₀ ++ es₁ from rfl)
    quiet_nil hquiet (fun hlength => ?_) rest
  · rw [World.completion?_eq_none.mpr (hnone p hp)] at hx
    contradiction
  · obtain ⟨k', hk'⟩ := hlog hlength
    exact ⟨k', List.mem_cons_of_mem _ (List.mem_append_left _ hk')⟩

/-- A turn that refuses a completion ends the gathering. -/
theorem GatherEnds.of_refused {k : Nat} {c : Completion} {e : RunError} (hsorted : f.Sorted)
    (answers : h.Answers task m (.nextChild f.pending (.untilStopped ctx.token)) k (some c))
    (haccept : tally.accept rules.policy f.name c = .error e)
    (run : h.Runs task (k + 1) ((f.take c.index).raise rules.owner rules.grace e) es m' o) :
    h.GatherEnds task ctx rules f tally next m
      (⟨k, .nextChild f.pending (.untilStopped ctx.token), some c⟩ :: es) m' o := by
  have hfirst := answers.nextChild_some
  obtain ⟨hpolicy, hfailed⟩ := Tally.accept_eq_error haccept
  obtain ⟨rfl, hquiet⟩ := runs_raise (hsorted.take c.index) run
  obtain ⟨place, hcons⟩ := World.completes_cons hsorted hfirst
  have hcompletes (K : Nat) (hK : k ≤ K) : ∃ rest, (h.world K).Completes f.pending
      ([] ++ (place, c) :: rest) := by
    obtain ⟨rest, hrest⟩ := (h.world K).exists_completes (hsorted.take c.index)
    exact ⟨rest, hcons _ (h.later_of_le hK) rest hrest⟩
  refine .raised hpolicy answers.le (Nat.le_of_succ_le run.le) (List.forall_mem_nil _) hfailed
    hcompletes rfl (hquiet.cons ⟨fun _ => rfl, rfl⟩) (fun next' => ?_)
  rw [FanOut.outstanding_take hsorted hfirst]
  refine .ask answers ?_
  simpa only [show (f.take c.index).name = f.name from rfl, haccept] using run

/-- A turn that takes a completion without refusing it comes before the rest of the gathering. -/
theorem GatherEnds.cons {k m₁ : Nat} {c : Completion} {t : Tally} {es₀ : List Exchange}
    (hsorted : f.Sorted)
    (answers : h.Answers task m (.nextChild f.pending (.untilStopped ctx.token)) k (some c))
    (haccept : tally.accept rules.policy f.name c = .ok t) (hm : k + 1 ≤ m₁) (hquiet : Quiet es₀)
    (hany : ∀ next', h.Runs task m₁ next' es m' o →
      h.Runs task (k + 1) (Task.reporting (Tally.report? rules.policy rules.owner c) next')
        (es₀ ++ es) m' o)
    (rest : h.GatherEnds task ctx rules (f.take c.index) t next m₁ es m' o) :
    h.GatherEnds task ctx rules f tally next m
      (⟨k, .nextChild f.pending (.untilStopped ctx.token), some c⟩ :: (es₀ ++ es)) m' o := by
  obtain ⟨rfl, hpass⟩ := Tally.accept_eq_ok haccept
  have hfirst := answers.nextChild_some
  have hone := FanOut.outstanding_take hsorted hfirst
  obtain ⟨place, hcons⟩ := World.completes_cons hsorted hfirst
  have hfrom := answers.le
  have hquiet' : Quiet (⟨k, .nextChild f.pending (.untilStopped ctx.token), some c⟩ :: es₀) :=
    hquiet.cons ⟨fun _ => rfl, rfl⟩
  cases rest with
  | @finished e m₂ taken es₁ es₂ from_le le clock_eq all completes accepted split quiet rest =>
    subst split
    have hke : k ≤ e := by omega
    exact .finished (Nat.le_trans hfrom hke) le clock_eq (ended_of_take hsorted hfirst hke all)
      (hcons _ (h.later_of_le hke) taken completes)
      (fun hpolicy => List.forall_mem_cons.mpr ⟨hpass hpolicy, accepted hpolicy⟩)
      (by rw [List.append_assoc]; rfl) (hquiet'.append quiet) rest
  | @raised k' place'' taken c' e failFast from_le le accepted failed completes outcome quiet
      anyNext =>
    have hcompletes (K : Nat) (hK : k' ≤ K) : ∃ rest, (h.world K).Completes f.pending
        ((place, c) :: taken ++ (place'', c') :: rest) := by
      obtain ⟨rest, hrest⟩ := completes K hK
      exact ⟨rest, hcons _ (h.later_of_le (by omega)) _ hrest⟩
    refine .raised failFast (by omega) le
      (List.forall_mem_cons.mpr ⟨hpass failFast, accepted⟩) failed hcompletes outcome
      (hquiet'.append quiet) (fun next' => ?_)
    rw [hone]
    refine .ask answers ?_
    dsimp only
    rw [show (f.take c.index).name = f.name from rfl]
    rw [haccept]
    exact hany _ (anyNext next')
  | @stopped s e m₂ pending taken es₁ es₂ es₃ from_le stop_le le clock_eq clock_le closed seen
      unended completes accepted split quiet quiet' abandoned rest =>
    subst split
    obtain ⟨p, hp, hnone⟩ := unended
    have hks : k ≤ s := by omega
    have hke : k ≤ e := Nat.le_trans hks stop_le
    let look (c : Option Completion) : Exchange :=
      ⟨s, .nextChild pending (.untilStopped ctx.token), c⟩
    refine .stopped (Nat.le_trans hfrom hks) stop_le le clock_eq clock_le
      (closed.imp_left (ended_of_take hsorted hfirst hke)) seen
      ⟨p, List.filter_subset_self _ hp, hnone⟩ (hcons _ (h.later_of_le hke) taken completes) ?_
      (show _ :: (es₀ ++ (es₁ ++ look none :: es₂ ++ es₃)) =
        (_ :: es₀ ++ es₁) ++ look none :: es₂ ++ es₃ by
          rw [List.cons_append, List.cons_append, List.cons_append, List.append_assoc,
            List.append_assoc, List.append_assoc])
      (hquiet'.append quiet) quiet' (fun hlength => ?_) rest
    · -- what has been taken is no failure either
      obtain ⟨p, place', hperm, hindex, hended⟩ := FanOut.take_first hsorted hfirst
      intro hpolicy q hq x hx
      rcases List.mem_cons.mp (hperm.mem_iff.mp hq) with rfl | hq
      · have hcq := World.completion?_eq_some.mpr ⟨hindex, (h.later_of_le hks).ended _ _ hended⟩
        cases hcq.symm.trans hx
        exact hpass hpolicy
      · exact accepted hpolicy q hq x hx
    · rw [List.length_cons, hone] at hlength ⊢
      obtain ⟨k', hlog⟩ := abandoned (by omega)
      rw [Nat.add_sub_add_right]
      exact ⟨k', List.mem_cons_of_mem _ (List.mem_append_right _ hlog)⟩

/-- Each turn takes one completion and either accounts for it or refuses it, or it notices a stop. -/
theorem runs_gatherNext {count : Nat} (hsorted : f.Sorted) (hcount : count = f.outstanding)
    (run : h.Runs task m (gatherNext ctx rules next count f tally) es m' o) :
    h.GatherEnds task ctx rules f tally next m es m' o := by
  induction count generalizing m f tally es with
  | zero => exact .nil (List.eq_nil_of_length_eq_zero hcount.symm) run
  | succ count ih =>
    obtain ⟨k, a, es', rfl, answers, rest⟩ := runs_ask_iff.mp run
    cases a with
    | none =>
      refine .of_stop hsorted (fun hnil => ?_) answers rest
      rw [outstanding, hnil] at hcount
      contradiction
    | some c =>
      have hone := FanOut.outstanding_take hsorted answers.nextChild_some
      cases haccept : tally.accept rules.policy f.name c with
      | error e =>
        refine .of_refused hsorted answers haccept ?_
        simpa only [show (f.take c.index).name = f.name from rfl, haccept] using rest
      | ok t =>
        have hrest : h.Runs task (k + 1) (Task.reporting
            (Tally.report? rules.policy rules.owner c)
            (gatherNext ctx rules next count (f.take c.index) t)) es' m' o := by
          simpa only [show (f.take c.index).name = f.name from rfl, haccept] using rest
        obtain ⟨m₁, es₀, es₁, rfl, hquiet, hm, -, hrest, -, hany⟩ := runs_reporting hrest
        exact .cons hsorted answers haccept hm hquiet hany
          (ih (hsorted.take c.index) (by omega) hrest)

/-- What a tally accepts is not refused. -/
theorem not_refuses_of_accept {name : Nat → String} {c : Completion} {t : Tally}
    (haccept : tally.accept rules.policy name c = .ok t) : ¬ rules.policy.Refuses c.outcome := by
  obtain ⟨-, hpass⟩ := Tally.accept_eq_ok haccept
  rintro ⟨hpolicy, e, he, hne⟩
  have hfailed := Outcome.failure?_eq_some.mpr ⟨he, RunError.isCancelled_eq_false.mpr hne⟩
  rw [hpass hpolicy] at hfailed
  contradiction

/-- A gathering that is to close is still to close when a completion has been taken that is not
refused. -/
theorem Closes.take {n k : Nat} {c : Completion} {t : Tally} (hsorted : f.Sorted)
    (closes : h.Closes heeded ctx.token rules.policy.Refuses f.pending n)
    (hfirst : (h.world k).firstCompletion? f.pending = some c)
    (haccept : tally.accept rules.policy f.name c = .ok t) :
    h.Closes heeded ctx.token rules.policy.Refuses (f.take c.index).pending n :=
  closes.left (List.filter_subset_self _)
    (accounted_take hsorted hfirst (List.mem_singleton.mpr rfl))
    (List.forall_mem_singleton.mpr (not_refuses_of_accept haccept))

/-- A gathering that is to close by a moment comes to an end, if time goes on and its grace period is over
at some instant. -/
theorem not_stuck_gatherNext {count n latest : Nat} (hsorted : f.Sorted)
    (hcount : count = f.outstanding) (htime : ∀ instant, ∃ k, instant ≤ h.clock k)
    (closes : h.Closes heeded ctx.token rules.policy.Refuses f.pending n) (hm : h.clock m ≤ latest)
    (hn : h.clock n ≤ latest)
    (graceful : h.Graceful ctx.token rules.grace rules.policy.Refuses f.pending latest)
    (rest : ∀ m₁ gathered, ¬ h.Stuck heeded task m₁ (next gathered)) :
    ¬ h.Stuck heeded task m (gatherNext ctx rules next count f tally) := by
  have hconclude (m₁ : Nat) (t : Tally) : ¬ h.Stuck heeded task m₁ (conclude t next) := by
    unfold conclude
    split
    · exact rest m₁ _
    · intro stuck
      cases stuck
  induction count generalizing m f tally with
  | zero => exact hconclude m tally
  | succ count ih =>
    refine not_stuck_ask closes.served fun k a answers hclock => ?_
    have hle : h.clock k ≤ latest := answers.atOnce ▸ Nat.le_trans hclock (clock_max_le hm hn)
    cases a with
    | none =>
      have hgrace := graceful.of_stop (by rw [outstanding] at hcount; omega) answers hle
      rw [← answers.atOnce] at hgrace
      refine not_stuck_stopAll fun hstop =>
        not_stuck_collectWithin htime (hstop.symm ▸ hgrace) fun m₂ f' _ _ => ?_
      refine not_stuck_acceptLate fun m₃ t _ => ?_
      rw [abandon_eq]
      exact not_stuck_reporting fun m₄ _ _ => hconclude m₄ t
    | some c =>
      have hfirst := answers.nextChild_some
      have hone := FanOut.outstanding_take hsorted hfirst
      dsimp only
      split
      · next e herror =>
        obtain ⟨hpolicy, hfailed⟩ := Tally.accept_eq_error herror
        obtain ⟨p, hp, -, place, hended⟩ := World.exists_of_firstCompletion? hfirst
        obtain ⟨houtcome, hcancelled⟩ := Outcome.failure?_eq_some.mp hfailed
        have hgrace := graceful.decided k hle p hp place c.outcome hended
          ⟨hpolicy, e, houtcome, RunError.isCancelled_eq_false.mp hcancelled⟩
        exact not_stuck_raise htime (answers.atOnce.symm ▸ hgrace)
      · next t haccept =>
        refine not_stuck_reporting fun m₁ _ hclock₁ => ?_
        refine ih (hsorted.take c.index) (by omega) (closes.take hsorted hfirst haccept) ?_
          (graceful.mono (List.filter_subset_self _))
        rwa [hclock₁, answers.atOnce]

/-! ### Gathering children that have just been started -/

/-- How the children that are started from moment `m` on have ended by moment `k`. -/
def endings (h : History) (k m : Nat) : Endings :=
  (h.world k).endings (h.childAt m)

/-- A child that has ended remains so. -/
theorem endings_eq {k k' i : Nat} {e : Nat × Outcome} (hk : h.endings k m i = some e)
    (hk' : (h.endings k' m i).isSome) : h.endings k' m i = some e := by
  obtain ⟨e', he'⟩ := Option.isSome_iff_exists.mp hk'
  rw [he', ended?_unique (h := h) hk he']

/-- What is concluded from a tally is the end of a run that nothing follows. -/
theorem runs_conclude {finish : Gathered → Outcome}
    (run : h.Runs task m (conclude tally fun gathered => .done (finish gathered)) es m' o) :
    es = [] ∧ m' = m ∧ o = match tally.finish with
      | .ok gathered => finish gathered
      | .error e => .error e := by
  unfold conclude at run
  cases hfinish : tally.finish with
  | ok gathered =>
    rw [hfinish] at run
    exact runs_done_iff.mp run
  | error e =>
    rw [hfinish] at run
    exact runs_done_iff.mp run

/-- Gathering from the start: everything is recorded, or the first failure is raised, or a stop is
noticed and everything is recorded that has ended when the grace period is over. -/
inductive GatherAll (h : History) (task : TaskId) (ctx : Context) (rules : Rules) (f : FanOut)
    (n : Nat) (finish : Gathered → Outcome) (m m₀ : Nat) (es : List Exchange) (m' : Nat)
    (o : Outcome) : Prop
  | finished {e : Nat} (from_le : m₀ ≤ e) (le : e ≤ m') (clock_eq : h.clock m' = h.clock e)
      (all : ∀ i < n, (h.endings e m i).isSome)
      (accepted : rules.policy = .failFast → ∀ i < n, (h.endings e m).results.failure? i = none)
      (quiet : Quiet es) (yields : (h.endings e m).Yields n f.name finish o)
  | raised {k : Nat} {e : RunError} (failFast : rules.policy = .failFast) (from_le : m₀ ≤ k)
      (le : k ≤ m') (first : ∀ K, k ≤ K → (h.endings K m).FirstFailure n e)
      (outcome : o = .error e) (quiet : Quiet es)
      (anyFinish : ∀ finish' : Gathered → Outcome,
        h.Runs task m₀ (f.gather ctx rules fun gathered => .done (finish' gathered)) es m' o)
  | stopped {s e : Nat} {pending : List Pending} {es₀ es₁ : List Exchange} (from_le : m₀ ≤ s)
      (stop_le : s ≤ e) (le : e ≤ m') (clock_eq : h.clock m' = h.clock e)
      (clock_le : h.clock e ≤ h.clock s + rules.grace.nanos)
      (closed : (∀ i < n, (h.endings e m i).isSome) ∨ h.clock e = h.clock s + rules.grace.nanos)
      (seen : (h.world s).isStopped ctx.token) (unended : ∃ i < n, h.endings s m i = none)
      (split : es = es₀ ++ ⟨s, .nextChild pending (.untilStopped ctx.token), none⟩ :: es₁)
      (quiet : Quiet es₀) (quiet' : Quiet es₁)
      (abandoned : (h.endings e m).unfinished n ≠ 0 → ∃ k,
        ⟨k, .log (.abandoned rules.owner ((h.endings e m).unfinished n)), ()⟩ ∈ es)
      (yields : (h.endings e m).Yields n f.name finish o)

theorem mem_startedAt {n : Nat} {p : Pending} :
    p ∈ h.startedAt m n ↔ p.index < n ∧ p.id = h.childAt m p.index := by
  unfold startedAt
  rw [List.mem_map]
  constructor
  · rintro ⟨i, hi, rfl⟩
    exact ⟨List.mem_range.mp hi, rfl⟩
  · rintro ⟨hi, hid⟩
    exact ⟨p.index, List.mem_range.mpr hi, by rw [← hid]⟩

/-- All pending children have ended if all children have. -/
theorem all_startedAt {e n : Nat} : (∀ p ∈ h.startedAt m n, (h.ended? e p.id).isSome) ↔
    ∀ i < n, (h.endings e m i).isSome := by
  constructor
  · intro hall i hi
    exact hall ⟨i, h.childAt m i⟩ (mem_startedAt.mpr ⟨hi, rfl⟩)
  · intro hall p hp
    obtain ⟨hi, hid⟩ := mem_startedAt.mp hp
    rw [hid]
    exact hall p.index hi

/-- Where no stop comes as long as one of the children is left, a grace period is only begun by a child
that decides. -/
theorem Graceful.of_awake {token : TokenId} {grace : Duration} {decides : Outcome → Prop} {n latest : Nat}
    (awake : ∀ k, (∃ i < n, h.endings k m i = none) → (h.world k).isStopped token = false)
    (decided : (∃ i < n, ∃ k place o, h.endings k m i = some (place, o) ∧ decides o) →
      latest + grace.nanos < Instant.limit) :
    h.Graceful token grace decides (h.startedAt m n) latest where
  stopped k _ hstopped := by
    rintro ⟨p, hp, hnone⟩
    obtain ⟨hi, hid⟩ := mem_startedAt.mp hp
    rw [hid] at hnone
    rw [awake k ⟨p.index, hi, hnone⟩] at hstopped
    contradiction
  decided k hk p hp place o hended hdecides := by
    obtain ⟨hi, hid⟩ := mem_startedAt.mp hp
    rw [hid] at hended
    exact Nat.lt_of_le_of_lt (Nat.add_le_add_right hk _)
      (decided ⟨p.index, hi, k, place, o, hended, hdecides⟩)

/-- Gathering children that have just been started. -/
theorem runs_gather {names : List String} {finish : Gathered → Outcome} {m₀ : Nat}
    (start : h.Started m names f)
    (run : h.Runs task m₀ (f.gather ctx rules fun gathered => .done (finish gathered)) es m' o) :
    h.GatherAll task ctx rules f names.length finish m m₀ es m' o := by
  have hranked {k : Nat} {taken : List (Nat × Completion)}
      (hcompletes : (h.world k).Completes f.pending taken) :
      (h.endings k m).Ranked names.length taken := by
    rw [start.waits] at hcompletes
    exact hcompletes.ranked
  rw [gather, start.size] at run
  have hends := runs_gatherNext start.sorted rfl run
  cases hends with
  | finished from_le le clock_eq all completes accepted split quiet rest =>
    obtain ⟨rfl, rfl, ho⟩ := runs_conclude rest
    rw [start.waits] at all
    rw [List.append_nil] at split
    subst split
    exact .finished from_le le clock_eq (all_startedAt.mp all)
      (fun hpolicy i hi => (hranked completes).failure?_eq_none (accepted hpolicy) hi) quiet
      (Tally.yields_of_ranked (hranked completes) finish ho)
  | raised failFast from_le le accepted failed completes outcome quiet anyNext =>
    refine .raised failFast from_le le (fun K hK => ?_) outcome quiet (fun finish' => ?_)
    · obtain ⟨rest, hrest⟩ := completes K hK
      exact (hranked hrest).firstFailure accepted failed
    · rw [gather, start.size]
      exact anyNext _
  | stopped from_le stop_le le clock_eq clock_le closed seen unended completes accepted split quiet
      quiet' abandoned rest =>
    have hunfinished := (hranked completes).unfinished
    rw [start.outstanding] at abandoned
    obtain ⟨rfl, rfl, ho⟩ := runs_conclude rest
    rw [start.waits] at closed unended
    rw [List.append_nil] at split
    obtain ⟨p, hp, hnone⟩ := unended
    obtain ⟨hi, hid⟩ := mem_startedAt.mp hp
    refine .stopped from_le stop_le le clock_eq clock_le (closed.imp_left all_startedAt.mp) seen
      ⟨p.index, hi, by rw [hid] at hnone; exact hnone⟩ split quiet quiet' (fun hne => ?_)
      (Tally.yields_of_ranked (hranked completes) finish ho)
    rw [hunfinished] at hne ⊢
    exact abandoned (by omega)

end Orchestra.History
