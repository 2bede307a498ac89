import Orchestra.Proofs.FanOut.Branches
import Orchestra.Proofs.FanOut.Ledger
import Orchestra.Proofs.FanOut.Turns

/-!
# What a race comes to

Without a stop from outside, a race is decided in the first turn that sees an output, or under
fail-fast a failure, and by the child of least position in that turn. A failure is raised. An output
comes first in the result, followed by the outputs of all children that end within the grace period.
If no child decides the race, all of them have ended, and their failures are reported.
-/

namespace Orchestra

/-- Whether an outcome decides a race: an output does, and under fail-fast a failure too. -/
def FailurePolicy.Decides (policy : FailurePolicy) (o : Outcome) : Prop :=
  (∃ d, o = .ok d) ∨ policy.Refuses o

theorem FailurePolicy.not_decides {policy : FailurePolicy} {o : Outcome}
    (houtput : o.output? = none) (hfailed : policy = .failFast → o.failure? = none) :
    ¬ policy.Decides o := by
  rintro (⟨d, rfl⟩ | ⟨hpolicy, e, rfl, hne⟩)
  · contradiction
  · have hsome := Outcome.failure?_eq_some.mpr ⟨rfl, RunError.isCancelled_eq_false.mpr hne⟩
    rw [hfailed hpolicy] at hsome
    contradiction

namespace History

open FanOut

variable {h : History} {task : TaskId} {m m' : Nat} {es : List Exchange} {o : Outcome}
variable {f : FanOut} {ctx : Context} {rules : Rules} {l : RaceLedger}

theorem takeFinished_eq (count : Nat) (f : FanOut) (taken : List Completion)
    (next : FanOut → List Completion → Task) :
    Race.takeFinished count f taken next = takeAll .none count f taken next := by
  induction count generalizing f taken with
  | zero => rfl
  | succ count ih =>
    rw [Race.takeFinished, takeAll]
    congr 1
    funext a
    cases a with
    | none => rfl
    | some c => exact ih (f.take c.index) (taken ++ [c])

/-- No failure that comes before every output is accepted under fail-fast. -/
def Accepted (policy : FailurePolicy) (l : RaceLedger) (completions : List Completion) : Prop :=
  policy = .failFast → l.decisive = none → ∀ before c after, completions = before ++ c :: after →
    (∀ x ∈ before, x.outcome.output? = none) → c.outcome.failure? = none

theorem Accepted.nil {policy : FailurePolicy} : Accepted policy l [] := by
  intro _ _ before c after heq
  simp at heq

/-- Completions are looked at one by one, up to the first that is refused. -/
theorem runs_observeAll {onError : RunError → Task} {completions : List Completion}
    {next : RaceLedger → Task}
    (run : h.Runs task m (Race.observeAll rules f onError completions l next) es m' o) :
    (∃ before c after e m₁ es₀ es₁, completions = before ++ c :: after ∧ es = es₀ ++ es₁ ∧
        Quiet es₀ ∧ m ≤ m₁ ∧ h.clock m₁ = h.clock m ∧ rules.policy = .failFast ∧
        l.decisive = none ∧ (∀ x ∈ before, x.outcome.output? = none ∧ x.outcome.failure? = none) ∧
        c.outcome.failure? = some e ∧ h.Runs task m₁ (onError e) es₁ m' o) ∨
      ∃ m₁ es₀ es₁, es = es₀ ++ es₁ ∧ Quiet es₀ ∧ m ≤ m₁ ∧ h.clock m₁ = h.clock m ∧
        Accepted rules.policy l completions ∧
        h.Runs task m₁ (next (l.recordAll f.name completions)) es₁ m' o := by
  induction completions generalizing m l es with
  | nil =>
    exact .inr ⟨m, [], es, rfl, quiet_nil, Nat.le_refl m, rfl, .nil, run⟩
  | cons c rest ih =>
    rw [Race.observeAll] at run
    cases hobserve : l.observe rules.policy f.name c with
    | error e =>
      rw [hobserve] at run
      obtain ⟨hpolicy, hl, hfailed⟩ := RaceLedger.observe_eq_error hobserve
      exact .inl ⟨[], c, rest, e, m, [], es, rfl, rfl, quiet_nil, Nat.le_refl m, rfl, hpolicy, hl,
        fun x hx => absurd hx List.not_mem_nil, hfailed, run⟩
    | ok l' =>
      rw [hobserve] at run
      obtain ⟨rfl, hpass⟩ := RaceLedger.observe_eq_ok hobserve
      obtain ⟨m₁, es₀, es₁, rfl, hquiet, hm, hclock, run, -, -⟩ := runs_reporting run
      rcases ih run with ⟨before, c', after, e, m₂, es₂, es₃, rfl, rfl, hquiet', hm', hclock',
          hpolicy, hl, hbefore, hfailed, run⟩ | ⟨m₂, es₂, es₃, rfl, hquiet', hm', hclock', haccepted, run⟩
      · -- nothing was decided before the completion refused, so this one is no output either
        have hc : c.outcome.output? = none ∧ l.decisive = none := by
          rw [RaceLedger.record] at hl
          dsimp only at hl
          cases hd : l.decisive with
          | none => rw [hd] at hl; exact ⟨hl, rfl⟩
          | some d => rw [hd] at hl; contradiction
        refine .inl ⟨c :: before, c', after, e, m₂, es₀ ++ es₂, es₃, rfl,
          (List.append_assoc _ _ _).symm, hquiet.append hquiet', Nat.le_trans hm hm',
          hclock'.trans hclock, hpolicy, hc.2,
          List.forall_mem_cons.mpr ⟨⟨hc.1, hpass hpolicy hc.2⟩, hbefore⟩, hfailed, run⟩
      · refine .inr ⟨m₂, es₀ ++ es₂, es₃, (List.append_assoc _ _ _).symm, hquiet.append hquiet',
          Nat.le_trans hm hm', hclock'.trans hclock, ?_, run⟩
        intro hpolicy hl before c' after heq hbefore
        cases before with
        | nil =>
          cases heq
          exact hpass hpolicy hl
        | cons x before =>
          cases heq
          obtain ⟨hx, hbefore⟩ := List.forall_mem_cons.mp hbefore
          refine haccepted hpolicy ?_ before c' after rfl hbefore
          rw [RaceLedger.record, hl, hx]
          rfl

/-- Under fail-fast there is no failure as long as nothing is decided. -/
theorem Accepted.not_failed {policy : FailurePolicy} {completions : List Completion}
    (haccepted : Accepted policy l completions) (hpolicy : policy = .failFast)
    (hl : l.decisive = none) (houtput : ∀ c ∈ completions, c.outcome.output? = none) :
    ∀ c ∈ completions, c.outcome.failure? = none := by
  intro c hc
  obtain ⟨before, after, rfl⟩ := List.append_of_mem hc
  exact haccepted hpolicy hl before c after rfl fun x hx =>
    houtput x (List.mem_append_left _ hx)

/-- As long as nothing is decided, no completion decides. -/
theorem Accepted.not_decides {policy : FailurePolicy} {completions : List Completion}
    (haccepted : Accepted policy l completions) (hl : l.decisive = none)
    (houtput : ∀ c ∈ completions, c.outcome.output? = none) :
    ∀ c ∈ completions, ¬ policy.Decides c.outcome := fun c hc =>
  FailurePolicy.not_decides (houtput c hc) fun hpolicy => haccepted.not_failed hpolicy hl houtput c hc

theorem Accepted.of_append {policy : FailurePolicy} {completions completions' : List Completion}
    (haccepted : Accepted policy l (completions ++ completions')) :
    Accepted policy l completions := by
  intro hpolicy hl before c after heq hbefore
  refine haccepted hpolicy hl before c (after ++ completions') ?_ hbefore
  rw [heq, List.append_assoc]
  rfl

theorem Accepted.append {policy : FailurePolicy} {name : Nat → String}
    {completions completions' : List Completion} (haccepted : Accepted policy l completions)
    (haccepted' : Accepted policy (l.recordAll name completions) completions') :
    Accepted policy l (completions ++ completions') := by
  intro hpolicy hl before c after heq hbefore
  rcases Turns.append_eq_append_cons heq with ⟨after', rfl⟩ | ⟨before', rfl, rfl⟩
  · exact haccepted hpolicy hl before c after' rfl hbefore
  · obtain ⟨hfirst, hrest⟩ := List.forall_mem_append.mp hbefore
    refine haccepted' hpolicy ?_ before' c after rfl hrest
    rw [(RaceLedger.recordAll_of_no_output hfirst).1, hl]

/-- No time passes between the ending of a child and the answer to whoever waits for it. -/
theorem Answers.prompt {pending : List Pending} {patience : Patience} {k : Nat}
    {a : Option Completion} (answers : h.Answers task m (.nextChild pending patience) k a)
    (fresh : ∀ q ∈ pending, ∀ j, (h.ended? j q.id).isSome → h.clock m ≤ h.clock j) :
    ∀ q ∈ pending, ∀ j, (h.ended? j q.id).isSome → h.clock (k + 1) ≤ h.clock j := by
  intro q hq j hended
  have hle := answers.clock_le_of_ended hq hended
  rwa [Nat.max_eq_right (fresh q hq j hended)] at hle

/-- The race so far: the turns that are over, and what they have left. -/
structure Decided (h : History) (rules : Rules) (f : FanOut) (l : RaceLedger) (t₀ : Nat)
    (es : List Exchange) (cs : List Completion) (t : Nat) (f' : FanOut) : Prop where
  turns : h.Turns t₀ f es cs t f'
  sorted : f'.Sorted
  children : f'.children = f.children
  accepted : Accepted rules.policy l cs
  /-- A child with an output ends in the instant of the last turn or later. -/
  prompt : ∀ q ∈ f.pending, ∀ k place d, h.ended? k q.id = some (place, .ok d) →
    h.clock t ≤ h.clock k
  /-- Something is decided, or nobody is left. -/
  closed : (l.recordAll f.name cs).decisive.isSome ∨ f'.pending = []

namespace Decided

variable {t₀ t t' : Nat} {f₁ f' : FanOut} {es' : List Exchange} {cs : List Completion}
variable {new : List (Nat × Completion)}

/-- Without children there is no turn. -/
theorem nil (hsorted : f.Sorted) (hnil : f.pending = []) : h.Decided rules f l t₀ [] [] t₀ f where
  turns := .nil (hnil ▸ List.forall_mem_nil _)
  sorted := hsorted
  children := rfl
  accepted := .nil
  prompt := hnil ▸ List.forall_mem_nil _
  closed := .inr hnil

/-- A turn that does not decide the race comes before those that follow it. -/
theorem cons (turn : h.Turn t₀ f es new t f₁) (hchildren : f₁.children = f.children)
    (haccepted : Accepted rules.policy l (Race.ranked (new.map Prod.snd)))
    (hl : (l.recordAll f.name (Race.ranked (new.map Prod.snd))).decisive = none)
    (rest : h.Decided rules f₁ (l.recordAll f.name (Race.ranked (new.map Prod.snd))) t es' cs t' f') :
    h.Decided rules f l t₀ (es ++ es') (Race.ranked (new.map Prod.snd) ++ cs) t' f' where
  turns := turn.cons rest.turns
  sorted := rest.sorted
  children := rest.children.trans hchildren
  accepted := haccepted.append rest.accepted
  prompt q hq k place d hended := by
    -- no child of this turn had an output
    have hnone (c : Completion) (hc : c ∈ Race.ranked (new.map Prod.snd)) :
        ¬ ∃ d, c.outcome = .ok d := by
      rintro ⟨d, hd⟩
      have houtput := (RaceLedger.no_output_of_recordAll hl).2 c hc
      rw [hd] at houtput
      contradiction
    have hleft := turn.pending_of_holds (p := fun o => ∃ d, o = .ok d) hnone hq hended ⟨d, rfl⟩
    exact rest.prompt q hleft k place d hended
  closed := by
    have hclosed := rest.closed
    rw [name_eq_of_children hchildren] at hclosed
    rw [RaceLedger.recordAll_append]
    exact hclosed

end Decided

/-- A race that has refused a failure: it fails with the first completion that is one, after completions
that are neither outputs nor failures. -/
inductive Refused (h : History) (rules : Rules) (f : FanOut) (t₀ : Nat) (es : List Exchange) (m' : Nat)
    (o : Outcome) : Prop
  | intro (es₀ es₁ : List Exchange) (before : List Completion) (c : Completion)
    (after : List Completion) (t : Nat) (f' : FanOut) (e : RunError) (split : es = es₀ ++ es₁)
    (quiet : ∀ x ∈ es₁, x.endsTurn = false) (turns : h.Turns t₀ f es₀ (before ++ c :: after) t f')
    (le : t ≤ m') (failFast : rules.policy = .failFast)
    (earlier : ∀ x ∈ before, x.outcome.output? = none ∧ x.outcome.failure? = none)
    (failed : c.outcome.failure? = some e) (outcome : o = .error e)

/-- A turn without outputs and failures comes before the turns that lead to a refusal. -/
theorem Refused.cons {t₀ t : Nat} {f₁ : FanOut} {es' : List Exchange} {new : List (Nat × Completion)}
    (turn : h.Turn t₀ f es new t f₁)
    (hbatch : ∀ x ∈ Race.ranked (new.map Prod.snd), x.outcome.output? = none ∧
      (rules.policy = .failFast → x.outcome.failure? = none))
    (refused : h.Refused rules f₁ t es' m' o) : h.Refused rules f t₀ (es ++ es') m' o := by
  obtain ⟨es₀, es₁, before, c, after, t', f', e, rfl, quiet, turns, le, failFast, earlier, failed,
    outcome⟩ := refused
  have hbatch' : ∀ x ∈ Race.ranked (new.map Prod.snd),
      x.outcome.output? = none ∧ x.outcome.failure? = none := fun x hx =>
    (hbatch x hx).imp_right fun hfailed => hfailed failFast
  exact ⟨es ++ es₀, es₁, Race.ranked (new.map Prod.snd) ++ before, c, after, t', f', e,
    (List.append_assoc _ _ _).symm, quiet, (List.append_assoc _ before _) ▸ turn.cons turns, le,
    failFast, List.forall_mem_append.mpr ⟨hbatch', earlier⟩, failed, outcome⟩

/-- A race that has somebody left stops them and takes what completes within the grace period, up to
the first failure that it refuses. -/
theorem runs_settle_left {fanIn : FanIn} (hsorted : f.Sorted) (hleft : f.outstanding ≠ 0)
    (run : h.Runs task m (Race.settle rules (fun l => .done (l.finish fanIn)) f l) es m' o) :
    ∃ e new, m ≤ e ∧ e ≤ m' ∧ h.clock m' = h.clock e ∧ h.clock e ≤ h.clock m + rules.grace.nanos ∧
      ((∀ q ∈ f.pending, (h.ended? e q.id).isSome) ∨ h.clock e = h.clock m + rules.grace.nanos) ∧
      (h.world e).Completes f.pending new ∧ Quiet es ∧
      ((∃ before c after err, new.map Prod.snd = before ++ c :: after ∧ rules.policy = .failFast ∧
          l.decisive = none ∧
          (∀ x ∈ before, x.outcome.output? = none ∧ x.outcome.failure? = none) ∧
          c.outcome.failure? = some err ∧ o = .error err) ∨
        Accepted rules.policy l (new.map Prod.snd) ∧
          o = (l.recordAll f.name (new.map Prod.snd)).finish fanIn) := by
  unfold Race.settle at run
  rw [if_neg hleft] at run
  obtain ⟨es', rfl, hclock, rest⟩ := runs_stopAll run
  obtain ⟨e, m₁, new, f', es₀, es₁, hnew, hle, -, rfl, hquiet, rest⟩ := runs_collectWithin hsorted rest
  have hme : m ≤ e := Nat.le_of_succ_le hnew.from_le
  have hstop : ∀ es, Quiet es → Quiet (⟨m, .stop f.tokens, ()⟩ :: es) :=
    fun _ hes => hes.cons ⟨fun _ => rfl, rfl⟩
  have hover : (∀ q ∈ f.pending, (h.ended? e q.id).isSome) ∨
      h.clock e = h.clock m + rules.grace.nanos := by
    rw [hclock] at hle
    refine hnew.closed.imp_right fun hge => Nat.le_antisymm hle ?_
    rw [hclock] at hge
    exact of_decide_eq_true hge
  rw [hclock] at hle
  rcases runs_observeAll rest with
    ⟨before, c, after, err, m₂, es₂, es₃, hcs, rfl, hquiet₂, hm₂, hclock₂, hpolicy, hl, hbefore,
      hfailed, rest⟩ | ⟨m₂, es₂, es₃, rfl, hquiet₂, hm₂, hclock₂, haccepted, rest⟩
  · -- a failure is refused
    obtain ⟨rfl, hquiet₃, hm₃, hclock₃⟩ := runs_abandon_done rest
    exact ⟨e, new, hme, Nat.le_trans hnew.le (Nat.le_trans hm₂ hm₃),
      (hclock₃.trans hclock₂).trans hnew.clock_eq, hle, hover, hnew.completes,
      hstop _ (hquiet.append (hquiet₂.append hquiet₃)),
      .inl ⟨before, c, after, err, hcs, hpolicy, hl, hbefore, hfailed, rfl⟩⟩
  · obtain ⟨ho, hquiet₃, hm₃, hclock₃⟩ := runs_abandon_done rest
    rw [name_eq_of_children hnew.children] at ho
    exact ⟨e, new, hme, Nat.le_trans hnew.le (Nat.le_trans hm₂ hm₃),
      (hclock₃.trans hclock₂).trans hnew.clock_eq, hle, hover, hnew.completes,
      hstop _ (hquiet.append (hquiet₂.append hquiet₃)), .inr ⟨haccepted, ho⟩⟩

variable {heeded : TokenId → Prop}

theorem not_stuck_observeAll {onError : RunError → Task} {completions : List Completion}
    {next : RaceLedger → Task}
    (refused : ∀ m₁ e c, c ∈ completions → rules.policy.Decides c.outcome → h.clock m₁ = h.clock m →
      ¬ h.Stuck heeded task m₁ (onError e))
    (rest : ∀ m₁, h.clock m₁ = h.clock m → Accepted rules.policy l completions →
      ¬ h.Stuck heeded task m₁ (next (l.recordAll f.name completions))) :
    ¬ h.Stuck heeded task m (Race.observeAll rules f onError completions l next) := by
  induction completions generalizing m l with
  | nil => exact rest m rfl .nil
  | cons c completions ih =>
    rw [Race.observeAll]
    cases hobserve : l.observe rules.policy f.name c with
    | error e =>
      obtain ⟨hpolicy, -, hfailed⟩ := RaceLedger.observe_eq_error hobserve
      obtain ⟨hc, hcancelled⟩ := Outcome.failure?_eq_some.mp hfailed
      exact refused m e c List.mem_cons_self
        (.inr ⟨hpolicy, e, hc, RunError.isCancelled_eq_false.mp hcancelled⟩) rfl
    | ok l' =>
      obtain ⟨rfl, hpass⟩ := RaceLedger.observe_eq_ok hobserve
      have hone : Accepted rules.policy l [c] := by
        intro hpolicy hl before c' after heq hbefore
        rcases List.cons_eq_append_iff.mp heq with ⟨rfl, hrest⟩ | ⟨before', rfl, hrest⟩
        · cases hrest
          exact hpass hpolicy hl
        · simp at hrest
      refine not_stuck_reporting fun m₁ _ hclock => ih
        (fun m₂ e x hx hdecides hclock' =>
          refused m₂ e x (List.mem_cons_of_mem c hx) hdecides (hclock'.trans hclock))
        fun m₂ hclock' haccepted => rest m₂ (hclock'.trans hclock) ?_
      exact hone.append (show Accepted rules.policy (l.recordAll f.name [c]) completions from haccepted)

/-- A race that is to close by a moment comes to a decision, if time goes on and its grace period is over
at some instant. -/
theorem not_stuck_decide {count n latest : Nat} {next : FanOut → RaceLedger → Task}
    (hsorted : f.Sorted) (hcount : f.outstanding ≤ count) (hl : l.decisive = none)
    (htime : ∀ instant, ∃ k, instant ≤ h.clock k)
    (closes : h.Closes heeded ctx.token rules.policy.Decides f.pending n) (hm : h.clock m ≤ latest)
    (hn : h.clock n ≤ latest)
    (graceful : h.Graceful ctx.token rules.grace rules.policy.Decides f.pending latest)
    (rest : ∀ m₁ f' l', f'.pending ⊆ f.pending →
      (f'.outstanding ≠ 0 → h.clock m₁ + rules.grace.nanos < Instant.limit) →
        ¬ h.Stuck heeded task m₁ (next f' l')) :
    ¬ h.Stuck heeded task m (Race.decide ctx rules next count f l) := by
  induction count generalizing m f l with
  | zero => exact rest m f l (List.Subset.refl _) fun hne => absurd (Nat.le_zero.mp hcount) hne
  | succ count ih =>
    refine not_stuck_ask closes.served fun k a answers hclock => ?_
    have hle : h.clock k ≤ latest := answers.atOnce ▸ Nat.le_trans hclock (clock_max_le hm hn)
    cases a with
    | none =>
      refine rest (k + 1) f l (List.Subset.refl _) fun hne => ?_
      rw [answers.atOnce]
      exact graceful.of_stop (Nat.pos_of_ne_zero hne) answers hle
    | some c =>
      have hfirst := answers.nextChild_some
      have hsub : (f.take c.index).pending ⊆ f.pending := List.filter_subset_self _
      have hone := FanOut.outstanding_take hsorted hfirst
      dsimp only
      rw [takeFinished_eq]
      refine not_stuck_takeAll (n := k + 1) (fun pending _ => served_none pending _)
        fun m₁ f' batch hm₁ hclock₁ takes => ?_
      have hcount' : f'.outstanding ≤ count := by
        have hlength : f'.outstanding ≤ (f.take c.index).outstanding := takes.sublist.length_le
        omega
      have takes : h.Takes f [] m₁ f' batch := takes.cons hfirst (Nat.le_of_succ_le hm₁)
      rw [Nat.max_self, answers.atOnce] at hclock₁
      have hle₁ : h.clock m₁ ≤ latest := Nat.le_trans hclock₁ hle
      -- a completion that decides is that of a pending child
      have hgrace (m₂ : Nat) (hclock₂ : h.clock m₂ = h.clock m₁) {x : Completion} (hx : x ∈ batch)
          (hdecides : rules.policy.Decides x.outcome) :
          h.clock m₂ + rules.grace.nanos < Instant.limit := by
        obtain ⟨p, hp, place, hended⟩ := (takes.ended x hx).resolve_left List.not_mem_nil
        exact hclock₂ ▸ graceful.decided m₁ hle₁ p hp place x.outcome hended hdecides
      refine not_stuck_observeAll (fun m₂ e x hx hdecides hclock₂ =>
        not_stuck_raise htime (hgrace m₂ hclock₂ (List.mem_mergeSort.mp hx) hdecides))
        fun m₂ hclock₂ haccepted => ?_
      split
      · next hdecided =>
        refine rest m₂ f' _ takes.sublist.subset fun _ => ?_
        obtain ⟨x, hx, hd⟩ := RaceLedger.exists_output_of_recordAll hl hdecided
        exact hgrace m₂ hclock₂ (List.mem_mergeSort.mp hx) (.inl hd)
      · next hundecided =>
        have hl' := Option.not_isSome_iff_eq_none.mp hundecided
        have houtput := (RaceLedger.no_output_of_recordAll hl').2
        refine ih (takes.sorted hsorted) hcount' hl' ?_ (hclock₂ ▸ hle₁)
          (graceful.mono takes.sublist.subset) fun m₃ f₂ l₂ hf₂ => rest m₃ f₂ l₂
            (List.Subset.trans hf₂ takes.sublist.subset)
        exact closes.left takes.sublist.subset (takes.accounted hsorted) fun x hx =>
          haccepted.not_decides hl houtput x (List.mem_mergeSort.mpr hx)

theorem not_stuck_settle {next : RaceLedger → Task} (htime : ∀ instant, ∃ k, instant ≤ h.clock k)
    (hgrace : f.outstanding ≠ 0 → h.clock m + rules.grace.nanos < Instant.limit)
    (rest : ∀ m₁ l', ¬ h.Stuck heeded task m₁ (next l')) :
    ¬ h.Stuck heeded task m (Race.settle rules next f l) := by
  unfold Race.settle
  split
  · exact rest m l
  · next hleft =>
    refine not_stuck_stopAll fun hclock =>
      not_stuck_collectWithin htime (hclock.symm ▸ hgrace hleft) fun m₂ f' taken _ => ?_
    refine not_stuck_observeAll (fun m₃ e _ _ _ _ => not_stuck_abandon) fun m₃ _ _ => ?_
    rw [abandon_eq]
    exact not_stuck_reporting fun m₄ _ _ => rest m₄ _

end History

/-- A list has a first element of a kind, or none. -/
theorem exists_first {α : Type} (p : α → Bool) (l : List α) :
    (∃ before a after, l = before ++ a :: after ∧ p a = true ∧ ∀ x ∈ before, p x = false) ∨
      ∀ x ∈ l, p x = false := by
  cases hfind : l.find? p with
  | none =>
    refine .inr fun x hx => ?_
    exact Bool.not_eq_true _ ▸ List.find?_eq_none.mp hfind x hx
  | some a =>
    obtain ⟨ha, before, after, rfl, hbefore⟩ := List.find?_eq_some_iff_append.mp hfind
    exact .inl ⟨before, a, after, rfl, ha, fun x hx => by simpa using hbefore x hx⟩

namespace Race

variable {r : Race} {ctx : Context} {input : Data} {inputs : List Data}

/-- With accepted inputs a race starts its children and waits for a decision. -/
theorem next_eq (hne : r.children ≠ [])
    (hin : FanOut.distribute "RacingBranches" r.children.length true input = .ok inputs) :
    r.next ctx input = FanOut.start ctx none (r.children.zip inputs) fun f =>
      decide ctx (r.rules ctx.config)
        (settle (r.rules ctx.config) fun l => .done (l.finish r.fanIn)) f.outstanding f .empty := by
  unfold next
  rw [if_neg (by rwa [List.isEmpty_iff])]
  rw [show (r.rules ctx.config).owner = "RacingBranches" from rfl, hin]

/-- A race that is to close by a moment comes to an end. -/
theorem not_stuck_next {h : History} {heeded : TokenId → Prop} {task : TaskId} {m n latest : Nat}
    (hne : r.children ≠ [])
    (hin : FanOut.distribute "RacingBranches" r.children.length true input = .ok inputs)
    (htime : ∀ instant, ∃ k, instant ≤ h.clock k)
    (closes : h.Closes heeded ctx.token (r.rules ctx.config).policy.Decides
      (h.startedAt m r.children.length) n)
    (hm : h.clock m ≤ latest) (hn : h.clock n ≤ latest)
    (graceful : h.Graceful ctx.token (r.rules ctx.config).grace (r.rules ctx.config).policy.Decides
      (h.startedAt m r.children.length) latest) :
    ¬ h.Stuck heeded task m (r.next ctx input) := by
  rw [next_eq hne hin]
  refine History.not_stuck_start fun f start hclock => ?_
  rw [FanOut.names_zip r.children (FanOut.length_distribute hin)] at start
  have hwaits := start.waits
  rw [List.length_map] at hwaits
  rw [← hwaits] at closes graceful
  exact History.not_stuck_decide start.sorted (Nat.le_refl _) rfl htime closes (hclock ▸ hm) hn graceful
    fun m₁ f' l' _ hgrace => History.not_stuck_settle htime hgrace fun m₂ l₂ stuck => by cases stuck

/-- Whoever ends before a wait for all children is over has ended when it is. -/
theorem counted_of_closed {h : History} {n m e due j k : Nat}
    (closed : (∀ j < n, (h.endings e m j).isSome) ∨ h.clock e = due) (hj : j < n)
    (hk : h.clock k < due) (hended : (h.endings k m j).isSome) : (h.endings e m j).isSome := by
  rcases closed with hall | rfl
  · exact hall j hj
  · exact History.isSome_ended?_of_clock_lt hk hended

/-- The decision of a race: the child that decides it, and what the other children contribute until
moment `e`, at most one grace period later. -/
structure Decision (h : History) (r : Race) (config : Config) (m t e i : Nat) (d : Data) (m' : Nat)
    (o : Outcome) : Prop where
  from_le : t ≤ e
  le : e ≤ m'
  clock_eq : h.clock m' = h.clock e
  clock_le : h.clock e ≤ h.clock t + (r.rules config).grace.nanos
  closed : (∀ j < r.children.length, (h.endings e m j).isSome) ∨
    h.clock e = h.clock t + (r.rules config).grace.nanos
  /-- Whoever ends before the grace period is over counts. -/
  counted : ∀ j < r.children.length, ∀ k, h.clock k < h.clock t + (r.rules config).grace.nanos →
    (h.endings k m j).isSome → (h.endings e m j).isSome
  /-- The decisive states come first, then those of the others in declared order. -/
  outcome : o = r.fanIn.apply
    (d.states ++ ((h.endings e m).results.others i).states r.children.length)
    ((h.endings e m).results.markers r.children.length (Runnable.nameAt r.children))

/-- How a race ends that is not stopped. The child that is seen first to decide it does decide it: its
failure is raised, or its output leads. If no child decides, all have ended, and the race fails. -/
inductive Ends (h : History) (r : Race) (config : Config) (m : Nat) (es : List Exchange) (m' : Nat)
    (o : Outcome) : Prop
  | raised {t i : Nat} {e : RunError}
      (first : h.SeenFirst es (h.startedAt m r.children.length) (r.rules config).policy.Decides t i
        (.error e))
      (outcome : o = .error e)
  | decided {t i e : Nat} {d : Data}
      (first : h.SeenFirst es (h.startedAt m r.children.length) (r.rules config).policy.Decides t i
        (.ok d))
      (decision : Decision h r config m t e i d m' o)
  | failed {e t i : Nat} {first : RunError} (le : e ≤ m')
      (undecided : ∀ j < r.children.length, ∃ place o', h.endings e m j = some (place, o') ∧
        ¬ (r.rules config).policy.Decides o')
      (seen : h.SeenFirst es (h.startedAt m r.children.length)
        (fun o' => ∃ e, o' = .error e ∧ e ≠ .cancelled) t i (.error first))
      (outcome : o = .error (.allFailed ((h.endings e m).results.failed r.children.length) first))
  | cancelled {e : Nat} (le : e ≤ m')
      (all : ∀ j < r.children.length, (h.endings e m).results j = some (.error .cancelled))
      (outcome : o = .error .cancelled)

/-- A race whose turns are over: they have brought `cs` by moment `t`, and the grace period has brought
`late` by moment `e`. -/
structure Concluded (h : History) (r : Race) (config : Config) (m : Nat) (f : FanOut)
    (es : List Exchange) (cs : List Completion) (t : Nat) (f' : FanOut) (e : Nat)
    (late : List (Nat × Completion)) (m' : Nat) (o : Outcome) : Prop where
  decided : h.Decided (r.rules config) f .empty m es cs t f'
  sorted : f.Sorted
  waits : f.pending = h.startedAt m r.children.length
  name : ∀ i < r.children.length, f.name i = Runnable.nameAt r.children i
  from_le : t ≤ e
  le : e ≤ m'
  clock_eq : h.clock m' = h.clock e
  clock_le : h.clock e ≤ h.clock t + (r.rules config).grace.nanos
  closed : (∀ q ∈ f'.pending, (h.ended? e q.id).isSome) ∨
    h.clock e = h.clock t + (r.rules config).grace.nanos
  completes : (h.world e).Completes f'.pending late
  outcome : o = (RaceLedger.recordAll f.name .empty (cs ++ late.map Prod.snd)).finish r.fanIn

namespace Concluded

variable {h : History} {config : Config} {f f' : FanOut} {es quiet : List Exchange}
variable {cs before after : List Completion} {c : Completion} {late : List (Nat × Completion)}
variable {m t e m' : Nat} {o : Outcome}

/-- The turns and the grace period list the children that have ended. -/
theorem lists (concluded : Concluded h r config m f es cs t f' e late m' o) :
    (h.endings e m).results.Lists r.children.length (cs ++ late.map Prod.snd) :=
  concluded.decided.turns.lists_append concluded.sorted concluded.decided.sorted concluded.waits
    concluded.from_le concluded.completes

/-- If those have ended that the turns have left, then all have. -/
theorem all_ended (concluded : Concluded h r config m f es cs t f' e late m' o)
    (hended : ∀ q ∈ f'.pending, (h.ended? e q.id).isSome) :
    ∀ j < r.children.length, (h.endings e m j).isSome := by
  intro j hj
  have hq : (⟨j, h.childAt m j⟩ : Pending) ∈ f.pending :=
    concluded.waits ▸ History.mem_startedAt.mpr ⟨hj, rfl⟩
  cases hold : h.ended? t (h.childAt m j) with
  | none => exact hended _ ((concluded.decided.turns.mem_pending _).mpr ⟨hq, hold⟩)
  | some x => exact History.isSome_ended? concluded.from_le (by rw [hold]; rfl)

/-- The first output leads. -/
theorem ends_of_output (concluded : Concluded h r config m f es cs t f' e late m' o)
    (hquiet : ∀ x ∈ quiet, x.endsTurn = false) (hcs : cs = before ++ c :: after) {d : Data}
    (hd : c.outcome = .ok d) (hbefore : ∀ x ∈ before, x.outcome.output? = none) :
    Ends h r config m (es ++ quiet) m' o := by
  subst hcs
  have hdecided := concluded.decided
  have hnot : ∀ x ∈ before, ¬ (r.rules config).policy.Decides x.outcome :=
    hdecided.accepted.of_append.not_decides rfl hbefore
  obtain ⟨t₁, -, ht₁, hfirst⟩ := hdecided.turns.seenFirst rfl (.inl ⟨d, hd⟩) hnot
  -- the turn of the first output is the last one
  have hinstant : h.clock t₁ = h.clock t := by
    obtain ⟨q, hq, -, place, hended⟩ := hfirst.ended
    rw [hd] at hended
    exact Nat.le_antisymm (h.clock_mono ht₁) (hdecided.prompt q hq t₁ place d hended)
  have hgrace := concluded.clock_le
  have hclosed := concluded.closed.imp_left concluded.all_ended
  rw [← hinstant] at hgrace hclosed
  rw [concluded.waits, hd] at hfirst
  refine .decided (hfirst.append hquiet) ⟨Nat.le_trans ht₁ concluded.from_le, concluded.le,
    concluded.clock_eq, hgrace, hclosed, ?_, ?_⟩
  · exact fun j hj k hk hended => counted_of_closed hclosed hj hk hended
  · have hlists := concluded.lists
    have ho := concluded.outcome
    rw [List.append_assoc] at hlists ho
    rw [ho]
    refine (RaceLedger.finish_of_output r.fanIn hlists hbefore hd).trans ?_
    rw [Results.markers_congr (fun _ _ => rfl) concluded.name]

section Undecided

variable (concluded : Concluded h r config m f es cs t f' e late m' o)
variable (houtput : ∀ x ∈ cs, x.outcome.output? = none)
include concluded houtput

/-- Without an output the turns go on until all have ended, so the grace period brings nothing. -/
theorem pending_eq_nil : f'.pending = [] := by
  refine concluded.decided.closed.resolve_left fun hsome => ?_
  rw [(RaceLedger.recordAll_of_no_output houtput).1] at hsome
  contradiction

theorem late_eq_nil : late = [] := by
  have hperm := concluded.completes.perm
  rw [concluded.pending_eq_nil houtput] at hperm
  exact List.perm_nil.mp hperm

theorem lists_turns : (h.endings e m).results.Lists r.children.length cs := by
  have hlists := concluded.lists
  rwa [concluded.late_eq_nil houtput, List.map_nil, List.append_nil] at hlists

theorem outcome_turns : o = (RaceLedger.recordAll f.name .empty cs).finish r.fanIn := by
  have ho := concluded.outcome
  rwa [concluded.late_eq_nil houtput, List.map_nil, List.append_nil] at ho

/-- Every child has ended, and the turns have brought its outcome. -/
theorem exists_completion {j : Nat} (hj : j < r.children.length) :
    ∃ place o', h.endings e m j = some (place, o') ∧ (⟨j, o'⟩ : Completion) ∈ cs := by
  have hended := concluded.all_ended
    (fun q hq => by rw [concluded.pending_eq_nil houtput] at hq; contradiction) j hj
  obtain ⟨⟨place, o'⟩, hending⟩ := Option.isSome_iff_exists.mp hended
  refine ⟨place, o', hending, (concluded.lists_turns houtput).mem_iff.mpr ⟨hj, ?_⟩⟩
  exact Option.map_eq_some_iff.mpr ⟨_, hending, rfl⟩

/-- Nobody decides the race, and its first failure is reported. -/
theorem ends_of_failure (hquiet : ∀ x ∈ quiet, x.endsTurn = false) (hcs : cs = before ++ c :: after)
    {err : RunError} (herr : c.outcome.failure? = some err)
    (hbefore : ∀ x ∈ before, x.outcome.failure? = none) : Ends h r config m (es ++ quiet) m' o := by
  have undecided (j : Nat) (hj : j < r.children.length) : ∃ place o',
      h.endings e m j = some (place, o') ∧ ¬ (r.rules config).policy.Decides o' := by
    obtain ⟨place, o', hending, hmem⟩ := concluded.exists_completion houtput hj
    exact ⟨place, o', hending, concluded.decided.accepted.not_decides rfl houtput _ hmem⟩
  have hnot (x : Completion) (hx : x ∈ before) : ¬ ∃ e, x.outcome = .error e ∧ e ≠ .cancelled := by
    rintro ⟨e', heq, hne⟩
    have hsome := Outcome.failure?_eq_some.mpr ⟨heq, RunError.isCancelled_eq_false.mpr hne⟩
    rw [hbefore x hx] at hsome
    contradiction
  obtain ⟨hc, hcancelled⟩ := Outcome.failure?_eq_some.mp herr
  have hfails : ∃ e, c.outcome = .error e ∧ e ≠ .cancelled :=
    ⟨err, hc, RunError.isCancelled_eq_false.mp hcancelled⟩
  obtain ⟨t₁, -, -, hfirst⟩ := concluded.decided.turns.seenFirst
    (p := fun o => ∃ e, o = .error e ∧ e ≠ .cancelled) hcs hfails hnot
  rw [concluded.waits, hc] at hfirst
  refine .failed concluded.le undecided (hfirst.append hquiet) ?_
  have hlists := concluded.lists_turns houtput
  have ho := concluded.outcome_turns houtput
  subst hcs
  rw [ho]
  exact RaceLedger.finish_of_failure r.fanIn hlists houtput hbefore herr

/-- If nobody has an output and nobody fails, then all have acknowledged a stop. -/
theorem ends_of_no_failure (hfailed : ∀ x ∈ cs, x.outcome.failure? = none) :
    Ends h r config m (es ++ quiet) m' o := by
  refine .cancelled concluded.le (fun j hj => ?_) ?_
  · obtain ⟨place, o', hending, hmem⟩ := concluded.exists_completion houtput hj
    have hcancelled : o' = .error .cancelled := Outcome.eq_cancelled (houtput _ hmem) (hfailed _ hmem)
    rw [Endings.results, hending, hcancelled]
    rfl
  · rw [concluded.outcome_turns houtput]
    exact RaceLedger.finish_of_cancelled r.fanIn houtput hfailed

end Undecided

/-- A race whose turns are over ends in one of these ways. -/
theorem ends (concluded : Concluded h r config m f es cs t f' e late m' o)
    (hquiet : ∀ x ∈ quiet, x.endsTurn = false) : Ends h r config m (es ++ quiet) m' o := by
  rcases exists_first (fun c : Completion => c.outcome.output?.isSome) cs with
    ⟨before, c, after, hcs, hc, hbefore⟩ | hnone
  · obtain ⟨d, hd⟩ := Option.isSome_iff_exists.mp hc
    have hbefore' : ∀ x ∈ before, x.outcome.output? = none := by simpa using hbefore
    exact concluded.ends_of_output hquiet hcs (Outcome.output?_eq_some.mp hd) hbefore'
  have houtput : ∀ x ∈ cs, x.outcome.output? = none := by simpa using hnone
  rcases exists_first (fun c : Completion => c.outcome.failure?.isSome) cs with
    ⟨before, c, after, hcs, hc, hbefore⟩ | hnoFailure
  · obtain ⟨err, herr⟩ := Option.isSome_iff_exists.mp hc
    have hbefore' : ∀ x ∈ before, x.outcome.failure? = none := by simpa using hbefore
    exact concluded.ends_of_failure houtput hquiet hcs herr hbefore'
  · have hfailed : ∀ x ∈ cs, x.outcome.failure? = none := by simpa using hnoFailure
    exact concluded.ends_of_no_failure houtput hfailed

end Concluded

/-- A race starts its children, and then waits for a decision. -/
theorem runs_next {h : History} {task : TaskId} {m m' : Nat} {es : List Exchange} {o : Outcome}
    (hne : r.children ≠ [])
    (hin : FanOut.distribute "RacingBranches" r.children.length true input = .ok inputs)
    (run : h.Runs task m (r.next ctx input) es m' o) :
    ∃ f, h.Started m (r.children.map Runnable.name) f ∧
      h.clock (m + r.children.length) = h.clock m ∧
      h.Runs task (m + r.children.length) (decide ctx (r.rules ctx.config)
        (settle (r.rules ctx.config) fun l => .done (l.finish r.fanIn)) f.outstanding f .empty)
        es m' o := by
  have hlength := FanOut.length_distribute hin
  have hjobs : (r.children.zip inputs).length = r.children.length := by
    rw [List.length_zip, hlength, Nat.min_self]
  rw [next_eq hne hin] at run
  obtain ⟨f, start, hclock, run, -⟩ := History.runs_start run
  rw [FanOut.names_zip r.children hlength] at start
  rw [hjobs] at run hclock
  exact ⟨f, start, hclock, run⟩

end Race

end Orchestra
