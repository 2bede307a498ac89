import Orchestra.Proofs.World.Later

/-!
# Histories of a world and the runs of a task in them

A history gives the world at every moment of a run, with any number of moments to one instant of
the clock. `History.Runs` follows one task through a history: each request is made at one moment and
answered, by the world of that moment, at a later one. In between the other tasks do what they like,
but time passes only as long as no child that is waited for has ended, and never beyond the timer of
the wait. A task is stuck when it never comes to an outcome: it panics, or is cut off, or waits for
something that does not come about.
-/

namespace Orchestra

namespace World.Later

variable {w w' : World}

/-- A child that has ended remains so, -/
theorem childEnded (later : w.Later w') {r : Request} (h : w.childEnded r = true) :
    w'.childEnded r = true := by
  cases r with
  | nextChild pending patience =>
    refine Bool.of_not_eq_false fun hnone => ?_
    have hbefore : w.childEnded (.nextChild pending patience) = false := by
      refine World.childEnded_eq_false.mpr fun p hp => ?_
      cases hended : w.ended? p.id with
      | none => rfl
      | some e =>
        have hlater := later.ended p.id e hended
        rw [World.childEnded_eq_false.mp hnone p hp] at hlater
        contradiction
    rw [hbefore] at h
    contradiction
  | _ => contradiction

/-- and an instant that has come has come. -/
theorem isDue (later : w.Later w') {deadline : Option Nat} (h : w.isDue deadline = true) :
    w'.isDue deadline = true := by
  cases deadline with
  | none => contradiction
  | some due => exact decide_eq_true (Nat.le_trans (of_decide_eq_true h) later.clock)

end World.Later

/-- The world at every moment. -/
structure History where
  world : Nat → World
  later : ∀ m, (world m).Later (world (m + 1))

/-- A request with its answer and the moment of the answer. -/
structure Exchange where
  moment : Nat
  request : Request
  answer : request.Answer

namespace History

variable {h : History} {task : TaskId}

/-- The clock at a moment. -/
def clock (h : History) (m : Nat) : Nat :=
  (h.world m).now

/-- How a task has ended by a moment. -/
def ended? (h : History) (m : Nat) (task : TaskId) : Option (Nat × Outcome) :=
  (h.world m).ended? task

/-- The world of a later moment is a later world. -/
theorem later_of_le (h : History) {m k : Nat} (hmk : m ≤ k) :
    (h.world m).Later (h.world k) := by
  induction hmk with
  | refl => exact .refl _
  | step _ ih => exact ih.trans (h.later _)

theorem clock_mono (h : History) {m k : Nat} (hmk : m ≤ k) : h.clock m ≤ h.clock k :=
  (h.later_of_le hmk).clock

/-- A task ends once. -/
theorem ended?_unique {m k : Nat} {task : TaskId} {e e' : Nat × Outcome}
    (hm : h.ended? m task = some e) (hk : h.ended? k task = some e') : e = e' := by
  rcases Nat.le_total m k with hle | hle
  · exact Option.some.inj (((h.later_of_le hle).ended task e hm).symm.trans hk)
  · exact Option.some.inj (hm.symm.trans ((h.later_of_le hle).ended task e' hk))

/-- Whoever has ended has ended at every later moment, -/
theorem isSome_ended? {m k : Nat} {task : TaskId} (hmk : m ≤ k) (hm : (h.ended? m task).isSome) :
    (h.ended? k task).isSome := by
  obtain ⟨e, he⟩ := Option.isSome_iff_exists.mp hm
  exact Option.isSome_iff_exists.mpr ⟨e, (h.later_of_le hmk).ended task e he⟩

/-- and so at every moment of a later time. -/
theorem isSome_ended?_of_clock_lt {m k : Nat} {task : TaskId} (hmk : h.clock m < h.clock k)
    (hm : (h.ended? m task).isSome) : (h.ended? k task).isSome :=
  isSome_ended? (Nat.le_of_not_le fun hkm => Nat.not_lt_of_le (h.clock_mono hkm) hmk) hm

/-- Whoever has not ended had not ended before. -/
theorem ended?_eq_none {m k : Nat} {task : TaskId} (hmk : m ≤ k) (hk : h.ended? k task = none) :
    h.ended? m task = none := by
  rw [← Option.not_isSome_iff_eq_none] at hk ⊢
  exact fun hm => hk (isSome_ended? hmk hm)

/-- An ending that has not come yet comes later. -/
theorem lt_of_ended? {m k : Nat} {task : TaskId} (hm : h.ended? m task = none)
    (hk : (h.ended? k task).isSome) : m < k := by
  refine Nat.lt_of_not_le fun hkm => ?_
  have hsome := isSome_ended? hkm hk
  rw [hm] at hsome
  contradiction

/-- A request made at moment `m` is answered at moment `k`, which is later only if there is no answer
at first. -/
structure Answers (h : History) (task : TaskId) (m : Nat) (r : Request) (k : Nat)
    (a : r.Answer) : Prop where
  le : m ≤ k
  first : m < k → (h.world m).answer? task ((h.world m).deadline? r) r = none
  answer : ∃ w, (h.world k).answer? task ((h.world m).deadline? r) r = some (a, w) ∧
    w.Later (h.world (k + 1))
  atOnce : h.clock (k + 1) = h.clock k
  waiting : ∀ j, m ≤ j → j < k → h.clock j < h.clock (j + 1) →
    (h.world j).childEnded r = false ∧
      ∀ due, (h.world m).deadline? r = some due → h.clock (j + 1) ≤ due

/-- A task whose program at moment `m` is the given one comes to an outcome at moment `m'`, with the
given exchanges on the way. -/
inductive Runs (h : History) (task : TaskId) :
    Nat → Task → List Exchange → Nat → Outcome → Prop where
  | done (m : Nat) (o : Outcome) : Runs h task m (.done o) [] m o
  | ask {m k m' : Nat} {r : Request} {next : r.Answer → Task} {a : r.Answer}
      {es : List Exchange} {o : Outcome} (answers : h.Answers task m r k a)
      (rest : Runs h task (k + 1) (next a) es m' o) :
      Runs h task m (.ask r next) (⟨k, r, a⟩ :: es) m' o
  | spawn {m m' : Nat} {name : String} {parent : TokenId} {body : TokenId → Task}
      {next : Child → Task} {es : List Exchange} {o : Outcome}
      (started : ((h.world m).spawn name parent body).2.Later (h.world (m + 1)))
      (atOnce : h.clock (m + 1) = h.clock m)
      (rest : Runs h task (m + 1) (next ((h.world m).spawn name parent body).1) es m' o) :
      Runs h task m (.spawn name parent body next) es m' o

/-- By moment `k` the wait for a request that was made at moment `m` is over: a child has ended that is
waited for, or the instant of the wait has come, or a stop ends it that the task heeds. -/
def Over (h : History) (heeded : TokenId → Prop) (m : Nat) (r : Request) (k : Nat) : Prop :=
  (h.world k).childEnded r = true ∨ (h.world k).isDue ((h.world m).deadline? r) = true ∨
    ∃ token, heeded token ∧ r.endsWith token = true ∧ (h.world k).isStopped token = true

/-- A task whose program at moment `m` is the given one never comes to an outcome: it panics, or is cut
off, or comes to a wait that is never over. Until then no time has passed once a wait was over. -/
inductive Stuck (h : History) (heeded : TokenId → Prop) (task : TaskId) : Nat → Task → Prop where
  | panic (m : Nat) (payload : Payload) : Stuck h heeded task m (.panic payload)
  | endless (m : Nat) : Stuck h heeded task m .endless
  | waits {m : Nat} {r : Request} {next : r.Answer → Task}
      (unanswered : (h.world m).answer? task ((h.world m).deadline? r) r = none)
      (never : ∀ k, m ≤ k → ¬ h.Over heeded m r k) : Stuck h heeded task m (.ask r next)
  | ask {m k : Nat} {r : Request} {next : r.Answer → Task} {a : r.Answer}
      (answers : h.Answers task m r k a)
      (prompt : ∀ j, m ≤ j → j < k → h.clock j < h.clock (j + 1) → ¬ h.Over heeded m r j)
      (rest : Stuck h heeded task (k + 1) (next a)) : Stuck h heeded task m (.ask r next)
  | spawn {m : Nat} {name : String} {parent : TokenId} {body : TokenId → Task}
      {next : Child → Task} (atOnce : h.clock (m + 1) = h.clock m)
      (rest : Stuck h heeded task (m + 1) (next ((h.world m).spawn name parent body).1)) :
      Stuck h heeded task m (.spawn name parent body next)

/-! ### One step of a run -/

theorem runs_done_iff {m m' : Nat} {o o' : Outcome} {es : List Exchange} :
    h.Runs task m (.done o) es m' o' ↔ es = [] ∧ m' = m ∧ o' = o := by
  constructor
  · rintro ⟨⟩
    exact ⟨rfl, rfl, rfl⟩
  · rintro ⟨rfl, rfl, rfl⟩
    exact .done m' o'

theorem runs_ask_iff {m m' : Nat} {r : Request} {next : r.Answer → Task} {es : List Exchange}
    {o : Outcome} : h.Runs task m (.ask r next) es m' o ↔
      ∃ k a es', es = ⟨k, r, a⟩ :: es' ∧ h.Answers task m r k a ∧
        h.Runs task (k + 1) (next a) es' m' o := by
  constructor
  · rintro (_ | ⟨answers, rest⟩)
    exact ⟨_, _, _, rfl, answers, rest⟩
  · rintro ⟨k, a, es', rfl, answers, rest⟩
    exact .ask answers rest

theorem runs_spawn_iff {m m' : Nat} {name : String} {parent : TokenId} {body : TokenId → Task}
    {next : Child → Task} {es : List Exchange} {o : Outcome} :
    h.Runs task m (.spawn name parent body next) es m' o ↔
      ((h.world m).spawn name parent body).2.Later (h.world (m + 1)) ∧
        h.clock (m + 1) = h.clock m ∧
        h.Runs task (m + 1) (next ((h.world m).spawn name parent body).1) es m' o := by
  constructor
  · rintro (_ | _ | ⟨started, atOnce, rest⟩)
    exact ⟨started, atOnce, rest⟩
  · rintro ⟨started, atOnce, rest⟩
    exact .spawn started atOnce rest

/-- A run does not end before it begins. -/
theorem Runs.le {m m' : Nat} {t : Task} {es : List Exchange} {o : Outcome}
    (run : h.Runs task m t es m' o) : m ≤ m' := by
  induction run with
  | done => exact Nat.le_refl _
  | ask answers _ ih => exact Nat.le_trans answers.le (Nat.le_of_succ_le ih)
  | spawn _ _ _ ih => exact Nat.le_of_succ_le ih

/-- No request is answered before the run begins. -/
theorem Runs.moment_le {m m' : Nat} {t : Task} {es : List Exchange} {o : Outcome}
    (run : h.Runs task m t es m' o) : ∀ x ∈ es, m ≤ x.moment := by
  induction run with
  | done => nofun
  | ask answers _ ih =>
    refine List.forall_mem_cons.mpr ⟨answers.le, fun x hx => ?_⟩
    exact Nat.le_trans answers.le (Nat.le_of_succ_le (ih x hx))
  | spawn _ _ _ ih => exact fun x hx => Nat.le_of_succ_le (ih x hx)

/-- A task whose program at moment `m` is the given one has come to the program `t'` at moment `n`. -/
inductive Leads (h : History) (task : TaskId) (n : Nat) (t' : Task) : Nat → Task → Prop where
  | refl : Leads h task n t' n t'
  | ask {m k : Nat} {r : Request} {next : r.Answer → Task} {a : r.Answer}
      (answers : h.Answers task m r k a) (rest : Leads h task n t' (k + 1) (next a)) :
      Leads h task n t' m (.ask r next)
  | spawn {m : Nat} {name : String} {parent : TokenId} {body : TokenId → Task}
      {next : Child → Task} (started : ((h.world m).spawn name parent body).2.Later (h.world (m + 1)))
      (atOnce : h.clock (m + 1) = h.clock m)
      (rest : Leads h task n t' (m + 1) (next ((h.world m).spawn name parent body).1)) :
      Leads h task n t' m (.spawn name parent body next)

theorem Leads.le {m n : Nat} {t t' : Task} (leads : h.Leads task n t' m t) : m ≤ n := by
  induction leads with
  | refl => exact Nat.le_refl n
  | ask answers _ ih => exact Nat.le_trans answers.le (Nat.le_of_succ_le ih)
  | spawn _ _ _ ih => exact Nat.le_of_succ_le ih

/-- A program that is followed by more either has come to a request by then or is over. -/
theorem Leads.of_andThen {m n : Nat} {t : Task} {K : Outcome → Task} {r : Request}
    {next : r.Answer → Task} (leads : h.Leads task n (.ask r next) m (t.andThen K)) :
    (∃ next', h.Leads task n (.ask r next') m t) ∨
      ∃ es m' o, h.Runs task m t es m' o ∧ m' ≤ n := by
  induction t generalizing m with
  | done o => exact .inr ⟨[], m, o, .done m o, leads.le⟩
  | panic | endless => cases leads
  | ask r' next' ih =>
    cases leads with
    | refl => exact .inl ⟨next', .refl⟩
    | ask answers rest =>
      rcases ih _ rest with ⟨next₁, leads⟩ | ⟨es, m', o, run, hle⟩
      · exact .inl ⟨next₁, .ask answers leads⟩
      · exact .inr ⟨_, m', o, .ask answers run, hle⟩
  | spawn name parent body next' _ ih =>
    cases leads with
    | spawn started atOnce rest =>
      rcases ih _ rest with ⟨next₁, leads⟩ | ⟨es, m', o, run, hle⟩
      · exact .inl ⟨next₁, .spawn started atOnce leads⟩
      · exact .inr ⟨es, m', o, .spawn started atOnce run, hle⟩

/-- A way to follow a program of the task, beside one that asks for the same but may go on differently at
its end, and the exchanges so far. Whatever is followed is not cut off by a panic. -/
structure Goes (h : History) (task : TaskId) (Q : Nat → Task → Task → List Exchange → Prop) :
    Prop where
  ask {m : Nat} {r : Request} {next next' : r.Answer → Task} {es : List Exchange}
    (q : Q m (.ask r next) (.ask r next') es) :
    ∃ k a, h.Answers task m r k a ∧ Q (k + 1) (next a) (next' a) (es ++ [⟨k, r, a⟩])
  spawn {m : Nat} {name : String} {parent : TokenId} {body : TokenId → Task} {next next' : Child → Task}
    {es : List Exchange} (q : Q m (.spawn name parent body next) (.spawn name parent body next') es) :
    Q (m + 1) (next ((h.world m).spawn name parent body).1)
      (next' ((h.world m).spawn name parent body).1) es
  panic {m : Nat} {payload : Payload} {es : List Exchange}
    (q : Q m (.panic payload) (.panic payload) es) : False

/-- A program is followed along its run. -/
theorem goes_runs (es : List Exchange) (m' : Nat) (o : Outcome) :
    h.Goes task fun m t _ es₀ => ∃ es₁, es = es₀ ++ es₁ ∧ h.Runs task m t es₁ m' o where
  ask := by
    rintro m r next next' es₀ ⟨es₁, rfl, run⟩
    obtain ⟨k, a, es', rfl, answers, rest⟩ := runs_ask_iff.mp run
    exact ⟨k, a, answers, es', (List.append_assoc es₀ [_] es').symm, rest⟩
  spawn := by
    rintro m name parent body next next' es₀ ⟨es₁, rfl, run⟩
    exact ⟨es₁, rfl, (runs_spawn_iff.mp run).2.2⟩
  panic := by
    rintro m payload es₀ ⟨es₁, -, run⟩
    cases run

/-- A program that is followed by more comes to an outcome first. -/
theorem Runs.of_andThen {m m' : Nat} {t : Task} {K : Outcome → Task} {es : List Exchange}
    {o : Outcome} (run : h.Runs task m (t.andThen K) es m' o) : ∃ es₀ m₁ o₁ es₁, es = es₀ ++ es₁ ∧
      h.Runs task m t es₀ m₁ o₁ ∧ h.Runs task m₁ (K o₁) es₁ m' o := by
  induction t generalizing m es with
  | done o₁ => exact ⟨[], m, o₁, es, rfl, .done m o₁, run⟩
  | panic | endless => cases run
  | ask r next ih =>
    obtain ⟨k, a, es', rfl, answers, rest⟩ := runs_ask_iff.mp run
    obtain ⟨es₀, m₁, o₁, es₁, rfl, first, last⟩ := ih a rest
    exact ⟨_, m₁, o₁, es₁, rfl, .ask answers first, last⟩
  | spawn name parent body next _ ih =>
    obtain ⟨started, atOnce, rest⟩ := runs_spawn_iff.mp run
    obtain ⟨es₀, m₁, o₁, es₁, rfl, first, last⟩ := ih _ rest
    exact ⟨es₀, m₁, o₁, es₁, rfl, .spawn started atOnce first, last⟩

/-- A request that has an answer already gets it at once. -/
theorem Answers.at_once {m k : Nat} {r : Request} {a a' : r.Answer} {w : World}
    (answers : h.Answers task m r k a)
    (there : (h.world m).answer? task ((h.world m).deadline? r) r = some (a', w)) :
    k = m ∧ a = a' := by
  have hk : k = m := by
    refine Nat.le_antisymm (Nat.le_of_not_lt fun hlt => ?_) answers.le
    rw [answers.first hlt] at there
    contradiction
  subst hk
  obtain ⟨w', hw', -⟩ := answers.answer
  rw [there] at hw'
  cases hw'
  exact ⟨rfl, rfl⟩

/-- From the moment on at which an awaited child has ended, no time passes until the answer. -/
theorem Answers.clock_eq {m k j : Nat} {r : Request} {a : r.Answer}
    (answers : h.Answers task m r k a) (hj : m ≤ j) (hjk : j ≤ k)
    (there : ∀ i, j ≤ i → i < k → (h.world i).childEnded r = true) :
    h.clock (k + 1) = h.clock j := by
  have hsame (i : Nat) (hji : j ≤ i) (hik : i ≤ k) : h.clock i = h.clock j := by
    induction hji with
    | refl => rfl
    | @step i hji ih =>
      rw [← ih (Nat.le_of_succ_le hik)]
      refine Nat.le_antisymm (Nat.le_of_not_lt fun hlt => ?_) (h.clock_mono (Nat.le_succ i))
      have hnone := (answers.waiting i (Nat.le_trans hj hji) hik hlt).1
      rw [there i hji hik] at hnone
      contradiction
  rw [answers.atOnce, hsame k hjk (Nat.le_refl k)]

/-- An answer comes no later than the timer of the wait, or at once. -/
theorem Answers.clock_le_due {m k due : Nat} {r : Request} {a : r.Answer}
    (answers : h.Answers task m r k a) (hdue : (h.world m).deadline? r = some due) :
    h.clock (k + 1) ≤ max (h.clock m) due := by
  have hbound (i : Nat) (hmi : m ≤ i) (hik : i ≤ k) : h.clock i ≤ max (h.clock m) due := by
    induction hmi with
    | refl => exact Nat.le_max_left _ _
    | @step i hmi ih =>
      by_cases hlt : h.clock i < h.clock (i + 1)
      · exact Nat.le_trans ((answers.waiting i hmi hik hlt).2 due hdue) (Nat.le_max_right _ _)
      · exact Nat.le_trans (Nat.le_of_not_lt hlt) (ih (Nat.le_of_succ_le hik))
  rw [answers.atOnce]
  exact hbound k answers.le (Nat.le_refl k)

/-! ### What is not stuck -/

section Stuck

variable {heeded : TokenId → Prop} {m n : Nat} {r : Request} {next : r.Answer → Task}

/-- A wait that is over is over for good. -/
theorem Over.later {k : Nat} (hover : h.Over heeded m r n) (hnk : n ≤ k) : h.Over heeded m r k := by
  have later := h.later_of_le hnk
  refine hover.imp later.childEnded (Or.imp later.isDue ?_)
  rintro ⟨token, hheeded, hends, hstopped⟩
  exact ⟨token, hheeded, hends, later.stopped token hstopped⟩

/-- By moment `n` every request of this form is served: it has an answer at once, or the wait for it is
over. -/
def Served (h : History) (heeded : TokenId → Prop) (task : TaskId) (r : Request) (n : Nat) : Prop :=
  ∀ m, ((h.world m).answer? task ((h.world m).deadline? r) r).isSome ∨ h.Over heeded m r (max m n)

/-- A task is not stuck at a request that is answered at once, if it is not stuck afterwards, -/
theorem not_stuck_ask_now {a : r.Answer} {w : World}
    (there : (h.world m).answer? task ((h.world m).deadline? r) r = some (a, w))
    (rest : h.clock (m + 1) = h.clock m → ¬ h.Stuck heeded task (m + 1) (next a)) :
    ¬ h.Stuck heeded task m (.ask r next) := by
  intro stuck
  cases stuck with
  | waits unanswered =>
    rw [there] at unanswered
    contradiction
  | ask answers prompt stuck =>
    obtain ⟨rfl, rfl⟩ := answers.at_once there
    exact rest answers.atOnce stuck

/-- nor at one that is served by some moment: it goes on before time passes then. -/
theorem not_stuck_ask (served : h.Served heeded task r n)
    (rest : ∀ k a, h.Answers task m r k a → h.clock (k + 1) ≤ h.clock (max m n) →
      ¬ h.Stuck heeded task (k + 1) (next a)) : ¬ h.Stuck heeded task m (.ask r next) := by
  intro stuck
  cases stuck with
  | waits unanswered never =>
    rcases served m with there | hover
    · rw [unanswered] at there
      contradiction
    · exact never _ (Nat.le_max_left m n) hover
  | @ask _ k _ _ a answers prompt stuck =>
    refine rest k a answers ?_ stuck
    rw [answers.atOnce]
    rcases Nat.le_total k (max m n) with hle | hge
    · exact h.clock_mono hle
    rcases served m with there | hover
    · obtain ⟨⟨a', w⟩, there⟩ := Option.isSome_iff_exists.mp there
      obtain ⟨rfl, -⟩ := answers.at_once there
      exact h.clock_mono (Nat.le_max_left k n)
    · have hsame (j : Nat) (hj : max m n ≤ j) (hjk : j ≤ k) : h.clock j ≤ h.clock (max m n) := by
        induction hj with
        | refl => exact Nat.le_refl _
        | @step j hj ih =>
          refine Nat.le_trans (Nat.le_of_not_lt fun hlt => ?_) (ih (Nat.le_of_succ_le hjk))
          exact prompt j (Nat.le_trans (Nat.le_max_left m n) hj) hjk hlt (hover.later hj)
      exact hsame k hge (Nat.le_refl k)

end Stuck

end History

end Orchestra
