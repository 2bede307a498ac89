import Orchestra.Proofs.World.Alone
import Orchestra.Proofs.World.Awake

/-!
# Programs that come to an end

Time passes only when nobody can go on. So in a world in which time goes on a task does not wait for
good for a child that ends, for an instant or for a stop that wakes it: a program that is not stuck
comes to an end, in a run that shows each request that the task has made.
-/

namespace Orchestra

namespace Machine

variable {a b : Machine}

/-- What is done from outside takes no time. -/
theorem Touch.clock (touch : Touch a b) : b.world.now = a.world.now := by
  cases touch with
  | start => exact (World.spawn_keeps _ _ _ _).1
  | enter w program =>
    exact (World.same_addTask { w with outer := some w.tasks.size } "" none program).clock
  | leave => rfl
  | change steady => exact steady.clock

end Machine

namespace Trace

open Machine

variable {tr : Trace} {m k n : Nat}

/-- From a moment on the task is awake whenever it waits for a stop of the token that has come. -/
def Heeds (tr : Trace) (token : TokenId) (task : TaskId) (first : Nat) : Prop :=
  ∀ k, first ≤ k → Roused token task (tr.machine k) → Roused token task (tr.machine (k + 1))

theorem Heeds.of_le {token : TokenId} {task : TaskId} (heeds : tr.Heeds token task m) (hmk : m ≤ k) :
    tr.Heeds token task k :=
  fun j hkj => heeds j (Nat.le_trans hmk hkj)

theorem Heeds.roused {token : TokenId} {task : TaskId} (heeds : tr.Heeds token task m)
    (unwaiting : ∀ s ∈ (tr.machine m).world.suspended, s.id ≠ task) (hmk : m ≤ k) :
    Roused token task (tr.machine k) := by
  induction hmk with
  | refl => exact fun s hs hid => absurd hid (unwaiting s hs)
  | @step k hmk ih => exact heeds k hmk ih

/-- What the world does by itself wakes whoever it stops. -/
theorem heeds_of_steps {token : TokenId} {task : TaskId}
    (has : token < (tr.history.world m).tokens.size)
    (steps : ∀ k, m ≤ k → (tr.machine k).Step (tr.machine (k + 1)) ∨ tr.machine (k + 1) = tr.machine k) :
    tr.Heeds token task m := by
  intro k hmk roused
  rcases steps k hmk with step | still
  · exact step.roused (tr.sound_at k) (Nat.lt_of_lt_of_le has (tr.history.later_of_le hmk).tokens.size)
      roused
  · exact still ▸ roused

/-- So a task heeds every stop in a world that is left to itself. -/
theorem heeds_alone {a : Machine} {sound : a.Sound} {token : TokenId} {task : TaskId}
    (has : token < ((alone a sound).history.world m).tokens.size) :
    (alone a sound).Heeds token task m :=
  heeds_of_steps has fun k _ => by
    show Machine.Step (Machine.next^[k] a) (Machine.next^[k + 1] a) ∨ Machine.next^[k + 1] a = _
    rw [Function.iterate_succ_apply']
    exact (Machine.step_next ((alone a sound).sound_at k)).imp_right And.right

/-! ### When time passes -/

/-- Time that has passed has passed at some moment. -/
theorem exists_passing (hkn : k ≤ n) (h : tr.history.clock k < tr.history.clock n) :
    ∃ j, k ≤ j ∧ j < n ∧ tr.history.clock j ≠ tr.history.clock (j + 1) := by
  by_contra hnone
  have hsame : ∀ j, k ≤ j → j ≤ n → tr.history.clock j = tr.history.clock k := by
    intro j hkj hjn
    induction hkj with
    | refl => rfl
    | @step j hkj ih =>
      by_contra hne
      exact hnone ⟨j, hkj, hjn, fun heq => hne (heq.symm.trans (ih (Nat.le_of_succ_le hjn)))⟩
  exact absurd h (Nat.not_lt_of_le (Nat.le_of_eq (hsame n hkn (Nat.le_refl n))))

/-- Then the world takes a step, in which nobody runs or can go on. -/
theorem idle_of_passing (passes : tr.history.clock m ≠ tr.history.clock (m + 1)) :
    (tr.machine m).Step (tr.machine (m + 1)) ∧ (tr.machine m).control = .idle ∧
      (tr.machine m).world.queue = [] ∧ ∀ task, (tr.machine m).world.outer = some task →
        (tr.machine m).world.resume? task = none := by
  rcases tr.move m with (step | touch) | still
  · exact ⟨step, step.clock_eq passes⟩
  · exact absurd touch.clock.symm passes
  · exact absurd (congrArg (fun a => a.world.now) (still (m + 1) (Nat.le_succ m))).symm passes

variable {heeded : TokenId → Prop} {task : TaskId}

/-- While a task waits, no time passes once the wait is over, -/
theorem not_over_of_passing {r : Request} {next : r.Answer → Task}
    (heeds : ∀ token, heeded token → tr.Heeds token task m)
    (unwaiting : ∀ s ∈ (tr.machine m).world.suspended, s.id ≠ task) (hmk : m < k)
    (waits : (tr.history.world m).waiting task r next ∈ (tr.machine k).world.suspended)
    (passes : tr.history.clock k ≠ tr.history.clock (k + 1)) :
    ¬ tr.history.Over heeded m r k := by
  obtain ⟨step, hidle, queue, outer⟩ := idle_of_passing passes
  have sound : Sound ⟨(tr.machine k).world, .idle⟩ := hidle ▸ tr.sound_at k
  obtain ⟨hchild, hdue⟩ := sound.nobody queue outer waits
  rintro (hended | hcome | ⟨token, hheeded, hends, hstopped⟩)
  · exact absurd (hended.symm.trans hchild) Bool.noConfusion
  · exact absurd (hcome.symm.trans hdue) Bool.noConfusion
  · have roused : Roused token task (tr.machine k) :=
      (heeds token hheeded).roused unwaiting (Nat.le_of_lt hmk)
    exact passes (roused.clock_eq step (tr.sound_at k) waits rfl (.inr ⟨hends, hstopped⟩))

section GoesOn

variable (htime : ∀ instant, ∃ k, instant ≤ tr.history.clock k)
include htime

/-- If time goes on, it passes again and again, -/
theorem passes_again (m : Nat) : ∃ j, m ≤ j ∧ tr.history.clock j ≠ tr.history.clock (j + 1) := by
  obtain ⟨n, hn⟩ := htime (tr.history.clock m + 1)
  have hlt : tr.history.clock m < tr.history.clock (max m n) :=
    Nat.lt_of_lt_of_le hn (tr.history.clock_mono (Nat.le_max_right m n))
  obtain ⟨j, hmj, -, passes⟩ := exists_passing (Nat.le_max_left m n) hlt
  exact ⟨j, hmj, passes⟩

/-- so that the world never stands still. -/
theorem step_of_time {t : Task}
    (running : (tr.machine m).control = .running task t) :
    (tr.machine m).Step (tr.machine (m + 1)) ∧ ∃ k, m ≤ k ∧ tr.machine k ≠ tr.machine m := by
  obtain ⟨j, hmj, passes⟩ := passes_again htime m
  have hmoved : tr.machine j ≠ tr.machine m := fun heq => by
    rw [← heq, (idle_of_passing passes).2.1] at running
    contradiction
  exact ⟨(step_of_running running hmj hmoved).2.2.2, j, hmj, hmoved⟩

/-- Whoever neither asks for something nor starts a child gives up its turn. -/
theorem moved_of_over {t : Task} (running : (tr.machine m).control = .running task t)
    (hask : ∀ r next, t ≠ .ask r next)
    (hspawn : ∀ name parent body next, t ≠ .spawn name parent body next) :
    tr.machine (m + 1) ≠ tr.machine m := by
  obtain ⟨step, -⟩ := step_of_time htime running
  intro heq
  have running' := heq ▸ running
  rw [show tr.machine m = ⟨tr.history.world m, _⟩ from congrArg (Machine.mk _) running] at step
  generalize tr.machine (m + 1) = b at step running'
  cases step with
  | answer | suspend => exact hask _ _ rfl
  | spawn => exact hspawn _ _ _ _ rfl
  | done | panic | endless => contradiction

/-- A task that asks for something goes on with an answer, if there is one at once or the wait is over at
some moment. -/
theorem goes_on {r : Request} {next : r.Answer → Task}
    (heeds : ∀ token, heeded token → tr.Heeds token task m)
    (running : (tr.machine m).control = .running task (.ask r next))
    (served : ((tr.history.world m).answer? task ((tr.history.world m).deadline? r) r).isSome ∨
      ∃ n, m ≤ n ∧ tr.history.Over heeded m r n) :
    ∃ k a, tr.history.Answers task m r k a ∧ (tr.machine (k + 1)).control = .running task (next a) ∧
      ∀ j, m ≤ j → j < k → tr.history.clock j < tr.history.clock (j + 1) →
        ¬ tr.history.Over heeded m r j := by
  obtain ⟨step, -⟩ := step_of_time htime running
  have unwaiting := ((tr.sound_at m).runs _ _ running).2.2
  have hgone : ∃ k, m < k ∧ (tr.history.world m).waiting task r next ∉
      (tr.machine k).world.suspended := by
    by_contra hnone
    have hwaits (k : Nat) (hmk : m < k) : (tr.history.world m).waiting task r next ∈
        (tr.machine k).world.suspended := by_contra fun h => hnone ⟨k, hmk, h⟩
    rcases served with there | ⟨n, hmn, hover⟩
    · have sound := tr.sound_at (m + 1)
      have hnext := hwaits (m + 1) (Nat.lt_succ_self m)
      rw [show tr.machine m = ⟨tr.history.world m, _⟩ from congrArg (Machine.mk _) running] at step
      generalize tr.machine (m + 1) = b at step sound hnext
      cases step with
      | answer => exact absurd rfl ((sound.runs _ _ rfl).2.2 _ hnext)
      | suspend unanswered =>
        rw [unanswered] at there
        contradiction
    · obtain ⟨j, hj, passes⟩ := passes_again htime (n + 1)
      exact not_over_of_passing heeds unwaiting (by omega) (hwaits j (by omega)) passes
        (hover.later (Nat.le_of_succ_le hj))
  obtain ⟨k, hmk, hgone⟩ := hgone
  obtain ⟨i, a, -, answers, running', hwaits⟩ := of_ask_of_step running step hmk hgone
  refine ⟨i, a, answers, running', fun j hmj hji passes => ?_⟩
  rcases Nat.eq_or_lt_of_le hmj with rfl | hmj
  · exact absurd (idle_of_passing (Nat.ne_of_lt passes)).2.1 (by rw [running]; nofun)
  · exact not_over_of_passing heeds unwaiting hmj (hwaits j hmj (Nat.le_of_lt hji))
      (Nat.ne_of_lt passes)

/-- A task that asks goes on if it is not stuck, whatever follows, and then it is not stuck afterwards. -/
theorem goes_on_of_not_stuck {r : Request} {next next' : r.Answer → Task}
    (heeds : ∀ token, heeded token → tr.Heeds token task m)
    (running : (tr.machine m).control = .running task (.ask r next))
    (hgoes : ¬ tr.history.Stuck heeded task m (.ask r next')) :
    ∃ k a, tr.history.Answers task m r k a ∧ (tr.machine (k + 1)).control = .running task (next a) ∧
      ¬ tr.history.Stuck heeded task (k + 1) (next' a) := by
  have served : ((tr.history.world m).answer? task ((tr.history.world m).deadline? r) r).isSome ∨
      ∃ n, m ≤ n ∧ tr.history.Over heeded m r n := by
    by_contra hnone
    rw [not_or, Option.not_isSome_iff_eq_none] at hnone
    exact hgoes (.waits hnone.1 fun k hmk hover => hnone.2 ⟨k, hmk, hover⟩)
  obtain ⟨k, a, answers, running', prompt⟩ := goes_on htime heeds running served
  exact ⟨k, a, answers, running', fun stuck => hgoes (.ask answers prompt stuck)⟩

/-- A task that starts a child goes on at once. -/
theorem goes_on_spawn {name : String} {parent : TokenId} {body : TokenId → Task} {next : Child → Task}
    (running : (tr.machine m).control = .running task (.spawn name parent body next)) :
    ((tr.history.world m).spawn name parent body).2 = tr.history.world (m + 1) ∧
      tr.history.clock (m + 1) = tr.history.clock m ∧
      (tr.machine (m + 1)).control =
        .running task (next ((tr.history.world m).spawn name parent body).1) := by
  obtain ⟨-, k, hmk, hmoved⟩ := step_of_time htime running
  obtain ⟨-, hworld, running', -⟩ := of_spawn running hmk hmoved
  exact ⟨hworld.symm, (congrArg World.now hworld).trans (World.spawn_keeps _ _ _ _).1, running'⟩

/-- So a program is followed while one that asks for the same is not stuck. -/
theorem goes (heeds : ∀ token, heeded token → tr.Heeds token task m) :
    tr.history.Goes task fun k t t' _ => m ≤ k ∧ (tr.machine k).control = .running task t ∧
      ¬ tr.history.Stuck heeded task k t' where
  ask := by
    rintro k r next next' - ⟨hmk, running, hgoes⟩
    obtain ⟨i, a, answers, running', hgoes'⟩ :=
      goes_on_of_not_stuck htime (fun token hheeded => (heeds token hheeded).of_le hmk) running hgoes
    exact ⟨i, a, answers, Nat.le_trans hmk (Nat.le_succ_of_le answers.le), running', hgoes'⟩
  spawn := by
    rintro k name parent body next next' - ⟨hmk, running, hgoes⟩
    obtain ⟨-, atOnce, running'⟩ := goes_on_spawn htime running
    exact ⟨Nat.le_succ_of_le hmk, running', fun stuck => hgoes (.spawn atOnce stuck)⟩
  panic := fun ⟨_, _, hgoes⟩ => hgoes (.panic _ _)

/-- A program that is not stuck comes to an end. -/
theorem completes {t : Task} {K : Outcome → Task}
    (heeds : ∀ token, heeded token → tr.Heeds token task m)
    (running : (tr.machine m).control = .running task (t.andThen K))
    (hgoes : ¬ tr.history.Stuck heeded task m t) :
    ∃ es m' o, tr.history.Runs task m t es m' o ∧
      (tr.machine m').control = .running task (K o) := by
  induction t generalizing m with
  | done o => exact ⟨[], m, o, .done m o, running⟩
  | panic payload => exact absurd (.panic m payload) hgoes
  | endless => exact absurd (.endless m) hgoes
  | ask r next ih =>
    obtain ⟨i, a, answers, running', hgoes'⟩ := goes_on_of_not_stuck htime heeds running hgoes
    obtain ⟨es, m', o, run, hover⟩ := ih a
      (fun token hheeded => (heeds token hheeded).of_le (Nat.le_succ_of_le answers.le)) running' hgoes'
    exact ⟨_, m', o, .ask answers run, hover⟩
  | spawn name parent body next _ ih =>
    obtain ⟨hworld, atOnce, running'⟩ := goes_on_spawn htime running
    obtain ⟨es, m', o, run, hover⟩ :=
      ih _ (fun token hheeded => (heeds token hheeded).of_le (Nat.le_succ m)) running'
        fun stuck => hgoes (.spawn atOnce stuck)
    exact ⟨es, m', o, .spawn (hworld ▸ .refl _) atOnce run, hover⟩

/-- A task that runs later has come to its program by then: it is neither over nor cut off. -/
theorem leads {t t' : Task} (running : (tr.machine m).control = .running task t) (hmn : m ≤ n)
    (running' : (tr.machine n).control = .running task t') : tr.history.Leads task n t' m t := by
  obtain ⟨-, unended, unwaiting⟩ := (tr.sound_at n).runs _ _ running'
  induction t generalizing m with
  | done o =>
    rcases Nat.eq_or_lt_of_le hmn with rfl | hlt
    · cases running.symm.trans running'
      exact .refl
    obtain ⟨place, hended⟩ := of_done running (Nat.le_succ m) (moved_of_over htime running nofun nofun)
    cases unended.symm.trans ((tr.history.later_of_le hlt).ended task _ hended)
  | panic payload =>
    rcases Nat.eq_or_lt_of_le hmn with rfl | hlt
    · cases running.symm.trans running'
      exact .refl
    obtain ⟨place, name, hended⟩ :=
      of_panic running (Nat.le_succ m) (moved_of_over htime running nofun nofun)
    cases unended.symm.trans ((tr.history.later_of_le hlt).ended task _ hended)
  | endless =>
    rcases Nat.eq_or_lt_of_le hmn with rfl | hlt
    · cases running.symm.trans running'
      exact .refl
    have lost := lost_of_endless running (Nat.le_succ m) (moved_of_over htime running nofun nofun)
    exact absurd running' ((lost_of_le lost hlt).unrunning t')
  | ask r next ih =>
    rcases Nat.eq_or_lt_of_le hmn with rfl | hlt
    · cases running.symm.trans running'
      exact .refl
    obtain ⟨j, a, hjn, answers, running, -⟩ := of_ask_of_step running (step_of_time htime running).1 hlt
      fun hs => unwaiting _ hs rfl
    exact .ask answers (ih a running hjn)
  | spawn name parent body next _ ih =>
    rcases Nat.eq_or_lt_of_le hmn with rfl | hlt
    · cases running.symm.trans running'
      exact .refl
    obtain ⟨hworld, atOnce, running⟩ := goes_on_spawn htime running
    exact .spawn (hworld ▸ .refl _) atOnce (ih _ running hlt)

end GoesOn

/-- A task that is over ends with its outcome, if it ends. -/
theorem outcome_of_ended {place : Nat} {o o' : Outcome}
    (running : (tr.machine m).control = .running task (.done o))
    (hended : tr.history.ended? k task = some (place, o')) : o = o' := by
  obtain ⟨hmk, hmoved⟩ := moved_of_ended running (by rw [hended]; rfl)
  obtain ⟨place', hended'⟩ := of_done running hmk hmoved
  cases hended.symm.trans hended'
  rfl

end Trace

end Orchestra
