import Orchestra.Proofs.Permits.Runs
import Orchestra.Proofs.World.Completing

/-!
# Whoever waits for a permit is served

When time passes, nobody who has been granted a permit still waits, and nobody waits while a permit is
available. So somebody waits for a permit then only if all permits are held by tasks that have not
ended. Whoever holds a permit has begun to execute its runnable: if every run ends that does so, every
run begins, unless its token is stopped, and ends.
-/

namespace Orchestra

namespace Machine

variable {id : LimitId} {added total : Nat} {a b : Machine} {token : TokenId} {task : TaskId}

/-- What is done from outside is done while nobody runs, -/
theorem Act.idle (act : Act id added a b) : a.control = .idle := by
  cases act <;> rfl

/-- and wakes whoever it stops. -/
theorem Act.roused (act : Act id added a b) (sound : Sound a) (has : token < a.world.tokens.size)
    (roused : Roused token task a) : Roused token task b := by
  cases act with
  | start => exact roused.spawn has _ _ _
  | enter w program outer => exact roused.enter outer program
  | leave w outer => exact roused.leave sound outer
  | addPermits w count => exact roused.same (same_addPermits w id added)
  | closeLimit w => exact roused.same (same_closeLimit w id)
  | stop w tokens => exact roused.stop tokens
  | other steady tasks limit tokens =>
    exact roused.steady steady fun _ _ _ _ hstopped => .inl (tokens token hstopped)

/-- When nobody can go on, somebody waits for a permit of an open limit only if a task that has not
ended holds one. -/
theorem Balanced.exists_holder (balanced : Balanced id total a) (sound : Sound a)
    (idle : a.control = .idle) (queue : a.world.queue = [])
    (outer : ∀ task, a.world.outer = some task → a.world.resume? task = none)
    (opened : ∀ l, a.world.limits.get? id = some l → l.closed = false) (pos : 0 < total)
    {s : Suspended} (hs : s ∈ a.world.suspended) (hwants : s.request.wants id = true) :
    ∃ task, 0 < a.world.heldBy id task ∧ a.world.ended? task = none := by
  obtain ⟨l, books⟩ := balanced
  have hungranted (s : Suspended) (hs : s ∈ a.world.suspended)
      (hwants : s.request.wants id = true) : s.id ∉ l.granted := by
    intro hgranted
    rcases books.woken s hs hwants (.inl hgranted) with hqueue | houter | hturn
    · rw [queue] at hqueue
      contradiction
    · exact books.not_answered hwants (.inl hgranted) (sound.unanswered hs (outer s.id houter))
    · rw [idle] at hturn
      contradiction
  have hnone : l.granted = [] := by
    refine List.eq_nil_iff_forall_not_mem.mpr fun task hgranted => ?_
    obtain ⟨s, hs, rfl, hwants⟩ := books.waits task (List.mem_append_left _ hgranted)
    exact hungranted s hs hwants hgranted
  have hqueue : s.id ∈ l.queue := by
    rcases books.lined s hs hwants with hline | hclosed
    · exact (List.mem_append.mp hline).resolve_left (hungranted s hs hwants)
    · rw [opened l books.there] at hclosed
      contradiction
  have havailable := books.tidy.exhausted (List.ne_nil_of_mem hqueue)
  have hbalance := books.balance
  rw [Limit.atHand, havailable, hnone] at hbalance
  have hholders : 0 < (a.world.holders id).length := by
    simp only [List.length_nil] at hbalance
    omega
  obtain ⟨task, hholds⟩ := List.exists_mem_of_length_pos hholders
  exact ⟨task, World.mem_holders.mp hholds, books.unended task hholds⟩

end Machine

namespace LimitedRun

open Machine

variable {run : LimitedRun} {a b : Machine}

/-- An early run that takes up a permit begins to execute its runnable. -/
theorem Early.begins_of_takesUp (early : run.Early a) (sound : Sound a)
    (takes : TakesUp run.limit run.child.id a b) :
    b.control = .running run.child.id run.execution := by
  obtain ⟨token, next, -, control, running | ⟨deadline, order, hs⟩⟩ := takes.asked
  · rcases early.running sound running with heq | heq
    · cases heq
      exact control
    · cases heq
  · cases early with
    | begins order' mem => cases sound.eq_of_id hs mem rfl
    | queues order' mem =>
      cases sound.eq_of_id hs mem rfl
      exact control
    | asks running | refused running => exact absurd rfl ((sound.runs _ _ running).2.2 _ hs)
    | past place ended =>
      rw [(sound.waits _ hs).2] at ended
      contradiction

/-- It has not ended then. -/
theorem Waits.unended (waits : run.Waits a) (sound : Sound a) :
    a.world.ended? run.child.id = none := by
  cases waits with
  | begins order mem | queues order mem => exact (sound.waits _ mem).2
  | asks control => exact (sound.runs _ _ control).2.1

/-- A permit of an open limit is not refused unless the token is stopped. -/
theorem Decided.execution {granted : Bool} (decided : run.Decided a b granted)
    (unstopped : a.world.isStopped run.child.token = false)
    (opened : ∃ l, a.world.limits.get? run.limit = some l ∧ l.closed = false) :
    b.control = .running run.child.id run.execution := by
  obtain ⟨l, hl, hopen⟩ := opened
  obtain ⟨deadline, w, there, -⟩ := decided.there
  have hgranted : granted = true := by
    rcases World.answer?_acquire there with ⟨hstopped, -, -⟩ | ⟨hnone, -, -⟩ | ⟨-, l', l'', hl', h, -⟩
    · rw [unstopped] at hstopped
      contradiction
    · rw [hl] at hnone
      contradiction
    · cases hl.symm.trans hl'
      refine Bool.of_not_eq_false fun hfalse => ?_
      subst hfalse
      exact absurd (hopen.symm.trans (Limit.of_admit?_eq_false h).1) Bool.false_ne_true
  have control := decided.control
  rw [hgranted] at control
  exact control

end LimitedRun

namespace Trace

open Machine LimitedRun

variable {tr : Trace} {run : LimitedRun} {id : LimitId} {added : Nat → Nat} {token : TokenId}
  {task : TaskId} {m k n : Nat}

/-- If nobody but certain tasks asks for permits of a limit, nobody else waits for one or holds one. -/
theorem asker_of_le {P : TaskId → Prop} (adds : tr.Adds id added)
    (untouched : Untouched id (tr.machine m)) (hmk : m ≤ k)
    (asks : ∀ j task token next, m ≤ j →
      (tr.machine j).control = .running task (.ask (.acquire id token) next) → P task) :
    (∀ task, 0 < (tr.machine k).world.heldBy id task → P task) ∧
      ∀ s ∈ (tr.machine k).world.suspended, s.request.wants id = true → P s.id := by
  have hnow {s : Suspended} (hwants : s.request.wants id = true) : s.request ≠ .now := by
    intro heq
    rw [heq] at hwants
    contradiction
  apply adds.induction (P := fun a => (∀ task, 0 < a.world.heldBy id task → P task) ∧
    ∀ s ∈ a.world.suspended, s.request.wants id = true → P s.id) hmk
  · refine ⟨fun task hholds => ?_, fun s hs hwants => ?_⟩
    · rw [untouched.unheld] at hholds
      exact absurd hholds (Nat.lt_irrefl 0)
    · rw [untouched.unwanted s hs] at hwants
      contradiction
  · rintro j hmj step ⟨holds, waits⟩
    refine ⟨fun task hholds => ?_, fun s hs hwants => ?_⟩
    · rcases step.heldBy (tr.sound_at j) id task with hsame | ⟨hzero, -⟩ | takes
      · exact holds task (hsame ▸ hholds)
      · rw [hzero] at hholds
        exact absurd hholds (Nat.lt_irrefl 0)
      · obtain ⟨token, next, -, -, running | ⟨deadline, order, hs⟩⟩ := takes.asked
        · exact asks j task token next hmj running
        · exact waits _ hs (Request.wants_iff.mpr ⟨token, rfl⟩)
    · rcases step.waited hs with hs | ⟨_, _, _, _, _, -, rfl⟩ | ⟨running, -⟩
      · exact waits s hs hwants
      · exact absurd rfl (hnow hwants)
      · obtain ⟨sid, request, next, deadline, order⟩ := s
        obtain ⟨token, rfl⟩ := Request.wants_iff.mp hwants
        exact asks j sid token next hmj running
  · rintro j hmj act ⟨holds, waits⟩
    refine ⟨fun task hholds => holds task (act.heldBy task ▸ hholds), fun s hs hwants => ?_⟩
    exact waits s ((act.waited hs).resolve_right (hnow hwants)) hwants

/-! ### Who has been started -/

/-- Whoever waits for something that a stop has ended remains awake. -/
theorem roused_of_le (adds : tr.Adds id added) (has : token < (tr.history.world m).tokens.size)
    (hmk : m ≤ k) (roused : Roused token task (tr.machine m)) :
    Roused token task (tr.machine k) := by
  have has' (j : Nat) (hmj : m ≤ j) : token < (tr.machine j).world.tokens.size :=
    Nat.lt_of_lt_of_le has (tr.history.later_of_le hmj).tokens.size
  apply adds.induction (P := Roused token task) hmk roused
  · exact fun j hmj step ih => step.roused (tr.sound_at j) (has' j hmj) ih
  · exact fun j hmj act ih => act.roused (tr.sound_at j) (has' j hmj) ih

section Spawned

variable {name : String} {parent : TokenId} {body : TokenId → Task} {c : Child}
  (hspawn : (tr.history.world m).spawn name parent body = (c, tr.history.world (m + 1)))
include hspawn

/-- A child that has been started waits to begin, -/
theorem begun_of_spawn : (tr.history.world m).begun (body c.token) ∈
    (tr.machine (m + 1)).world.suspended := by
  have hworld := congrArg Prod.snd hspawn
  have hchild := congrArg Prod.fst hspawn
  subst hchild
  rw [show (tr.machine (m + 1)).world = _ from hworld.symm, (World.spawn_keeps _ _ _ _).2.2]
  exact List.mem_append_right _ (List.mem_singleton.mpr rfl)

/-- is awake as long as it does, or under a stopped token, -/
theorem roused_of_spawn (adds : tr.Adds id added) (hmk : m < k) :
    Roused c.token c.id (tr.machine k) := by
  have hworld : _ = tr.history.world (m + 1) := congrArg Prod.snd hspawn
  obtain rfl : _ = c := congrArg Prod.fst hspawn
  have hnew : Roused (tr.history.world m).tokens.size (tr.history.world m).tasks.size
      ⟨{ tr.history.world m with
        tokens := (tr.history.world m).tokens.addBelow parent, spawned := true },
        (tr.machine (m + 1)).control⟩ := by
    intro s hs hid _
    have hlt := ((tr.sound_at m).waits s hs).1
    rw [hid] at hlt
    exact absurd hlt (Nat.lt_irrefl _)
  have hadded := hnew.addTask name (some (tr.history.world m).tokens.size)
    (body (tr.history.world m).tokens.size)
  refine roused_of_le adds ?_ hmk (m := m + 1) ?_
  · rw [← hworld, World.tokens_spawn, Tokens.size_addBelow]
    exact Nat.lt_succ_self _
  · rw [show tr.machine (m + 1) = ⟨tr.history.world (m + 1), (tr.machine (m + 1)).control⟩ from rfl,
      ← hworld]
    exact hadded

/-- has begun before time passes, -/
theorem begins_of_passing (adds : tr.Adds id added) (hmk : m < k)
    (passes : tr.history.clock k ≠ tr.history.clock (k + 1)) :
    ∃ j, m < j ∧ j ≤ k ∧ (tr.machine j).control = .running c.id (body c.token) := by
  have hid : (tr.history.world m).tasks.size = c.id := congrArg (fun x => Child.id x.1) hspawn
  have hgone : (tr.history.world m).begun (body c.token) ∉ (tr.machine k).world.suspended := by
    intro hs
    have roused := roused_of_spawn hspawn adds hmk
    exact passes (roused.clock_eq (idle_of_passing passes).1 (tr.sound_at k) hs hid (.inl rfl))
  obtain ⟨j, answer, w, hmj, hjk, running, -⟩ := resumes (begun_of_spawn hspawn) hmk hgone
  exact ⟨j + 1, Nat.lt_succ_of_lt hmj, hjk, hid ▸ running⟩

/-- and before it ends. -/
theorem begins_of_ended (hended : (tr.history.ended? k c.id).isSome) :
    ∃ j, m < j ∧ j ≤ k ∧ (tr.machine j).control = .running c.id (body c.token) := by
  have hid : (tr.history.world m).tasks.size = c.id := congrArg (fun x => Child.id x.1) hspawn
  obtain ⟨j, hmj, hjk, running⟩ := begins (begun_of_spawn hspawn) (hid ▸ hended)
  exact ⟨j + 1, Nat.lt_succ_of_lt hmj, hjk, hid ▸ running⟩

end Spawned

/-! ### Who waits for a permit -/

/-- Whoever holds a permit of the limit under which it was started has begun to execute its
runnable. -/
theorem Launches.hasBegun_of_heldBy (launches : tr.Launches m run) (adds : tr.Adds run.limit added)
    (hmk : m < k) (holds : 0 < (tr.machine k).world.heldBy run.limit run.child.id) :
    tr.HasBegun run k := by
  have hlater {k : Nat} (begun : tr.HasBegun run k) : tr.HasBegun run (k + 1) := by
    obtain ⟨j, hjk, control⟩ := begun
    exact ⟨j, Nat.le_succ_of_le hjk, control⟩
  replace hmk : m + 1 ≤ k := hmk
  induction hmk with
  | refl =>
    have hworld : _ = tr.history.world (m + 1) := congrArg Prod.snd launches
    rw [show (tr.machine (m + 1)).world = _ from hworld.symm, World.heldBy_spawn] at holds
    have hlt := World.lt_size_of_heldBy holds
    rw [launches.child_id] at hlt
    exact absurd hlt (Nat.lt_irrefl _)
  | @step k hmk ih =>
    rcases adds k with ⟨step, -⟩ | act | ⟨still, -⟩
    · rcases step.heldBy (tr.sound_at k) run.limit run.child.id with hsame | ⟨hzero, -⟩ | takes
      · exact hlater (ih (hsame ▸ holds))
      · rw [hzero] at holds
        exact absurd holds (Nat.lt_irrefl 0)
      · refine (early_or_letIn launches.early hmk).elim (fun early => ?_) fun letIn => ?_
        · exact ⟨k + 1, Nat.le_refl _, early.begins_of_takesUp (tr.sound_at k) takes⟩
        · obtain ⟨j, -, hjk, letIn⟩ := letIn
          exact ⟨j + 1, Nat.le_succ_of_le hjk, letIn.control⟩
    · exact hlater (ih (act.heldBy run.child.id ▸ holds))
    · exact hlater (ih (still ▸ holds))

/-- A run whose token is not stopped waits until it begins to execute its runnable, if the limit is
open. -/
theorem Launches.waits (launches : tr.Launches m run) (hmk : m < k)
    (unstopped : (tr.history.world k).isStopped run.child.token = false)
    (opened : ∀ j, m < j → ∃ l, (tr.history.world j).limits.get? run.limit = some l ∧
      l.closed = false) (unbegun : ¬ tr.HasBegun run k) : run.Waits (tr.machine k) := by
  replace hmk : m + 1 ≤ k := hmk
  induction hmk with
  | refl =>
    have hid : (tr.history.world m).tasks.size = run.child.id := launches.child_id.symm
    have hbegun := begun_of_spawn launches
    rw [World.begun, hid] at hbegun
    exact .begins _ hbegun
  | @step k hmk ih =>
    have unstopped' := (tr.history.later k).not_stopped unstopped
    have waits := ih unstopped' fun ⟨j, hjk, running⟩ => unbegun ⟨j, Nat.le_succ_of_le hjk, running⟩
    rcases tr.move k with move | still
    · refine (waits.move move (tr.sound_at k)).resolve_right ?_
      rintro ⟨granted, decided⟩
      exact unbegun ⟨k + 1, Nat.le_refl _, decided.execution unstopped' (opened k hmk)⟩
    · exact still (k + 1) (Nat.le_succ k) ▸ waits

/-- When time passes, a run that is early waits for its permit or is over. -/
theorem Launches.queues_or_over (launches : tr.Launches m run) (adds : tr.Adds id added)
    (hmk : m < k) (passes : tr.history.clock k ≠ tr.history.clock (k + 1))
    (early : run.Early (tr.machine k)) :
    (∃ order, run.queueing order ∈ (tr.machine k).world.suspended) ∨
      ∃ place, tr.history.ended? k run.child.id = some (place, .error .cancelled) := by
  obtain ⟨step, hidle, -⟩ := idle_of_passing passes
  cases early with
  | begins order mem =>
    have roused := roused_of_spawn launches adds hmk
    exact absurd (roused.clock_eq step (tr.sound_at k) mem rfl (.inl rfl)) passes
  | asks control | refused control =>
    rw [hidle] at control
    contradiction
  | queues order mem => exact .inl ⟨order, mem⟩
  | past place ended => exact .inr ⟨place, ended⟩

/-- When time passes, and a limit is open that has a permit at all, a run that has not begun to execute
its runnable is over, unless some task holds a permit that has not ended. -/
theorem Launches.over_of_passing {total : Nat} (launches : tr.Launches m run)
    (adds : tr.Adds run.limit added) (hmk : m < k)
    (passes : tr.history.clock k ≠ tr.history.clock (k + 1))
    (balanced : Balanced run.limit total (tr.machine k)) (pos : 0 < total)
    (opened : ∀ l, (tr.history.world k).limits.get? run.limit = some l → l.closed = false)
    (gone : ∀ task, 0 < (tr.machine k).world.heldBy run.limit task →
      tr.history.ended? k task ≠ none)
    (unbegun : ¬ tr.HasBegun run k) : (tr.history.ended? k run.child.id).isSome := by
  have early := launches.early_of_not_hasBegun hmk unbegun
  rcases launches.queues_or_over adds hmk passes early with ⟨order, mem⟩ | ⟨place, ended⟩
  · obtain ⟨-, idle, queue, outer⟩ := idle_of_passing passes
    obtain ⟨task, holds, unended⟩ := balanced.exists_holder (tr.sound_at k) idle queue outer opened
      pos mem (Request.wants_iff.mpr ⟨_, rfl⟩)
    exact absurd unended (gone task holds)
  · exact Option.isSome_iff_exists.mpr ⟨_, ended⟩

end Trace

end Orchestra
