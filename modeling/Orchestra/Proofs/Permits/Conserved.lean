import Orchestra.Proofs.Permits.Books
import Orchestra.Proofs.World.Trace

/-!
# Permits are conserved

Permits are neither made nor lost in a run of a world, apart from those that are added from outside.
`Machine.Act` lists what may be done from outside, as far as one limit is concerned: a run is started,
permits are added, the limit is closed, or something else happens that does not concern the limit,
such as a stop.
-/

namespace Orchestra

namespace Machine

variable {id : LimitId} {permits total added : Nat} {l : Limit} {w w' : World} {c : Control}
  {a b : Machine} {task : TaskId}

/-- What may be done to a world from outside, with the number of permits that this adds to a limit. -/
inductive Act (id : LimitId) : Nat → Machine → Machine → Prop
  | start (w : World) (name : String) (parent : TokenId) (body : TokenId → Task) :
      Act id 0 ⟨w, .idle⟩ ⟨(w.spawn name parent body).2, .idle⟩
  | enter (w : World) (program : Task) (outer : w.outer = none) :
      Act id 0 ⟨w, .idle⟩ ⟨{ w with outer := some w.tasks.size }.addTask "" none program, .idle⟩
  | leave (w : World) (outer : ∀ task, w.outer = some task → w.resume? task = none) :
      Act id 0 ⟨w, .idle⟩ ⟨{ w with outer := none }, .idle⟩
  | addPermits (w : World) (count : Nat) :
      Act id count ⟨w, .idle⟩ ⟨w.addPermits id count, .idle⟩
  | closeLimit (w : World) : Act id 0 ⟨w, .idle⟩ ⟨w.closeLimit id, .idle⟩
  | stop (w : World) (tokens : List TokenId) : Act id 0 ⟨w, .idle⟩ ⟨w.stop tokens, .idle⟩
  /-- Contexts and other limits are made, the queue is put into another order, and so on. -/
  | other {w w' : World} (steady : w.Steady w') (tasks : w'.tasks = w.tasks)
      (limit : w'.limits.get? id = w.limits.get? id)
      (tokens : ∀ token, w'.isStopped token = true → w.isStopped token = true) :
      Act id 0 ⟨w, .idle⟩ ⟨w', .idle⟩

theorem same_addPermits (w : World) (id : LimitId) (count : Nat) : w.Same (w.addPermits id count) := by
  induction count generalizing w with
  | zero => exact .refl w
  | succ count ih => exact (World.same_changeLimit w id Limit.release).trans (ih _)

theorem same_closeLimit (w : World) (id : LimitId) : w.Same (w.closeLimit id) := by
  unfold World.closeLimit
  split
  · exact .refl w
  · next l _ =>
    have hset : w.Same { w with limits := w.limits.modify id fun _ => l.close.1 } :=
      ⟨rfl, rfl, rfl, rfl, rfl, rfl, List.Subset.refl _, rfl, rfl⟩
    exact hset.trans (World.same_wakeAll _ _)

/-- These are things that may be done from outside. -/
theorem Act.touch (act : Act id added a b) : Touch a b := by
  cases act with
  | start w name parent body => exact .start w name parent body
  | enter w program outer => exact .enter w program outer
  | leave w outer => exact .leave w outer
  | addPermits w count => exact .change (same_addPermits w id added).steady
  | closeLimit w => exact .change (same_closeLimit w id).steady
  | stop w tokens => exact .change (World.steady_stop w tokens)
  | other steady => exact .change steady

/-- They keep the permits accounted for, with those that are added. -/
theorem Act.balanced (act : Act id added a b) (sound : Sound a) (balanced : Balanced id total a) :
    Balanced id (total + added) b := by
  obtain ⟨l, books⟩ := balanced
  cases act with
  | start => exact ⟨l, books.spawn _ _ _⟩
  | enter w program outer =>
    have hentered : Books id l total ⟨{ w with outer := some w.tasks.size }, .idle⟩ :=
      { books with
        woken := fun s hs hwants hnow => by
          rcases books.woken s hs hwants hnow with hqueue | houter | hturn
          · exact .inl hqueue
          · cases outer.symm.trans houter
          · contradiction }
    exact ⟨l, hentered.addTask "" none program⟩
  | leave w outer =>
    refine ⟨l, { books with woken := fun s hs hwants hnow => ?_ }⟩
    rcases books.woken s hs hwants hnow with hqueue | houter | hturn
    · exact .inl hqueue
    · exact (books.not_answered hwants hnow (sound.unanswered hs (outer s.id houter))).elim
    · contradiction
  | addPermits => exact books.addPermits added
  | closeLimit => exact ⟨_, books.closeLimit⟩
  | stop w tokens =>
    obtain ⟨hlimits, htasks⟩ := World.stop_keeps w tokens
    exact ⟨l, books.steady (World.steady_stop w tokens) (by rw [hlimits])
      (World.heldBy_congr htasks id)⟩
  | other steady tasks limit => exact ⟨l, books.steady steady limit (World.heldBy_congr tasks id)⟩

/-! ### A limit that is new -/

/-- Nobody holds a permit of a limit or waits for one. -/
structure Untouched (id : LimitId) (a : Machine) : Prop where
  unheld : ∀ task, a.world.heldBy id task = 0
  unwanted : ∀ s ∈ a.world.suspended, s.request.wants id = false

/-- Then all its permits are available. -/
theorem Untouched.balanced (untouched : Untouched id ⟨w, c⟩)
    (made : w.limits.get? id = some (.ofPermits permits)) : Balanced id permits ⟨w, c⟩ := by
  have hholders : w.holders id = [] := List.eq_nil_iff_forall_not_mem.mpr fun task htask => by
    rw [World.mem_holders, untouched.unheld] at htask
    exact Nat.lt_irrefl 0 htask
  have hnobody {P : Prop} (s : Suspended) (hs : s ∈ w.suspended)
      (hwants : s.request.wants id = true) : P :=
    absurd ((untouched.unwanted s hs).symm.trans hwants) Bool.false_ne_true
  exact ⟨.ofPermits permits,
    { there := made
      tidy := Limit.tidy_ofPermits permits
      balance := by
        rw [show World.holders _ id = [] from hholders]
        rfl
      waits := nofun
      lined := fun s hs hwants => hnobody s hs hwants
      woken := fun s hs hwants => hnobody s hs hwants
      unended := fun task htask => by
        rw [show World.holders _ id = [] from hholders] at htask
        contradiction }⟩

/-- The limit that is made next is untouched already before, -/
theorem Untouched.made (untouched : Untouched w.limits.size ⟨w, c⟩) (permits : Nat) (c' : Control) :
    Balanced w.limits.size permits
      ⟨{ w with limits := w.limits.push (.ofPermits permits) }, c'⟩ := by
  refine Untouched.balanced ⟨untouched.unheld, untouched.unwanted⟩ ?_
  exact (Table.get?_push _ _ _).trans (if_pos rfl)

/-! ### Who begins to wait -/

/-- Whoever waits after a step waited before, has just been started, or has just asked and has no
answer. -/
theorem Step.waited (step : Step a b) {s : Suspended} (hs : s ∈ b.world.suspended) :
    s ∈ a.world.suspended ∨
      (∃ starter name parent body next,
        a.control = .running starter (.spawn name parent body next) ∧
          s = a.world.begun (body a.world.tokens.size)) ∨
      a.control = .running s.id (.ask s.request s.next) ∧
        a.world.answer? s.id s.deadline s.request = none := by
  cases step with
  | answer there => exact .inl ((World.steady_answer? there).suspended ▸ hs)
  | @suspend w running r next unanswered =>
    obtain ⟨limits, hsame⟩ := World.suspend_eq w running r next
    rw [hsame.suspended] at hs
    rcases List.mem_append.mp hs with hs | hs
    · exact .inl hs
    · obtain rfl := List.mem_singleton.mp hs
      exact .inr (.inr ⟨rfl, unanswered⟩)
  | spawn =>
    rw [(World.spawn_keeps _ _ _ _).2.2] at hs
    rcases List.mem_append.mp hs with hs | hs
    · exact .inl hs
    · exact .inr (.inl ⟨_, _, _, _, _, rfl, List.mem_singleton.mp hs⟩)
  | done | panic => exact .inl ((World.finish_keeps _ _ _).2.2 ▸ hs)
  | endless | turn | drive | stay => exact .inl hs
  | resume found there =>
    exact .inl ((World.steady_answer? there).suspended ▸ (List.mem_filter.mp hs).1)
  | clock => exact .inl ((World.suspended_moveTo _ _) ▸ hs)

/-- From outside nobody is made to wait but new tasks. -/
theorem Act.waited (act : Act id added a b) {s : Suspended} (hs : s ∈ b.world.suspended) :
    s ∈ a.world.suspended ∨ s.request = .now := by
  have hnew {w : World} {t : Task} {s : Suspended} (hs : s ∈ w.suspended ++ [w.begun t]) :
      s ∈ w.suspended ∨ s.request = .now := by
    rcases List.mem_append.mp hs with hs | hs
    · exact .inl hs
    · obtain rfl := List.mem_singleton.mp hs
      exact .inr rfl
  cases act with
  | start => exact hnew ((World.spawn_keeps _ _ _ _).2.2 ▸ hs)
  | enter w program =>
    have hentered := (World.same_addTask { w with outer := some w.tasks.size } "" none program)
    rw [hentered.suspended] at hs
    exact hnew hs
  | leave => exact .inl hs
  | addPermits w count => exact .inl ((same_addPermits w id added).suspended ▸ hs)
  | closeLimit w => exact .inl ((same_closeLimit w id).suspended ▸ hs)
  | stop w tokens => exact .inl ((World.steady_stop w tokens).suspended ▸ hs)
  | other steady => exact .inl (steady.suspended ▸ hs)

/-! ### Who gains permits -/

/-- A task takes up a permit: it has asked for one, and goes on with the answer. -/
structure TakesUp (id : LimitId) (task : TaskId) (a b : Machine) : Prop where
  made : a.world.limits.get? id ≠ none
  gained : b.world.heldBy id task = a.world.heldBy id task + 1
  asked : ∃ token next, a.world.isStopped token = false ∧ b.control = .running task (next true) ∧
    (a.control = .running task (.ask (.acquire id token) next) ∨
      ∃ deadline order, ⟨task, .acquire id token, next, deadline, order⟩ ∈ a.world.suspended)

/-- A step leaves a task the permits that it has, unless the task takes up another one or ends. -/
theorem Step.heldBy (step : Step a b) (sound : Sound a) (id : LimitId) (task : TaskId) :
    b.world.heldBy id task = a.world.heldBy id task ∨
      (b.world.heldBy id task = 0 ∧ b.world.ended? task ≠ none) ∨ TakesUp id task a b := by
  cases step with
  | @answer w w' running r next answer there =>
    refine (World.heldBy_answer? there (sound.runs _ _ rfl).1 id task).imp_right ?_
    rintro ⟨rfl, gained, made, token, unstopped, heq⟩
    cases heq
    exact .inr ⟨made, gained, token, next, unstopped, rfl, .inl rfl⟩
  | suspend =>
    obtain ⟨limits, hsame⟩ := World.suspend_eq _ _ _ _
    exact .inl (World.heldBy_congr hsame.tasks id task)
  | spawn => exact .inl (World.heldBy_spawn _ _ _ _ id task)
  | @done w running | @panic w running =>
    rw [World.heldBy_finish]
    split
    · next heq =>
      subst heq
      refine .inr (.inl ⟨rfl, ?_⟩)
      obtain ⟨place, name, hended⟩ := World.ended?_finish (sound.runs _ _ rfl).1 _
      rw [hended]
      nofun
    · exact .inl rfl
  | endless | turn | drive | stay => exact .inl rfl
  | @resume w w' running s answer found there =>
    have hs := List.mem_of_find?_eq_some found
    have hid : s.id = running := by simpa using List.find?_some found
    have hsize : running < w.tasks.size := hid ▸ (sound.waits s hs).1
    refine (World.heldBy_answer? there hsize id task).imp_right ?_
    rintro ⟨rfl, gained, made, token, unstopped, heq⟩
    obtain ⟨sid, r, next, deadline, order⟩ := s
    obtain rfl : sid = task := hid
    cases heq
    exact .inr ⟨made, gained, token, next, unstopped, rfl, .inr ⟨deadline, order, hs⟩⟩
  | clock => exact .inl (World.heldBy_congr (World.same_wakeAll _ _).tasks id task)

/-- What is done from outside concerns nobody's permits. -/
theorem Act.heldBy (act : Act id added a b) (task : TaskId) :
    b.world.heldBy id task = a.world.heldBy id task := by
  cases act with
  | start => exact World.heldBy_spawn _ _ _ _ id task
  | enter w program =>
    exact World.heldBy_addTask { w with outer := some w.tasks.size } "" none program id task
  | leave => rfl
  | addPermits w count => exact World.heldBy_congr (same_addPermits w id added).tasks id task
  | closeLimit w => exact World.heldBy_congr (same_closeLimit w id).tasks id task
  | stop w tokens => exact World.heldBy_congr (World.stop_keeps w tokens).2 id task
  | other steady tasks limit => exact World.heldBy_congr tasks id task

/-- No limit is unmade by a step, -/
theorem Step.unmade (step : Step a b) (h : b.world.limits.get? id = none) :
    a.world.limits.get? id = none := by
  cases step with
  | answer there => exact World.unmade_of_answer? there h
  | resume found there => exact World.unmade_of_answer? there h
  | suspend => exact (World.unmade_suspend _ _ _ _ id).mp h
  | spawn => rwa [World.limits_spawn] at h
  | done | panic => exact (World.unmade_finish _ _ _ id).mp h
  | endless | turn | drive | stay => exact h
  | clock => rwa [World.limits_moveTo] at h

/-- nor from outside. -/
theorem Act.unmade (act : Act id added a b) (h : b.world.limits.get? id = none) :
    a.world.limits.get? id = none := by
  cases act with
  | start => rwa [World.limits_spawn] at h
  | enter => rwa [World.limits_addTask] at h
  | leave => exact h
  | addPermits w count =>
    induction added generalizing w with
    | zero => exact h
    | succ count ih => exact (World.unmade_changeLimit w id _ id).mp (ih _ h)
  | closeLimit w =>
    unfold World.closeLimit at h
    cases hl : w.limits.get? id with
    | none => rfl
    | some l =>
      rw [hl] at h
      dsimp only at h
      rw [World.limits_wakeAll, Table.get?_modify, if_pos rfl, hl] at h
      contradiction
  | stop w tokens => rwa [(World.stop_keeps w tokens).1] at h
  | other steady tasks limit => exact limit.symm.trans h

/-- A new wait for a limit that is not made is answered at once. -/
theorem answer?_of_unmade {r : Request} {deadline : Option Nat} (hwants : r.wants id = true)
    (h : w.limits.get? id = none) : w.answer? task deadline r ≠ none := by
  obtain ⟨token, rfl⟩ := Request.wants_iff.mp hwants
  simp only [World.answer?, World.admit?, h]
  split <;> exact Option.some_ne_none _

/-- As long as a limit is not made it is untouched. -/
theorem Step.untouched (step : Step a b) (sound : Sound a) (h : a.world.limits.get? id = none)
    (untouched : Untouched id a) : Untouched id b where
  unheld task := by
    rcases step.heldBy sound id task with hsame | ⟨hzero, -⟩ | takes
    · rw [hsame, untouched.unheld]
    · exact hzero
    · exact absurd h takes.made
  unwanted s hs := by
    rcases step.waited hs with hs | ⟨_, _, _, _, _, -, rfl⟩ | ⟨-, unanswered⟩
    · exact untouched.unwanted s hs
    · rfl
    · exact Bool.eq_false_iff.mpr fun hwants => answer?_of_unmade hwants h unanswered

theorem Act.untouched (act : Act id added a b) (untouched : Untouched id a) : Untouched id b where
  unheld task := (act.heldBy task).trans (untouched.unheld task)
  unwanted s hs := by
    rcases act.waited hs with hs | hnow
    · exact untouched.unwanted s hs
    · rw [hnow]
      rfl

end Machine

/-! ### In a run of a world -/

namespace Trace

open Machine

variable {tr : Trace} {id : LimitId} {permits : Nat} {added : Nat → Nat} {m k : Nat} {task : TaskId}

/-- At each moment the world takes a step, or something is done to it that adds so many permits to a
limit. -/
def Adds (tr : Trace) (id : LimitId) (added : Nat → Nat) : Prop :=
  ∀ m, (tr.machine m).Step (tr.machine (m + 1)) ∧ added m = 0 ∨
    Act id (added m) (tr.machine m) (tr.machine (m + 1)) ∨
    tr.machine (m + 1) = tr.machine m ∧ added m = 0

/-- The number of permits added before a moment. -/
def addedBefore (added : Nat → Nat) : (m : Nat) → Nat
  | 0 => 0
  | m + 1 => addedBefore added m + added m

/-- At each moment the permits are accounted for. -/
theorem balanced_of_le (adds : tr.Adds id added) (hmk : m ≤ k)
    (h : Balanced id (permits + addedBefore added m) (tr.machine m)) :
    Balanced id (permits + addedBefore added k) (tr.machine k) := by
  induction hmk with
  | refl => exact h
  | @step k _ ih =>
    rw [addedBefore, ← Nat.add_assoc]
    rcases adds k with ⟨step, hadded⟩ | act | ⟨still, hadded⟩
    · rw [hadded]
      exact step.balanced (tr.sound_at k) ih
    · exact act.balanced (tr.sound_at k) ih
    · rw [hadded, still]
      exact ih

/-- What steps keep, and what is done from outside keeps as well, holds from then on. -/
theorem Adds.induction {P : Machine → Prop} (adds : tr.Adds id added) (hmk : m ≤ k)
    (base : P (tr.machine m))
    (step : ∀ j, m ≤ j → (tr.machine j).Step (tr.machine (j + 1)) → P (tr.machine j) →
      P (tr.machine (j + 1)))
    (act : ∀ j, m ≤ j → Act id (added j) (tr.machine j) (tr.machine (j + 1)) → P (tr.machine j) →
      P (tr.machine (j + 1))) : P (tr.machine k) := by
  induction hmk with
  | refl => exact base
  | @step k hmk ih =>
    rcases adds k with ⟨hstep, -⟩ | hact | ⟨still, -⟩
    · exact step k hmk hstep ih
    · exact act k hmk hact ih
    · exact still ▸ ih

/-- Permits do not become fewer. -/
theorem exists_balanced_of_le (adds : tr.Adds id added) (hmk : m ≤ k)
    (h : Balanced id permits (tr.machine m)) :
    ∃ total, permits ≤ total ∧ Balanced id total (tr.machine k) := by
  apply adds.induction (P := fun a => ∃ total, permits ≤ total ∧ Balanced id total a) hmk
  · exact ⟨permits, Nat.le_refl _, h⟩
  · rintro j - step ⟨total, hle, balanced⟩
    exact ⟨total, hle, step.balanced (tr.sound_at j) balanced⟩
  · rintro j - act ⟨total, hle, balanced⟩
    exact ⟨total + added j, Nat.le_add_right_of_le hle, act.balanced (tr.sound_at j) balanced⟩

/-- Before it is made a limit is untouched. -/
theorem untouched_at (adds : tr.Adds id added) (untouched : Untouched id (tr.machine 0))
    (h : (tr.machine m).world.limits.get? id = none) : Untouched id (tr.machine m) := by
  refine adds.induction (P := fun a => a.world.limits.get? id = none → Untouched id a)
    (Nat.zero_le m) (fun _ => untouched) (fun j _ step ih h => ?_) (fun j _ act ih h => ?_) h
  · exact step.untouched (tr.sound_at j) (step.unmade h) (ih (step.unmade h))
  · exact act.untouched (ih (act.unmade h))

/-- Whoever holds a permit holds one until it ends. -/
theorem heldBy_of_le (adds : tr.Adds id added) (hmk : m ≤ k)
    (h : 0 < (tr.machine m).world.heldBy id task) (hended : tr.history.ended? k task = none) :
    0 < (tr.machine k).world.heldBy id task := by
  have hunended (j : Nat) (h : (tr.machine (j + 1)).world.ended? task = none) :
      (tr.machine j).world.ended? task = none := by
    cases hj : (tr.machine j).world.ended? task with
    | none => rfl
    | some e => exact absurd (((tr.history.later j).ended task e hj).symm.trans h) nofun
  refine adds.induction (P := fun a => a.world.ended? task = none → 0 < a.world.heldBy id task) hmk
    (fun _ => h) (fun j _ step ih hended => ?_) (fun j _ act ih hended => ?_) hended
  · rcases step.heldBy (tr.sound_at j) id task with hsame | ⟨-, hover⟩ | takes
    · exact hsame ▸ ih (hunended j hended)
    · exact absurd hended hover
    · exact takes.gained ▸ Nat.succ_pos _
  · exact (act.heldBy task).symm ▸ ih (hunended j hended)

end Trace

end Orchestra
