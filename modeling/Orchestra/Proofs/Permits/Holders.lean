import Orchestra.Proofs.World.Later
import Mathlib.Tactic.SplitIfs

/-!
# Who holds permits

A task holds the permits with which it was let in until it ends. The operations of a world are sorted
here by what they do to limits and to permits: only requests for a permit, the ending of a task and
what is done to a limit from outside concern them.
-/

namespace Orchestra

/-- Whether a request waits for a permit of a limit. -/
def Request.wants (limit : LimitId) : Request → Bool
  | .acquire l _ => l = limit
  | _ => false

theorem Request.wants_iff {limit : LimitId} {r : Request} :
    r.wants limit = true ↔ ∃ token, r = .acquire limit token := by
  cases r <;> simp [wants]

/-- A request waits for a permit of one limit or of none. -/
theorem Request.acquires_or_not (r : Request) :
    (∃ limit token, r = .acquire limit token) ∨ ∀ limit, r.wants limit = false := by
  cases r <;> simp [wants]

namespace World

/-- The number of permits of a limit that a task holds. -/
def heldBy (w : World) (limit : LimitId) (task : TaskId) : Nat :=
  match w.tasks.get? task with
  | some t => t.held.count limit
  | none => 0

/-- The tasks that hold permits of a limit, each of them once for each permit. -/
def holders (w : World) (limit : LimitId) : List TaskId :=
  (List.range w.tasks.size).flatMap fun task => List.replicate (w.heldBy limit task) task

variable {w w' : World} {limit : LimitId} {task : TaskId}

/-- Only a task that exists holds something. -/
theorem lt_size_of_heldBy (h : 0 < w.heldBy limit task) : task < w.tasks.size := by
  unfold heldBy at h
  cases ht : w.tasks.get? task with
  | none => simp [ht] at h
  | some t => exact Table.lt_size_of_get? ht

theorem mem_holders : task ∈ w.holders limit ↔ 0 < w.heldBy limit task := by
  unfold holders
  rw [List.mem_flatMap]
  constructor
  · rintro ⟨task', -, hmem⟩
    obtain ⟨hne, rfl⟩ := List.mem_replicate.mp hmem
    exact Nat.pos_of_ne_zero hne
  · intro h
    exact ⟨task, List.mem_range.mpr (lt_size_of_heldBy h),
      List.mem_replicate.mpr ⟨Nat.pos_iff_ne_zero.mp h, rfl⟩⟩

/-- New tasks hold nothing. -/
theorem holders_congr (size : w.tasks.size ≤ w'.tasks.size)
    (held : ∀ task, w'.heldBy limit task = w.heldBy limit task) :
    w'.holders limit = w.holders limit := by
  obtain ⟨d, hd⟩ := Nat.exists_eq_add_of_le size
  unfold holders
  rw [hd, funext held]
  clear hd
  induction d with
  | zero => rfl
  | succ d ih =>
    have hnone : w.heldBy limit (w.tasks.size + d) = 0 :=
      Nat.eq_zero_of_not_pos fun h => Nat.not_lt_of_le (Nat.le_add_right _ _) (lt_size_of_heldBy h)
    rw [← Nat.add_assoc, List.range_succ, List.flatMap_append, ih, List.flatMap_cons, hnone]
    exact List.append_nil _

theorem length_replicates {f g : Nat → Nat} {i : Nat} (hfg : ∀ j, j ≠ i → g j = f j) (n : Nat) :
    ((List.range n).flatMap fun j => List.replicate (g j) j).length +
        (if i < n then f i else 0) =
      ((List.range n).flatMap fun j => List.replicate (f j) j).length +
        (if i < n then g i else 0) := by
  induction n with
  | zero => rfl
  | succ n ih =>
    rw [List.range_succ, List.flatMap_append, List.flatMap_append, List.length_append,
      List.length_append]
    simp only [List.flatMap_cons, List.flatMap_nil, List.append_nil, List.length_replicate]
    by_cases hi : i = n
    · subst hi
      simp only [Nat.lt_irrefl, if_false, Nat.lt_succ_self, if_true] at ih ⊢
      omega
    · rw [hfg n (Ne.symm hi)]
      split_ifs at ih ⊢ <;> omega

/-- What one task takes or gives back. -/
theorem length_holders (size : w'.tasks.size = w.tasks.size) (htask : task < w.tasks.size)
    (held : ∀ task', task' ≠ task → w'.heldBy limit task' = w.heldBy limit task') :
    (w'.holders limit).length + w.heldBy limit task =
      (w.holders limit).length + w'.heldBy limit task := by
  have hlength := length_replicates held w.tasks.size
  simp only [if_pos htask] at hlength
  rw [holders, holders, size]
  exact hlength

theorem heldBy_congr (tasks : w'.tasks = w.tasks) (limit : LimitId) (task : TaskId) :
    w'.heldBy limit task = w.heldBy limit task := by
  rw [heldBy, heldBy, tasks]

/-! ### What the operations do to limits and permits -/

theorem limits_wake (w : World) (task : TaskId) : (w.wake task).limits = w.limits := by
  unfold wake
  split <;> rfl

theorem limits_foldl {α : Type} {f : World → α → World}
    (hf : ∀ (w : World) a, (f w a).limits = w.limits) (l : List α) (w : World) :
    (l.foldl f w).limits = w.limits := by
  induction l generalizing w with
  | nil => rfl
  | cons a rest ih => exact (ih (f w a)).trans (hf w a)

theorem limits_wakeAll (w : World) (tasks : List TaskId) : (w.wakeAll tasks).limits = w.limits :=
  limits_foldl limits_wake tasks w

theorem limits_addTask (w : World) (name : String) (token : Option TokenId) (program : Task) :
    (w.addTask name token program).limits = w.limits :=
  limits_wake (w.pushTask name token program) w.tasks.size

theorem limits_spawn (w : World) (name : String) (parent : TokenId) (body : TokenId → Task) :
    (w.spawn name parent body).2.limits = w.limits :=
  limits_addTask { w with tokens := w.tokens.addBelow parent, spawned := true } name _ _

theorem limits_moveTo (w : World) (instant : Nat) : (w.moveTo instant).limits = w.limits :=
  limits_wakeAll { w with now := instant } _

/-- A stop concerns neither limits nor permits. -/
theorem stop_keeps (w : World) (tokens : List TokenId) :
    (w.stop tokens).limits = w.limits ∧ (w.stop tokens).tasks = w.tasks := by
  induction tokens generalizing w with
  | nil => exact ⟨rfl, rfl⟩
  | cons token rest ih =>
    obtain ⟨hlimits, htasks⟩ := ih (w.stopOne token)
    have hone : (w.stopOne token).limits = w.limits :=
      (limits_wakeAll _ _).trans (limits_foldl (fun w _ => limits_wakeAll w _) _ _)
    exact ⟨hlimits.trans hone, htasks.trans (same_stopOne w token).tasks⟩

/-- A change of a limit affects this limit only. -/
theorem get?_changeLimit (w : World) (changed : LimitId) (change : Limit → Limit × Option TaskId)
    (limit : LimitId) : (w.changeLimit changed change).limits.get? limit =
      if changed = limit then (w.limits.get? limit).map fun l => (change l).1
      else w.limits.get? limit := by
  unfold changeLimit
  cases hl : w.limits.get? changed with
  | none =>
    dsimp only
    split
    · next h => rw [← h, hl, Option.map_none]
    · rfl
  | some l =>
    have hset : (w.limits.modify changed fun _ => (change l).1).get? limit =
        if changed = limit then (w.limits.get? limit).map fun l => (change l).1
        else w.limits.get? limit := by
      rw [Table.get?_modify]
      split
      · next h => rw [← h, hl]; rfl
      · rfl
    dsimp only
    split
    · rw [limits_wake]
      exact hset
    · exact hset

/-- No limit is made or unmade by a change. -/
theorem unmade_changeLimit (w : World) (changed : LimitId)
    (change : Limit → Limit × Option TaskId) (limit : LimitId) :
    (w.changeLimit changed change).limits.get? limit = none ↔ w.limits.get? limit = none := by
  rw [get?_changeLimit]
  split
  · exact Option.map_eq_none_iff
  · rfl

theorem unmade_releaseAll (w : World) (limits : List LimitId) (limit : LimitId) :
    (w.releaseAll limits).limits.get? limit = none ↔ w.limits.get? limit = none := by
  induction limits generalizing w with
  | nil => rfl
  | cons first rest ih => exact (ih (w.release first)).trans (unmade_changeLimit w first _ limit)

/-- A task that begins to wait for a permit joins the queue of the limit, and of no other. -/
theorem get?_limits_suspend (w : World) (task : TaskId) (r : Request) (next : r.Answer → Task)
    (limit : LimitId) : (w.suspend task r next).limits.get? limit =
      if r.wants limit = true then (w.limits.get? limit).map fun l => l.enqueue task
      else w.limits.get? limit := by
  unfold suspend
  dsimp only
  rw [apply_ite World.limits, limits_wake, ite_self]
  cases r with
  | acquire other token => simp [Table.get?_modify, Request.wants]
  | _ => rfl

theorem unmade_suspend (w : World) (task : TaskId) (r : Request) (next : r.Answer → Task)
    (limit : LimitId) :
    (w.suspend task r next).limits.get? limit = none ↔ w.limits.get? limit = none := by
  rw [get?_limits_suspend]
  split
  · exact Option.map_eq_none_iff
  · rfl

/-- Whoever a change lets in is woken. -/
theorem mem_queue_changeLimit {l : Limit} {change : Limit → Limit × Option TaskId}
    (there : w.limits.get? limit = some l) (granted : (change l).2 = some task) :
    task ∈ (w.changeLimit limit change).queue ∨ w.outer = some task := by
  unfold changeLimit
  rw [there]
  dsimp only
  rw [granted]
  exact mem_queue_wake { w with limits := w.limits.modify limit fun _ => (change l).1 } task

/-- Without an answer neither a stop nor the limit has decided. -/
theorem of_acquire_unanswered {l : Limit} {deadline : Option Nat} {token : TokenId}
    (there : w.limits.get? limit = some l)
    (unanswered : w.answer? task deadline (.acquire limit token) = none) :
    w.isStopped token = false ∧ l.admit? task = none := by
  simp only [answer?] at unanswered
  split at unanswered
  · contradiction
  · next hstopped =>
    refine ⟨Bool.eq_false_iff.mpr hstopped, ?_⟩
    unfold admit? at unanswered
    rw [there] at unanswered
    dsimp only at unanswered
    split at unanswered
    · assumption
    · contradiction

/-- Other requests concern no permits, and no limits but the one that they make. -/
theorem answer?_keeps {deadline : Option Nat} {r : Request} {a : r.Answer}
    (h : w.answer? task deadline r = some (a, w')) (hr : ∀ limit, r.wants limit = false) :
    w'.tasks = w.tasks ∧ (w'.limits = w.limits ∨
      ∃ permits, r = .newLimit permits ∧ w'.limits = w.limits.push (.ofPermits permits)) := by
  cases r with
  | isStopped | now | stopwatch | record | log | count | offer =>
    cases h
    exact ⟨rfl, .inl rfl⟩
  | stop tokens =>
    cases h
    exact ⟨(stop_keeps w tokens).2, .inl (stop_keeps w tokens).1⟩
  | newLimit permits =>
    cases h
    exact ⟨rfl, .inr ⟨permits, rfl, rfl⟩⟩
  | acquire limit token => exact absurd (hr limit) (by simp [Request.wants])
  | sleep =>
    obtain rfl := eq_of_answer?_sleep h
    exact ⟨rfl, .inl rfl⟩
  | nextChild =>
    obtain rfl := eq_of_answer?_nextChild h
    exact ⟨rfl, .inl rfl⟩

/-- A task that is let in holds one permit more. -/
theorem heldBy_admitted (w : World) (limit limit' : LimitId) (task task' : TaskId) :
    heldBy { w with tasks := w.tasks.modify task fun t => { t with held := limit :: t.held } }
      limit' task' =
    w.heldBy limit' task' +
      if task = task' ∧ limit = limit' ∧ task < w.tasks.size then 1 else 0 := by
  simp only [heldBy, Table.get?_modify]
  by_cases heq : task = task'
  · subst heq
    simp only [if_true, true_and]
    cases ht : w.tasks.get? task with
    | none =>
      have hle := (w.tasks.get?_eq_none_iff task).mp ht
      rw [if_neg fun h => absurd h.2 (Nat.not_lt_of_le hle)]
      rfl
    | some t =>
      have hlt := Table.lt_size_of_get? ht
      simp only [Option.map_some, List.count_cons, hlt, and_true, beq_iff_eq]
  · simp only [heq, if_false, false_and, Nat.add_zero]

/-- A task gains a permit only by an answer that lets it in. -/
theorem heldBy_answer? {deadline : Option Nat} {r : Request} {a : r.Answer}
    (h : w.answer? task deadline r = some (a, w')) (hsize : task < w.tasks.size) (limit : LimitId)
    (task' : TaskId) :
    w'.heldBy limit task' = w.heldBy limit task' ∨
      task' = task ∧ w'.heldBy limit task' = w.heldBy limit task' + 1 ∧
        w.limits.get? limit ≠ none ∧ ∃ token, w.isStopped token = false ∧
          (⟨r, a⟩ : (r : Request) × r.Answer) = ⟨.acquire limit token, true⟩ := by
  rcases r.acquires_or_not with ⟨other, token, rfl⟩ | hnone
  · rcases answer?_acquire h with ⟨-, -, rfl⟩ | ⟨-, -, rfl⟩ | ⟨hopen, l, l', hl, -, rfl⟩
    · exact .inl (heldBy_congr (same_changeLimit w other _).tasks limit task')
    · exact .inl rfl
    · cases a with
      | false => exact .inl rfl
      | true =>
        have hheld := heldBy_admitted w other limit task task'
        by_cases heq : task = task' ∧ other = limit
        · obtain ⟨rfl, rfl⟩ := heq
          rw [if_pos ⟨rfl, rfl, hsize⟩] at hheld
          exact .inr ⟨rfl, hheld, by rw [hl]; nofun, token, hopen, rfl⟩
        · rw [if_neg fun h => heq ⟨h.1, h.2.1⟩] at hheld
          exact .inl hheld
  · exact .inl (heldBy_congr (answer?_keeps h hnone).1 limit task')

/-- A task that is let in was not stopped, and holds a permit. -/
theorem heldBy_of_admitted {deadline : Option Nat} {token : TokenId}
    (h : w.answer? task deadline (.acquire limit token) = some (true, w'))
    (hsize : task < w.tasks.size) :
    w.isStopped token = false ∧ 0 < w'.heldBy limit task := by
  rcases answer?_acquire h with ⟨-, hfalse, -⟩ | ⟨-, hfalse, -⟩ | ⟨hopen, l, l', -, -, rfl⟩
  · contradiction
  · contradiction
  · refine ⟨hopen, ?_⟩
    have hheld := heldBy_admitted w limit limit task task
    rw [if_pos ⟨rfl, rfl, hsize⟩] at hheld
    exact Nat.lt_of_lt_of_eq (Nat.succ_pos _) hheld.symm

/-- A request that does not wait for a permit of a limit leaves the limit as it is, once that has been
made. -/
theorem get?_limits_answer? {deadline : Option Nat} {r : Request} {a : r.Answer}
    (h : w.answer? task deadline r = some (a, w')) (hwants : r.wants limit = false)
    (made : limit < w.limits.size) : w'.limits.get? limit = w.limits.get? limit := by
  rcases r.acquires_or_not with ⟨other, token, rfl⟩ | hnone
  · have hne : other ≠ limit := of_decide_eq_false hwants
    rcases answer?_acquire h with ⟨-, -, rfl⟩ | ⟨-, -, rfl⟩ | ⟨-, l, l', -, -, rfl⟩
    · rw [get?_changeLimit, if_neg hne]
    · rfl
    · exact (Table.get?_modify _ _ _ _).trans (if_neg hne)
  · rcases (answer?_keeps h hnone).2 with hlimits | ⟨permits, -, hlimits⟩
    · rw [hlimits]
    · rw [hlimits]
      exact (Table.get?_push _ _ _).trans (if_neg (Nat.ne_of_lt made))

/-- No limit is unmade by an answer. -/
theorem unmade_of_answer? {deadline : Option Nat} {r : Request} {a : r.Answer}
    (h : w.answer? task deadline r = some (a, w')) (hnone : w'.limits.get? limit = none) :
    w.limits.get? limit = none := by
  rcases r.acquires_or_not with ⟨other, token, rfl⟩ | hothers
  · rcases answer?_acquire h with ⟨-, -, rfl⟩ | ⟨-, -, rfl⟩ | ⟨-, l, l', -, -, rfl⟩
    · exact (unmade_changeLimit w other _ limit).mp hnone
    · exact hnone
    · rw [Table.get?_modify] at hnone
      split at hnone
      · exact Option.map_eq_none_iff.mp hnone
      · exact hnone
  · rcases (answer?_keeps h hothers).2 with hlimits | ⟨permits, -, hlimits⟩
    · exact hlimits ▸ hnone
    · rw [hlimits, Table.get?_push] at hnone
      split at hnone
      · contradiction
      · exact hnone

/-- A task that ends holds no permit any more. -/
theorem heldBy_markEnded (w : World) {t : TaskState} (h : w.tasks.get? task = some t)
    (ending : Ending) (limit : LimitId) (task' : TaskId) :
    (w.markEnded task t ending).heldBy limit task' =
      if task = task' then 0 else w.heldBy limit task' := by
  simp only [heldBy, markEnded, Table.get?_modify]
  by_cases heq : task = task'
  · subst heq
    simp only [if_true, h, Option.map_some, List.count_nil]
  · simp only [heq, if_false]

theorem heldBy_finish (w : World) (task : TaskId) (ending : Ending) (limit : LimitId)
    (task' : TaskId) : (w.finish task ending).heldBy limit task' =
      if task = task' then 0 else w.heldBy limit task' := by
  cases ht : w.tasks.get? task with
  | none =>
    have hfinish : w.finish task ending = w := by rw [finish, ht]
    rw [hfinish]
    split
    · next heq => rw [← heq, heldBy, ht]
    · rfl
  | some t =>
    have hsame := same_releaseAll w t.held
    have ht' : (w.releaseAll t.held).tasks.get? task = some t := hsame.tasks ▸ ht
    rw [finish_eq ht, heldBy_congr (same_wakeAll _ _).tasks, heldBy_markEnded _ ht',
      heldBy_congr hsame.tasks]

theorem unmade_finish (w : World) (task : TaskId) (ending : Ending) (limit : LimitId) :
    (w.finish task ending).limits.get? limit = none ↔ w.limits.get? limit = none := by
  cases ht : w.tasks.get? task with
  | none =>
    have hfinish : w.finish task ending = w := by rw [finish, ht]
    rw [hfinish]
  | some t =>
    rw [finish_eq ht, limits_wakeAll]
    exact unmade_releaseAll w t.held limit

/-- A new task holds none yet. -/
theorem heldBy_pushTask (w : World) (name : String) (token : Option TokenId) (program : Task)
    (limit : LimitId) (task : TaskId) :
    (w.pushTask name token program).heldBy limit task = w.heldBy limit task := by
  simp only [heldBy, pushTask, Table.get?_push]
  by_cases heq : task = w.tasks.size
  · simp only [heq, if_true, (w.tasks.get?_eq_none_iff _).mpr (Nat.le_refl _), List.count_nil]
  · simp only [heq, if_false]

theorem heldBy_addTask (w : World) (name : String) (token : Option TokenId) (program : Task)
    (limit : LimitId) (task : TaskId) :
    (w.addTask name token program).heldBy limit task = w.heldBy limit task :=
  (heldBy_congr (same_addTask w name token program).tasks limit task).trans
    (heldBy_pushTask w name token program limit task)

theorem heldBy_spawn (w : World) (name : String) (parent : TokenId) (body : TokenId → Task)
    (limit : LimitId) (task : TaskId) :
    (w.spawn name parent body).2.heldBy limit task = w.heldBy limit task :=
  heldBy_addTask { w with tokens := w.tokens.addBelow parent, spawned := true } name _ _ limit task

end World

end Orchestra
