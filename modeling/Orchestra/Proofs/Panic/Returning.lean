import Orchestra.Proofs.World.Trace

/-!
# A panic is a failure that is returned

The world keeps how a task has ended, but only the outcome is ever looked at. So the world in which a
task that has panicked is said to have returned its failure goes on in the same way: every operation does
the same in both, whoever asks and whatever is done from outside. A trace in which a task panics is thus,
from this moment on, one in which its program returned the failure.
-/

namespace Orchestra

theorem Table.eq_of_get? {α : Type} {t t' : Table α} (h : ∀ i, t.get? i = t'.get? i) : t = t' := by
  obtain ⟨entries⟩ := t
  obtain ⟨entries'⟩ := t'
  exact congrArg Table.mk (Array.ext_getElem? h)

/-- Changes of different entries do not depend on their order. -/
theorem Table.modify_comm {α : Type} (t : Table α) {i j : Nat} (hne : i ≠ j) (f g : α → α) :
    (t.modify i f).modify j g = (t.modify j g).modify i f := by
  refine Table.eq_of_get? fun k => ?_
  simp only [Table.get?_modify]
  by_cases hi : i = k
  · have hj : j ≠ k := fun hj => hne (hi.trans hj.symm)
    simp only [if_neg hj]
  · simp only [if_neg hi]

/-- A new entry is not changed by what changes another one. -/
theorem Table.push_modify {α : Type} (t : Table α) {i : Nat} (hi : i < t.size) (f : α → α) (a : α) :
    (t.modify i f).push a = (t.push a).modify i f := by
  refine Table.eq_of_get? fun k => ?_
  simp only [Table.get?_push, Table.get?_modify, Table.size_modify]
  by_cases hk : k = t.size
  · have hik : i ≠ k := hk ▸ Nat.ne_of_lt hi
    simp only [if_pos hk, if_neg hik]
  · simp only [if_neg hk]

/-- A task that has returned what is seen of its ending. -/
def TaskState.returning (t : TaskState) : TaskState :=
  { t with result := t.result.map fun (place, ending) => (place, .returned (ending.outcome t.name)) }

namespace World

variable {w w' : World} {task task' : TaskId}

/-- The world in which a task, if it has ended, has returned what is seen of its ending. -/
def returning (w : World) (task : TaskId) : World :=
  { w with tasks := w.tasks.modify task TaskState.returning }

/-- Whoever has ended is a task. -/
theorem lt_size_of_ended (ended : (w.ended? task).isSome) : task < w.tasks.size := by
  obtain ⟨e, he⟩ := Option.isSome_iff_exists.mp ended
  obtain ⟨t, ht, -⟩ := Option.bind_eq_some_iff.mp he
  exact Table.lt_size_of_get? ht

/-- It shows the same endings. -/
theorem ended?_returning (w : World) (task other : TaskId) :
    (w.returning task).ended? other = w.ended? other := by
  simp only [ended?, returning, Table.get?_modify]
  split
  · cases w.tasks.get? other with
    | none => rfl
    | some t => cases ht : t.result <;> simp [TaskState.returning, ht, Ending.outcome]
  · rfl

theorem steady_returning (w : World) (task : TaskId) : w.Steady (w.returning task) where
  clock := rfl
  order := rfl
  outer := rfl
  tokens := .refl _
  size := Table.size_modify _ _ _
  ended := ended?_returning w task
  suspended := rfl
  queue := List.Subset.refl _

/-! ### Operations do the same -/

theorem wake_returning (w : World) (woken : TaskId) :
    (w.returning task).wake woken = (w.wake woken).returning task := by
  have houter : (w.returning task).outer = w.outer := rfl
  have hqueue : (w.returning task).queue = w.queue := rfl
  unfold wake
  rw [houter, hqueue]
  split <;> rfl

theorem foldl_returning {α : Type} {f : World → α → World}
    (hf : ∀ w a, f (w.returning task) a = (f w a).returning task) (l : List α) (w : World) :
    l.foldl f (w.returning task) = (l.foldl f w).returning task := by
  induction l generalizing w with
  | nil => rfl
  | cons a l ih => rw [List.foldl_cons, List.foldl_cons, hf, ih]

theorem wakeAll_returning (w : World) (tasks : List TaskId) :
    (w.returning task).wakeAll tasks = (w.wakeAll tasks).returning task :=
  foldl_returning wake_returning tasks w

theorem stopOne_returning (w : World) (token : TokenId) :
    (w.returning task).stopOne token = (w.stopOne token).returning task := by
  have hreached := foldl_returning
    (f := fun w t => World.wakeAll w (w.waiters fun s => s.request.endsWith t))
    (fun w t => @wakeAll_returning task w _) (w.tokens.reached token)
    { w with tokens := w.tokens.issueStop token }
  have hrest := congrArg
    (fun v => World.wakeAll v (v.waiters fun s => s.request.endedBy v.isStopped)) hreached
  exact hrest.trans (wakeAll_returning _ _)

theorem stop_returning (w : World) (tokens : List TokenId) :
    (w.returning task).stop tokens = (w.stop tokens).returning task :=
  foldl_returning stopOne_returning tokens w

theorem changeLimit_returning (w : World) (limit : LimitId)
    (change : Limit → Limit × Option TaskId) :
    (w.returning task).changeLimit limit change = (w.changeLimit limit change).returning task := by
  have hlimits : (w.returning task).limits = w.limits := rfl
  unfold changeLimit
  rw [hlimits]
  cases w.limits.get? limit with
  | none => rfl
  | some l =>
    dsimp only
    cases (change l).2 with
    | none => rfl
    | some woken =>
      exact wake_returning { w with limits := w.limits.modify limit fun _ => (change l).1 } woken

theorem releaseAll_returning (w : World) (limits : List LimitId) :
    (w.returning task).releaseAll limits = (w.releaseAll limits).returning task :=
  foldl_returning (fun w limit => changeLimit_returning w limit Limit.release) limits w

theorem moveTo_returning (w : World) (instant : Nat) :
    (w.returning task).moveTo instant = (w.moveTo instant).returning task :=
  wakeAll_returning { w with now := instant } _

theorem firstCompletion?_returning (w : World) (pending : List Pending) :
    (w.returning task).firstCompletion? pending = w.firstCompletion? pending := by
  have hcompletion : (w.returning task).completion? = w.completion? := funext fun p => by
    rw [completion?_eq, completion?_eq, ended?_returning]
  rw [firstCompletion?, firstCompletion?, hcompletion]

theorem admit?_returning (w : World) (hne : task' ≠ task) (limit : LimitId) :
    (w.returning task).admit? task' limit =
      (w.admit? task' limit).map (Prod.map id (returning · task)) := by
  have hlimits : (w.returning task).limits = w.limits := rfl
  unfold admit?
  rw [hlimits]
  cases w.limits.get? limit with
  | none => rfl
  | some l =>
    dsimp only
    cases l.admit? task' with
    | none => rfl
    | some x =>
      obtain ⟨granted, l'⟩ := x
      cases granted with
      | false => rfl
      | true =>
        dsimp only [returning, Option.map_some, Prod.map, id, if_true]
        rw [if_pos rfl, if_pos rfl, Table.modify_comm _ (Ne.symm hne)]

theorem deadline?_returning (w : World) (r : Request) :
    (w.returning task).deadline? r = w.deadline? r := by
  cases r with
  | nextChild pending patience => cases patience <;> rfl
  | _ => rfl

/-- Requests have the same answers. -/
theorem answer?_returning (w : World) (hne : task' ≠ task) (deadline : Option Nat) (r : Request) :
    (w.returning task).answer? task' deadline r =
      (w.answer? task' deadline r).map (Prod.map id (returning · task)) := by
  cases r with
  | isStopped | now | stopwatch | newLimit | record | log | count | offer => rfl
  | stop tokens => exact congrArg (fun v => some ((), v)) (stop_returning w tokens)
  | sleep span token =>
    have hdue : (w.returning task).isDue deadline = w.isDue deadline := rfl
    have hstopped : (w.returning task).isStopped = w.isStopped := rfl
    simp only [answer?]
    rw [hdue, hstopped]
    split
    · rfl
    · split <;> rfl
  | nextChild pending patience =>
    have hover : (w.returning task).patienceOver patience = w.patienceOver patience := by
      cases patience <;> rfl
    simp only [answer?]
    rw [firstCompletion?_returning, hover]
    split
    · rfl
    · split <;> rfl
  | acquire limit token =>
    have hstopped : (w.returning task).isStopped token = w.isStopped token := rfl
    simp only [answer?]
    rw [hstopped]
    split
    · exact congrArg (fun v => some (false, v)) (changeLimit_returning w limit _)
    · exact admit?_returning w hne limit

theorem suspend_returning (w : World) (task' : TaskId) (r : Request) (next : r.Answer → Task) :
    (w.returning task).suspend task' r next = (w.suspend task' r next).returning task := by
  have hspawned : (w.returning task).spawned = w.spawned := rfl
  unfold suspend
  rw [deadline?_returning, hspawned]
  dsimp only
  split
  · refine Eq.trans ?_ (wake_returning _ task')
    rfl
  · rfl

theorem addTask_returning (hlt : task < w.tasks.size) (name : String) (token : Option TokenId)
    (program : Task) : (w.returning task).addTask name token program =
      (w.addTask name token program).returning task := by
  have hsize : (w.returning task).tasks.size = w.tasks.size := Table.size_modify _ _ _
  have hpush : (w.returning task).pushTask name token program =
      (w.pushTask name token program).returning task := by
    unfold pushTask begun
    rw [hsize]
    dsimp only [returning]
    rw [Table.push_modify _ hlt]
  rw [addTask_eq, addTask_eq, hpush, hsize]
  exact wake_returning _ _

theorem spawn_returning (hlt : task < w.tasks.size) (name : String) (parent : TokenId)
    (body : TokenId → Task) : (w.returning task).spawn name parent body =
      ((w.spawn name parent body).1, (w.spawn name parent body).2.returning task) := by
  have hsize : (w.returning task).tasks.size = w.tasks.size := Table.size_modify _ _ _
  unfold spawn
  dsimp only
  rw [hsize]
  exact congrArg (Prod.mk _) (addTask_returning
    (w := { w with tokens := w.tokens.addBelow parent, spawned := true }) hlt name _ _)

theorem finish_returning (w : World) (hne : task' ≠ task) (ending : Ending) :
    (w.returning task).finish task' ending = (w.finish task' ending).returning task := by
  have hget : (w.returning task).tasks.get? task' = w.tasks.get? task' := by
    rw [returning, Table.get?_modify, if_neg (Ne.symm hne)]
  cases ht : w.tasks.get? task' with
  | none =>
    rw [finish, finish, hget, ht]
  | some t =>
    have hended (v : World) :
        (v.returning task).markEnded task' t ending = (v.markEnded task' t ending).returning task := by
      unfold markEnded
      dsimp only [returning]
      rw [Table.modify_comm _ (Ne.symm hne)]
    rw [finish_eq ht, finish_eq (hget.trans ht)]
    dsimp only
    rw [releaseAll_returning, hended]
    exact wakeAll_returning _ _

/-- The world in which a task has ended, as one in which it has returned what is seen of its ending. -/
theorem returning_finish {t : TaskState} (ht : w.tasks.get? task = some t) (ending : Ending) :
    (w.finish task ending).returning task = w.finish task (.returned (ending.outcome t.name)) := by
  have ht' : (w.releaseAll t.held).tasks.get? task = some t := (same_releaseAll w t.held).tasks ▸ ht
  have hended : ((w.releaseAll t.held).markEnded task t ending).returning task =
      (w.releaseAll t.held).markEnded task t (.returned (ending.outcome t.name)) := by
    unfold markEnded
    dsimp only [returning]
    congr 1
    refine Table.eq_of_get? fun i => ?_
    simp only [Table.get?_modify]
    split
    · next heq =>
      subst heq
      rw [ht']
      rfl
    · rfl
  rw [finish_eq ht, finish_eq ht]
  dsimp only
  rw [← wakeAll_returning, hended]
  rfl

end World

/-! ### Steps are the same -/

namespace Machine

variable {a b : Machine} {w w' : World} {c : Control} {task : TaskId}

/-- The machine in which a task, if it has ended, has returned what is seen of its ending. -/
def returning (a : Machine) (task : TaskId) : Machine :=
  ⟨a.world.returning task, a.control⟩

theorem Sound.returning (sound : a.Sound) (task : TaskId) : (a.returning task).Sound :=
  Sound.steady sound (World.steady_returning a.world task)

/-- Whoever waits has not ended. -/
theorem Sound.ne_of_found {turn : TaskId} {s : Suspended} (sound : Sound ⟨w, c⟩)
    (found : (w.suspended.find? fun s => s.id = turn) = some s) (ended : (w.ended? task).isSome) :
    turn ≠ task := by
  rintro rfl
  have hid : s.id = turn := by simpa using List.find?_some found
  rw [← hid, (sound.waits s (List.mem_of_find?_eq_some found)).2] at ended
  contradiction

/-- A task whose turn has no effect could not go on in the other world either. -/
theorem resume?_returning {turn : TaskId} (sound : Sound ⟨w, c⟩)
    (ended : (w.ended? task).isSome) (h : w.resume? turn = none) :
    (w.returning task).resume? turn = none := by
  have hsuspended : (w.returning task).suspended = w.suspended := rfl
  unfold World.resume? at h ⊢
  rw [hsuspended]
  split at h
  · rfl
  · next s hs =>
    have hne : turn ≠ task := sound.ne_of_found hs ended
    rw [World.answer?_returning w hne]
    split at h
    · next hanswer => rw [hanswer]; rfl
    · contradiction

/-- The world in which the task has returned takes the same steps, -/
theorem Step.returning (step : Step a b) (sound : a.Sound)
    (ended : (a.world.ended? task).isSome) : Step (a.returning task) (b.returning task) := by
  have hlt : task < a.world.tasks.size := World.lt_size_of_ended ended
  have hne {task' : TaskId} {t : Task} (running : a.control = .running task' t) : task' ≠ task := by
    rintro rfl
    rw [(sound.runs _ t running).2.1] at ended
    contradiction
  have hanswer {w w' : World} {task' : TaskId} {deadline : Option Nat} {r : Request} {x : r.Answer}
      (hne : task' ≠ task) (there : w.answer? task' deadline r = some (x, w')) :
      (w.returning task).answer? task' deadline r = some (x, w'.returning task) := by
    rw [World.answer?_returning w hne, there]
    rfl
  cases step with
  | @answer w w' task' r next x there =>
    exact .answer (hanswer (hne rfl) ((World.deadline?_returning w r).symm ▸ there))
  | @suspend w task' r next unanswered =>
    have hnone : (w.returning task).answer? task' ((w.returning task).deadline? r) r = none := by
      rw [World.deadline?_returning, World.answer?_returning w (hne rfl), unanswered]
      rfl
    have hstep := @Step.suspend (w.returning task) task' r next hnone
    rwa [World.suspend_returning] at hstep
  | @spawn w task' name parent body next =>
    have hstep := @Step.spawn (w.returning task) task' name parent body next
    rwa [World.spawn_returning hlt] at hstep
  | @done w task' o =>
    have hstep := @Step.done (w.returning task) task' o
    rwa [World.finish_returning w (hne rfl)] at hstep
  | @panic w task' payload =>
    have hstep := @Step.panic (w.returning task) task' payload
    rwa [World.finish_returning w (hne rfl)] at hstep
  | endless => exact .endless
  | turn queue => exact .turn queue
  | drive outer => exact .drive outer
  | @resume w w' task' s x found there =>
    exact @Step.resume (w.returning task) _ task' s x found
      (hanswer (sound.ne_of_found found ended) there)
  | stay unanswered => exact .stay (resume?_returning sound ended unanswered)
  | @clock w instant queue outer le before =>
    have hstep := Step.clock (w := w.returning task) queue
      (fun task' houter => resume?_returning sound ended (outer task' houter)) le before
    rwa [World.moveTo_returning] at hstep

/-- and the same is done to it from outside. -/
theorem Touch.returning (touch : Touch a b) (sound : a.Sound)
    (ended : (a.world.ended? task).isSome) : Touch (a.returning task) (b.returning task) := by
  have hlt : task < a.world.tasks.size := World.lt_size_of_ended ended
  cases touch with
  | start w name parent body =>
    have htouch := Touch.start (w.returning task) name parent body
    rwa [World.spawn_returning hlt] at htouch
  | enter w program outer =>
    have htouch := Touch.enter (w.returning task) program outer
    have hsize : (w.returning task).tasks.size = w.tasks.size := Table.size_modify _ _ _
    have hadded : World.addTask { w.returning task with outer := some w.tasks.size } "" none program =
        (World.addTask { w with outer := some w.tasks.size } "" none program).returning task :=
      World.addTask_returning (w := { w with outer := some w.tasks.size }) hlt "" none program
    rwa [hsize, hadded] at htouch
  | leave w outer =>
    exact .leave _ fun task' houter => resume?_returning sound ended (outer task' houter)
  | @change w w' steady =>
    refine .change ⟨steady.clock, steady.order, steady.outer, steady.tokens, ?_, fun other => ?_,
      steady.suspended, steady.queue⟩
    · exact ((World.steady_returning w' task).size.trans steady.size).trans
        (World.steady_returning w task).size.symm
    · rw [World.ended?_returning, World.ended?_returning, steady.ended]

end Machine

namespace Trace

variable {tr : Trace} {k : Nat} {task : TaskId} {p : Payload}
  (running : (tr.machine k).control = .running task (.panic p))
  (moved : tr.machine (k + 1) ≠ tr.machine k)

include running moved

/-- A task that panics ends in this step. -/
theorem machine_of_panic :
    tr.machine (k + 1) = ⟨(tr.history.world k).finish task (.panicked p), .idle⟩ := by
  obtain ⟨-, -, hmachine, step⟩ := step_of_running running (Nat.le_succ k) moved
  rw [hmachine] at step
  generalize tr.machine (k + 1) = b at step
  cases step with
  | panic => rfl

/-- From the moment on at which a task panics, a trace goes on as one does in which its program has
returned the failure. -/
theorem exists_returning {t : TaskState} (ht : (tr.history.world k).tasks.get? task = some t) :
    ∃ tr' : Trace,
      tr'.machine 0 =
        ⟨tr.history.world k, .running task (.done (.error (.panicked t.name p.text)))⟩ ∧
      ∀ j, tr'.machine (j + 1) = (tr.machine (k + 1 + j)).returning task := by
  have hended (j : Nat) : ((tr.machine (k + 1 + j)).world.ended? task).isSome := by
    obtain ⟨place, name, hended⟩ := of_panic running (Nat.le_succ k) moved
    obtain hended : tr.history.ended? (k + 1 + j) task = _ :=
      (tr.history.later_of_le (Nat.le_add_right _ j)).ended _ _ hended
    exact Option.isSome_iff_exists.mpr ⟨_, hended⟩
  let rest : Trace :=
    { machine := fun j => (tr.machine (k + 1 + j)).returning task
      move := fun j => by
        rcases tr.move (k + 1 + j) with (step | touch) | still
        · exact .inl (.inl (step.returning (tr.sound_at _) (hended j)))
        · exact .inl (.inr (touch.returning (tr.sound_at _) (hended j)))
        · refine .inr fun i hji => congrArg (Machine.returning · task) (still _ ?_)
          exact Nat.add_le_add_left hji _
      sound := (tr.sound_at (k + 1)).returning task }
  have hreturned : rest.machine 0 = ⟨(tr.history.world k).finish task
      (.returned (.error (.panicked t.name p.text))), .idle⟩ :=
    (congrArg (Machine.returning · task) (machine_of_panic running moved)).trans
      (congrArg (Machine.mk · .idle) (World.returning_finish ht _))
  have hfirst : Machine.Step
      ⟨tr.history.world k, .running task (.done (.error (.panicked t.name p.text)))⟩
      (rest.machine 0) := by
    rw [hreturned]
    exact .done
  obtain ⟨-, sound, hmachine, -⟩ := step_of_running running (Nat.le_succ k) moved
  rw [hmachine] at sound
  exact ⟨cons _ rest (.inl hfirst) (sound.rest _), rfl, fun j => rfl⟩

end Trace

end Orchestra
