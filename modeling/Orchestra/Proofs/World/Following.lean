import Orchestra.Proofs.World.Alike
import Orchestra.Proofs.World.Alone

/-!
# What comes after a part of a program

A task may be followed by more once its program is over. Until then nobody notices: every operation
of the world does the same whether the waits of the task go on with more or not, since it looks at
what a task waits for and never at what the task will do then. So a machine moves as it does with the
part alone, up to the moment at which the part is over.
-/

namespace Orchestra

variable {task : TaskId} {K : Outcome → Task}

/-! ### Programs and waits -/

/-- The program of the task in question is followed by more, and any other is not. -/
def Task.followedBy (own : Bool) (K : Outcome → Task) (t : Task) : Task :=
  if own then t.andThen K else t

namespace Task

variable {own : Bool}

@[simp] theorem followedBy_true (t : Task) : t.followedBy true K = t.andThen K := rfl

@[simp] theorem followedBy_false (t : Task) : t.followedBy false K = t := rfl

@[simp] theorem followedBy_panic (payload : Payload) :
    (panic payload).followedBy own K = panic payload := by
  cases own <;> rfl

@[simp] theorem followedBy_endless : endless.followedBy own K = endless := by
  cases own <;> rfl

@[simp] theorem followedBy_ask (r : Request) (next : r.Answer → Task) :
    (ask r next).followedBy own K = ask r fun a => (next a).followedBy own K := by
  cases own <;> rfl

@[simp] theorem followedBy_spawn (name : String) (parent : TokenId) (body : TokenId → Task)
    (next : Child → Task) : (spawn name parent body next).followedBy own K =
      spawn name parent body fun c => (next c).followedBy own K := by
  cases own <;> rfl

end Task

/-- A wait of a task that is followed by more. -/
def Suspended.followedBy (task : TaskId) (K : Outcome → Task) (s : Suspended) : Suspended :=
  { s with next := fun a => (s.next a).followedBy (s.id = task) K }

/-- A wait of another task is not affected. -/
theorem Suspended.followedBy_of_ne {s : Suspended} (h : s.id ≠ task) :
    s.followedBy task K = s := by
  unfold followedBy
  rw [decide_eq_false h]
  rfl

namespace World

variable {w w' : World}

/-- The world in which a task is followed by more. -/
def followedBy (w : World) (task : TaskId) (K : Outcome → Task) : World :=
  w.dress (w.suspended.map (Suspended.followedBy task K)) w.profiles

/-- A task that does not wait is not affected. -/
theorem followedBy_eq_self (h : ∀ s ∈ w.suspended, s.id ≠ task) : w.followedBy task K = w := by
  have hmap : w.suspended.map (Suspended.followedBy task K) = w.suspended := by
    rw [List.map_congr_left fun s hs => Suspended.followedBy_of_ne (h s hs), List.map_id']
  rw [followedBy, hmap]
  rfl

/-- Whatever looks neither at waits nor at profiles does the same. -/
theorem Blind.followedBy {f : World → World} (hf : Blind f) (w : World) (task : TaskId)
    (K : Outcome → Task) : f (w.followedBy task K) = (f w).followedBy task K := by
  unfold World.followedBy
  rw [hf, hf.suspended, hf.profiles]

/-- What is no wait is the same. -/
theorem eq_followedBy {α : Type} {f : World → α}
    (hf : ∀ w suspended profiles, f (World.dress w suspended profiles) = f w) (w : World) :
    f (w.followedBy task K) = f w :=
  hf w _ _

theorem waiters_followedBy {p : Suspended → Bool}
    (hp : ∀ s : Suspended, p (s.followedBy task K) = p s) (w : World) :
    (w.followedBy task K).waiters p = w.waiters p := by
  have hfilter : p ∘ Suspended.followedBy task K = p := funext hp
  have hid : Suspended.id ∘ Suspended.followedBy task K = Suspended.id := rfl
  simp only [waiters, followedBy, dress, List.filter_map, List.map_map, hfilter, hid]

theorem wakeWaiters_followedBy {p : Suspended → Bool}
    (hp : ∀ s : Suspended, p (s.followedBy task K) = p s) (w : World) :
    (w.followedBy task K).wakeAll ((w.followedBy task K).waiters p) =
      (w.wakeAll (w.waiters p)).followedBy task K := by
  rw [waiters_followedBy hp]
  exact (blind_wakeAll _).followedBy w task K

theorem stopOne_followedBy (w : World) (token : TokenId) :
    (w.followedBy task K).stopOne token = (w.stopOne token).followedBy task K := by
  have hissue : Blind fun w => { w with tokens := w.tokens.issueStop token } := fun _ _ _ => rfl
  have hwake (reached : List TokenId) (v : World) :
      reached.foldl (fun w t => w.wakeAll (w.waiters fun s => s.request.endsWith t))
          (v.followedBy task K) =
        (reached.foldl (fun w t => w.wakeAll (w.waiters fun s => s.request.endsWith t))
          v).followedBy task K := by
    induction reached generalizing v with
    | nil => rfl
    | cons t rest ih =>
      rw [List.foldl_cons, List.foldl_cons, wakeWaiters_followedBy fun _ => rfl, ih]
  have hissued := hissue.followedBy w task K
  have hwoken := hwake (w.tokens.reached token) { w with tokens := w.tokens.issueStop token }
  rw [← hissued] at hwoken
  have hrest := congrArg
    (fun v => World.wakeAll v (v.waiters fun s => s.request.endedBy v.isStopped)) hwoken
  exact hrest.trans (wakeWaiters_followedBy (fun _ => rfl) _)

theorem stop_followedBy (w : World) (tokens : List TokenId) :
    (w.followedBy task K).stop tokens = (w.stop tokens).followedBy task K := by
  induction tokens generalizing w with
  | nil => rfl
  | cons token rest ih =>
    have hrest := ih (w.stopOne token)
    rw [← stopOne_followedBy] at hrest
    exact hrest

theorem finish_followedBy (w : World) (task' : TaskId) (ending : Ending) :
    (w.followedBy task K).finish task' ending = (w.finish task' ending).followedBy task K := by
  cases ht : w.tasks.get? task' with
  | none =>
    have ht' : (w.followedBy task K).tasks.get? task' = none := ht
    rw [finish, finish, ht, ht']
  | some t =>
    have ht' : (w.followedBy task K).tasks.get? task' = some t := ht
    have hended := ((blind_markEnded task' t ending).comp (blind_releaseAll t.held)).followedBy
      w task K
    rw [finish_eq ht, finish_eq ht']
    dsimp only at hended ⊢
    rw [hended, wakeWaiters_followedBy fun _ => rfl]

theorem moveTo_followedBy (w : World) (instant : Nat) :
    (w.followedBy task K).moveTo instant = (w.moveTo instant).followedBy task K := by
  have hclock : Blind fun w => { w with now := instant } := fun _ _ _ => rfl
  have hmoved := hclock.followedBy w task K
  unfold moveTo
  dsimp only at hmoved ⊢
  rw [hmoved, wakeWaiters_followedBy fun _ => rfl]

theorem nextDeadline?_followedBy (w : World) :
    (w.followedBy task K).nextDeadline? = w.nextDeadline? := by
  have hdeadline : Suspended.deadline ∘ Suspended.followedBy task K = Suspended.deadline := rfl
  simp only [nextDeadline?, followedBy, dress, List.map_map, hdeadline]

theorem admit?_followedBy (w : World) (task' : TaskId) (limit : LimitId) :
    (w.followedBy task K).admit? task' limit =
      (w.admit? task' limit).map (Prod.map id (followedBy · task K)) := by
  have hlimits : (w.followedBy task K).limits = w.limits := rfl
  unfold admit?
  rw [hlimits]
  cases w.limits.get? limit with
  | none => rfl
  | some l =>
    dsimp only
    cases l.admit? task' with
    | none => rfl
    | some granted => rfl

/-- Requests have the same answers. -/
theorem answer?_followedBy (w : World) (task' : TaskId) (deadline : Option Nat) (r : Request) :
    (w.followedBy task K).answer? task' deadline r =
      (w.answer? task' deadline r).map (Prod.map id (followedBy · task K)) := by
  cases r with
  | isStopped | now | stopwatch | newLimit | record | log | count | offer => rfl
  | stop tokens => exact congrArg (fun v => some ((), v)) (stop_followedBy w tokens)
  | sleep span token =>
    have hdue : (w.followedBy task K).isDue deadline = w.isDue deadline := rfl
    have hstopped : (w.followedBy task K).isStopped = w.isStopped := rfl
    simp only [answer?]
    rw [hdue, hstopped]
    split
    · rfl
    · split <;> rfl
  | nextChild pending patience =>
    have hfirst : (w.followedBy task K).firstCompletion? pending = w.firstCompletion? pending := rfl
    have hover : (w.followedBy task K).patienceOver patience = w.patienceOver patience :=
      eq_followedBy (f := fun w => w.patienceOver patience) (fun _ _ _ => rfl) w
    simp only [answer?]
    rw [hfirst, hover]
    split
    · rfl
    · split <;> rfl
  | acquire limit token =>
    have hstopped : (w.followedBy task K).isStopped token = w.isStopped token := rfl
    simp only [answer?]
    rw [hstopped]
    split
    · exact congrArg (fun v => some (false, v)) ((blind_changeLimit limit _).followedBy w task K)
    · exact admit?_followedBy w task' limit

theorem deadline?_followedBy (w : World) (r : Request) :
    (w.followedBy task K).deadline? r = w.deadline? r :=
  eq_followedBy (f := fun w => w.deadline? r) (fun _ _ _ => by cases r <;> rfl) w

/-- What else happens when a task begins to wait does not depend on any wait. -/
theorem exists_blind_suspend (task' : TaskId) (r : Request) (spawned : Bool) :
    ∃ f, Blind f ∧ ∀ (w : World) (next : r.Answer → Task), w.spawned = spawned →
      w.suspend task' r next = f { w with
        suspended := w.suspended ++ [w.waiting task' r next]
        order := w.order + 1
        spawned := false } := by
  have hwake (again : Bool) : Blind fun v => if again then v.wake task' else v := by
    cases again with
    | true => exact blind_wake task'
    | false => exact fun _ _ _ => rfl
  cases r with
  | acquire limit token =>
    have hqueue : Blind fun v => { v with limits := v.limits.modify limit fun l => l.enqueue task' } :=
      fun _ _ _ => rfl
    exact ⟨_, (hwake (spawned && false)).comp hqueue, fun w next h => h ▸ rfl⟩
  | nextChild => exact ⟨_, hwake (spawned && true), fun w next h => h ▸ rfl⟩
  | _ => exact ⟨_, hwake (spawned && false), fun w next h => h ▸ rfl⟩

/-- A task that begins to wait goes on with what follows it. -/
theorem suspend_followedBy (w : World) (task' : TaskId) (r : Request) (next : r.Answer → Task) :
    (w.followedBy task K).suspend task' r (fun a => (next a).followedBy (task' = task) K) =
      (w.suspend task' r next).followedBy task K := by
  obtain ⟨f, hf, hsuspend⟩ := exists_blind_suspend task' r w.spawned
  rw [hsuspend (w.followedBy task K) _ rfl, hsuspend w next rfl, ← hf.followedBy]
  unfold waiting
  rw [deadline?_followedBy]
  simp [followedBy, dress, Suspended.followedBy]

/-- A new task is another one. -/
theorem addTask_followedBy {w : World} (hne : w.tasks.size ≠ task) (name : String)
    (own : Option TokenId) (program : Task) :
    (w.followedBy task K).addTask name own program =
      (w.addTask name own program).followedBy task K := by
  have hbegun : (w.begun program).followedBy task K = w.begun program :=
    Suspended.followedBy_of_ne hne
  have hpush : (w.followedBy task K).pushTask name own program =
      (w.pushTask name own program).followedBy task K := by
    simp only [pushTask, followedBy, dress, List.map_append, List.map_singleton, hbegun]
    rfl
  rw [addTask_eq, addTask_eq, hpush]
  exact (blind_wake w.tasks.size).followedBy _ _ _

theorem spawn_followedBy {w : World} (hne : w.tasks.size ≠ task) (name : String)
    (parent : TokenId) (body : TokenId → Task) :
    (w.followedBy task K).spawn name parent body =
      ((w.spawn name parent body).1, (w.spawn name parent body).2.followedBy task K) := by
  have hbelow : Blind fun w => { w with tokens := w.tokens.addBelow parent, spawned := true } :=
    fun _ _ _ => rfl
  have hadded := addTask_followedBy (K := K)
    (w := { w with tokens := w.tokens.addBelow parent, spawned := true }) hne name
    (some w.tokens.size) (body w.tokens.size)
  rw [← hbelow.followedBy] at hadded
  exact congrArg (Prod.mk _) hadded

/-- Whoever waits is found with what follows it. -/
theorem find?_followedBy (w : World) (task' : TaskId) :
    ((w.followedBy task K).suspended.find? fun s => s.id = task') =
      (w.suspended.find? fun s => s.id = task').map (Suspended.followedBy task K) := by
  simp only [followedBy, dress, List.find?_map]
  rfl

/-- A task that goes on waits no more. -/
theorem gone_followedBy (w : World) (task' : TaskId) :
    { w.followedBy task K with
      suspended := (w.followedBy task K).suspended.filter (fun s => s.id != task')
      spawned := false } =
    followedBy { w with
      suspended := w.suspended.filter (fun s => s.id != task')
      spawned := false } task K := by
  simp [followedBy, dress, Suspended.followedBy, List.filter_map, Function.comp_def]

end World

/-! ### One step -/

/-- The rest of the program of the running task, if that is followed by more. -/
def Control.followedBy (task : TaskId) (K : Outcome → Task) : Control → Control
  | .running task' rest => .running task' (rest.followedBy (task' = task) K)
  | control => control

namespace Machine

/-- The machine in which a task is followed by more. -/
def followedBy (a : Machine) (task : TaskId) (K : Outcome → Task) : Machine :=
  ⟨a.world.followedBy task K, a.control.followedBy task K⟩

/-- The program of a running task is over. -/
def PartOver (a : Machine) (task : TaskId) : Prop :=
  ∃ o, a.control = .running task (.done o)

/-- As long as the program of a task is not over, the machine goes on in the same way if the task is
followed by more. -/
theorem next_followedBy {a : Machine} (hsize : task < a.world.tasks.size)
    (hover : ¬ a.PartOver task) : (a.followedBy task K).next = a.next.followedBy task K := by
  obtain ⟨w, control⟩ := a
  cases control with
  | running task' t =>
    simp only [followedBy, Control.followedBy]
    cases t with
    | done o =>
      have hne : task' ≠ task := by
        rintro rfl
        exact hover ⟨o, rfl⟩
      rw [decide_eq_false hne]
      exact congrArg (Machine.mk · .idle) (World.finish_followedBy w task' _)
    | panic payload =>
      rw [Task.followedBy_panic]
      exact congrArg (Machine.mk · .idle) (World.finish_followedBy w task' _)
    | endless =>
      rw [Task.followedBy_endless]
      rfl
    | ask r next =>
      simp only [Task.followedBy_ask, Machine.next]
      rw [World.deadline?_followedBy, World.answer?_followedBy]
      cases w.answer? task' (w.deadline? r) r with
      | some x => rfl
      | none => exact congrArg (Machine.mk · .idle) (World.suspend_followedBy w task' r next)
    | spawn name parent body next =>
      simp only [Task.followedBy_spawn, Machine.next]
      rw [World.spawn_followedBy (Nat.ne_of_gt hsize)]
  | turnOf task' =>
    simp only [followedBy, Control.followedBy, Machine.next]
    rw [World.find?_followedBy]
    cases hfind : w.suspended.find? fun s => s.id = task' with
    | none => rfl
    | some s =>
      have hid : s.id = task' := by simpa using List.find?_some hfind
      subst hid
      simp only [Option.map_some, Suspended.followedBy]
      rw [World.answer?_followedBy]
      cases w.answer? s.id s.deadline s.request with
      | none => rfl
      | some x => exact congrArg (Machine.mk · _) (World.gone_followedBy x.2 s.id)
  | idle =>
    have hqueue : (w.followedBy task K).queue = w.queue := rfl
    have houter : (w.followedBy task K).outer = w.outer := rfl
    have hclock : (w.followedBy task K).now = w.now := rfl
    simp only [followedBy, Control.followedBy, Machine.next]
    rw [hqueue, houter, hclock, World.nextDeadline?_followedBy, World.moveTo_followedBy]
    cases w.queue with
    | cons first rest => rfl
    | nil => cases w.outer <;> rfl

end Machine

end Orchestra
