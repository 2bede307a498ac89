import Orchestra.World.Run

/-!
# Worlds only go forward

Whatever tasks do, and whatever is done to a world from outside, some things are never undone: the
clock does not go back, a stopped token stays stopped, and a task that has ended keeps its outcome
and its place among the endings, ahead of everybody who ends later. `World.Later` collects these
facts. Each operation of a world leads to a later world, so a statement about all later worlds is a
statement about every order in which the other tasks may have their turns.
-/

namespace Orchestra

/-! ### Tokens -/

/-- Tokens keep their ancestors, and issued stops remain issued. -/
def Tokens.Grows (t t' : Tokens) : Prop :=
  ∀ id token, t.get? id = some token →
    ∃ token', t'.get? id = some token' ∧ token'.lineage = token.lineage ∧
      (token.stopIssued → token'.stopIssued)

namespace Tokens

variable {t t' t'' : Tokens}

theorem Grows.refl (t : Tokens) : t.Grows t :=
  fun _ token h => ⟨token, h, rfl, id⟩

theorem Grows.trans (h : t.Grows t') (h' : t'.Grows t'') : t.Grows t'' := by
  intro id token ht
  obtain ⟨token', ht', hl, hs⟩ := h id token ht
  obtain ⟨token'', ht'', hl', hs'⟩ := h' id token' ht'
  exact ⟨token'', ht'', hl'.trans hl, hs' ∘ hs⟩

/-- A new token changes no other. -/
theorem grows_push (t : Tokens) (token : Token) : t.Grows (t.push token) := by
  intro id old h
  have hid : id ≠ t.size := by
    rintro rfl
    rw [(t.get?_eq_none_iff t.size).mpr (Nat.le_refl _)] at h
    contradiction
  exact ⟨old, by rw [Table.get?_push, if_neg hid, h], rfl, fun hs => hs⟩

/-- A change that keeps ancestors and issued stops lets the tokens grow. -/
theorem grows_modify (t : Tokens) (id : TokenId) (f : Token → Token)
    (hl : ∀ token, (f token).lineage = token.lineage)
    (hs : ∀ token, token.stopIssued → (f token).stopIssued) : t.Grows (t.modify id f) := by
  intro id' old h
  rw [Table.get?_modify, h]
  by_cases heq : id = id'
  · exact ⟨f old, by rw [if_pos heq]; rfl, hl old, hs old⟩
  · exact ⟨old, by rw [if_neg heq], rfl, fun hs => hs⟩

theorem grows_addBelow (t : Tokens) (parent : TokenId) : t.Grows (t.addBelow parent) :=
  (grows_push _ _).trans (grows_modify _ _ _ (fun _ => rfl) fun _ h => h)

theorem grows_issueStop (t : Tokens) (id : TokenId) : t.Grows (t.issueStop id) :=
  grows_modify _ _ _ (fun _ => rfl) fun _ _ => rfl

theorem grows_close (t : Tokens) (id : TokenId) : t.Grows (t.close id) := by
  unfold close
  split
  · exact grows_modify _ _ _ (fun _ => rfl) fun _ h => h
  · exact Grows.refl t

/-- As tokens grow, none is released from a stop. -/
theorem Grows.isStopped (h : t.Grows t') {id : TokenId} (hs : t.isStopped id) :
    t'.isStopped id := by
  have hissued : ∀ x, t.stopIssued x → t'.stopIssued x := by
    intro x hx
    unfold stopIssued at hx ⊢
    cases hx' : t.get? x with
    | none => simp [hx'] at hx
    | some token =>
      obtain ⟨token', ht', -, hmono⟩ := h x token hx'
      simp only [hx'] at hx
      simpa only [ht'] using hmono hx
  obtain ⟨x, hx, hxs⟩ := List.any_eq_true.mp hs
  refine List.any_eq_true.mpr ⟨x, ?_, hissued x hxs⟩
  unfold lineage at hx ⊢
  cases hid : t.get? id with
  | none =>
    -- a token that does not exist yet cannot have been stopped
    simp only [hid, List.mem_singleton] at hx
    subst hx
    simp [stopIssued, hid] at hxs
  | some token =>
    obtain ⟨token', ht', hl, -⟩ := h id token hid
    simp only [hid] at hx
    simpa only [ht', hl] using hx

/-- There are not fewer tokens later. -/
theorem Grows.size (h : t.Grows t') : t.size ≤ t'.size := by
  refine Nat.le_of_not_lt fun hlt => ?_
  obtain ⟨token, htoken⟩ := Option.ne_none_iff_exists'.mp
    (mt (t.get?_eq_none_iff t'.size).mp (Nat.not_le_of_lt hlt))
  obtain ⟨token', htoken', -⟩ := h _ token htoken
  rw [(t'.get?_eq_none_iff t'.size).mpr (Nat.le_refl _)] at htoken'
  contradiction

/-- A token that exists keeps its ancestors. -/
theorem Grows.lineage (h : t.Grows t') {id : TokenId} (hid : id < t.size) :
    t'.lineage id = t.lineage id := by
  obtain ⟨token, htoken⟩ := Option.ne_none_iff_exists'.mp
    (mt (t.get?_eq_none_iff id).mp (Nat.not_le_of_lt hid))
  obtain ⟨token', htoken', hlineage, -⟩ := h id token htoken
  rw [Tokens.lineage, Tokens.lineage, htoken, htoken']
  exact hlineage

theorem size_addBelow (t : Tokens) (parent : TokenId) : (t.addBelow parent).size = t.size + 1 := by
  rw [addBelow, Table.size_modify, Table.size_push]

/-- A new token is below its parent. -/
theorem lineage_addBelow (t : Tokens) (parent : TokenId) :
    (t.addBelow parent).lineage t.size = t.size :: t.lineage parent := by
  have hnew : ∃ openBelow, (t.addBelow parent).get? t.size =
      some ⟨t.size :: t.lineage parent, false, openBelow⟩ := by
    rw [addBelow, Table.get?_modify, Table.get?_push, if_pos rfl]
    split
    · exact ⟨_, rfl⟩
    · exact ⟨_, rfl⟩
  obtain ⟨openBelow, hnew⟩ := hnew
  rw [lineage, hnew]

end Tokens

namespace World

/-! ### Endings -/

/-- How a task has ended, as whoever waits for it sees it, with its place among all endings. -/
def ended? (w : World) (task : TaskId) : Option (Nat × Outcome) :=
  (w.tasks.get? task).bind fun t => t.result.map fun r => (r.1, r.2.outcome t.name)

/-- A completion is the ending of the child under its declared position. -/
theorem completion?_eq (w : World) (p : Pending) :
    w.completion? p = (w.ended? p.id).map fun e => (e.1, ⟨p.index, e.2⟩) := by
  unfold completion? ended?
  cases w.tasks.get? p.id with
  | none => rfl
  | some t => cases h : t.result <;> simp [h]

/-- A child without a completion has not ended. -/
theorem completion?_eq_none {w : World} {p : Pending} :
    w.completion? p = none ↔ w.ended? p.id = none := by
  rw [completion?_eq, Option.map_eq_none_iff]

/-- The earlier of two completions is there if one of them is. -/
theorem isSome_earlier (a b : Option (Nat × Completion)) :
    (earlier a b).isSome = (a.isSome || b.isSome) := by
  cases a with
  | none => cases b <;> rfl
  | some a =>
    cases b with
    | none => rfl
    | some b =>
      unfold earlier
      dsimp only
      split <;> rfl

theorem isSome_foldl_earlier (f : Pending → Option (Nat × Completion)) (pending : List Pending)
    (best : Option (Nat × Completion)) :
    (pending.foldl (fun best p => earlier best (f p)) best).isSome =
      (best.isSome || pending.any fun p => (f p).isSome) := by
  induction pending generalizing best with
  | nil => simp
  | cons p rest ih => rw [List.foldl_cons, ih, isSome_earlier, List.any_cons, Bool.or_assoc]

/-- There is no completion to see exactly if no pending child has ended. -/
theorem firstCompletion?_eq_none {w : World} {pending : List Pending} :
    w.firstCompletion? pending = none ↔ ∀ p ∈ pending, w.ended? p.id = none := by
  unfold firstCompletion?
  rw [← Option.isNone_iff_eq_none, ← Option.not_isSome, Option.isSome_map, isSome_foldl_earlier]
  simp [completion?_eq_none]

/-- The earlier of two completions is one of them. -/
theorem earlier_eq_some {a b : Option (Nat × Completion)} {x : Nat × Completion}
    (h : earlier a b = some x) : a = some x ∨ b = some x := by
  cases a with
  | none =>
    cases b with
    | none => contradiction
    | some b => exact .inr h
  | some a =>
    cases b with
    | none => exact .inl h
    | some b =>
      unfold earlier at h
      dsimp only at h
      split at h
      · exact .inr h
      · exact .inl h

theorem foldl_earlier_mem (f : Pending → Option (Nat × Completion)) {pending : List Pending}
    {best : Option (Nat × Completion)} {x : Nat × Completion}
    (h : pending.foldl (fun best p => earlier best (f p)) best = some x) :
    best = some x ∨ ∃ p ∈ pending, f p = some x := by
  induction pending generalizing best with
  | nil => exact .inl h
  | cons p rest ih =>
    rcases ih h with hearlier | ⟨q, hq, hx⟩
    · have hone : best = some x ∨ f p = some x := earlier_eq_some hearlier
      exact hone.imp_right fun hp => ⟨p, List.mem_cons_self, hp⟩
    · exact .inr ⟨q, List.mem_cons_of_mem p hq, hx⟩

/-- A completion that is seen is that of a pending child. -/
theorem exists_of_firstCompletion? {w : World} {pending : List Pending} {c : Completion}
    (h : w.firstCompletion? pending = some c) :
    ∃ p ∈ pending, p.index = c.index ∧ ∃ place, w.ended? p.id = some (place, c.outcome) := by
  obtain ⟨⟨place, c'⟩, hfold, rfl⟩ := Option.map_eq_some_iff.mp h
  obtain ⟨p, hp, hc⟩ := (foldl_earlier_mem _ hfold).resolve_left nofun
  rw [completion?_eq] at hc
  obtain ⟨⟨place', o⟩, hended, heq⟩ := Option.map_eq_some_iff.mp hc
  cases heq
  exact ⟨p, hp, rfl, place', hended⟩

/-- Whether a request waits for a child that has ended already. -/
def childEnded (w : World) : Request → Bool
  | .nextChild pending _ => (w.firstCompletion? pending).isSome
  | _ => false

theorem childEnded_eq_false {w : World} {pending : List Pending} {patience : Patience} :
    w.childEnded (.nextChild pending patience) = false ↔ ∀ p ∈ pending, w.ended? p.id = none := by
  rw [childEnded, Option.isSome_eq_false_iff, Option.isNone_iff_eq_none, firstCompletion?_eq_none]

/-- Whoever has ended is seen to have ended. -/
theorem ending?_eq_none {w : World} {task : TaskId} :
    w.ending? task = none ↔ w.ended? task = none := by
  unfold ending? ended?
  cases w.tasks.get? task with
  | none => simp
  | some t => simp

/-- Every ending has a place that was given out already. -/
def Ordered (w : World) : Prop :=
  ∀ task place outcome, w.ended? task = some (place, outcome) → place < w.order

/-! ### The order of worlds -/

/-- What a world keeps of an earlier one. -/
structure Later (w w' : World) : Prop where
  clock : w.now ≤ w'.now
  size : w.tasks.size ≤ w'.tasks.size
  tokens : w.tokens.Grows w'.tokens
  ended : ∀ task e, w.ended? task = some e → w'.ended? task = some e
  /-- Whoever ends later has a later place. -/
  place : ∀ task task' e e', w.ended? task = some e → w.ended? task' = none →
    w'.ended? task' = some e' → e.1 < e'.1

variable {w w' w'' : World}

theorem Later.refl (w : World) : w.Later w where
  clock := Nat.le_refl _
  size := Nat.le_refl _
  tokens := .refl _
  ended _ _ h := h
  place _ _ _ _ _ hn he := by simp [hn] at he

theorem Later.trans (h : w.Later w') (h' : w'.Later w'') : w.Later w'' where
  clock := Nat.le_trans h.clock h'.clock
  size := Nat.le_trans h.size h'.size
  tokens := h.tokens.trans h'.tokens
  ended task e he := h'.ended task e (h.ended task e he)
  place task task' e e' he hn he' := by
    cases hm : w'.ended? task' with
    | none => exact h'.place task task' e e' (h.ended task e he) hm he'
    | some e'' =>
      obtain rfl : e'' = e' := Option.some.inj ((h'.ended task' e'' hm).symm.trans he')
      exact h.place task task' e e'' he hn hm

/-- No token is released from a stop. -/
theorem Later.stopped (h : w.Later w') (token : TokenId) (hs : w.isStopped token) :
    w'.isStopped token :=
  h.tokens.isStopped hs

/-- What is not stopped later was not stopped before. -/
theorem Later.not_stopped (h : w.Later w') {token : TokenId} (hs : w'.isStopped token = false) :
    w.isStopped token = false := by
  cases hw : w.isStopped token with
  | false => rfl
  | true => rw [h.stopped token hw] at hs; contradiction

/-- No task has ended meanwhile. -/
theorem later_of_tasks (hclock : w.now ≤ w'.now) (hsize : w.tasks.size ≤ w'.tasks.size)
    (htokens : w.tokens.Grows w'.tokens) (htasks : ∀ task, w'.ended? task = w.ended? task) :
    w.Later w' where
  clock := hclock
  size := hsize
  tokens := htokens
  ended task e h := by rw [htasks, h]
  place task task' e e' _ hn he := by
    rw [htasks, hn] at he
    contradiction

/-! ### Operations that concern the queue and the limits only -/

/-- Apart from its limits, and from tasks that are queued, a world is the same as before. -/
structure Same (w w' : World) : Prop where
  clock : w'.now = w.now
  order : w'.order = w.order
  outer : w'.outer = w.outer
  tokens : w'.tokens = w.tokens
  tasks : w'.tasks = w.tasks
  suspended : w'.suspended = w.suspended
  queue : w.queue ⊆ w'.queue
  cells : w'.cells = w.cells
  profiles : w'.profiles = w.profiles

theorem Same.refl (w : World) : w.Same w :=
  ⟨rfl, rfl, rfl, rfl, rfl, rfl, List.Subset.refl _, rfl, rfl⟩

theorem Same.trans (h : w.Same w') (h' : w'.Same w'') : w.Same w'' :=
  ⟨h'.clock.trans h.clock, h'.order.trans h.order, h'.outer.trans h.outer,
    h'.tokens.trans h.tokens, h'.tasks.trans h.tasks, h'.suspended.trans h.suspended,
    List.Subset.trans h.queue h'.queue, h'.cells.trans h.cells, h'.profiles.trans h.profiles⟩

theorem same_wake (w : World) (task : TaskId) : w.Same (w.wake task) := by
  unfold wake
  split
  · exact .refl w
  · exact ⟨rfl, rfl, rfl, rfl, rfl, rfl, List.subset_append_left _ _, rfl, rfl⟩

/-- A fold of such operations is one. -/
theorem same_foldl {α : Type} {f : World → α → World} (hf : ∀ (w : World) a, w.Same (f w a))
    (l : List α) (w : World) : w.Same (l.foldl f w) := by
  induction l generalizing w with
  | nil => exact .refl w
  | cons a rest ih => exact (hf w a).trans (ih (f w a))

theorem same_wakeAll (w : World) (tasks : List TaskId) : w.Same (w.wakeAll tasks) :=
  same_foldl same_wake tasks w

theorem same_changeLimit (w : World) (limit : LimitId)
    (change : Limit → Limit × Option TaskId) : w.Same (w.changeLimit limit change) := by
  unfold changeLimit
  cases w.limits.get? limit with
  | none => exact .refl w
  | some l =>
    have hset (l' : Limit) : w.Same { w with limits := w.limits.modify limit fun _ => l' } :=
      ⟨rfl, rfl, rfl, rfl, rfl, rfl, List.Subset.refl _, rfl, rfl⟩
    rcases h : change l with ⟨l', granted⟩
    cases granted with
    | none => simpa only [h] using hset l'
    | some task => simpa only [h] using (hset l').trans (same_wake _ task)

/-- A task that is woken stands in the queue, unless it drives the world. -/
theorem mem_queue_wake (w : World) (task : TaskId) :
    task ∈ (w.wake task).queue ∨ w.outer = some task := by
  unfold wake
  split
  · next h =>
    rcases (Bool.or_eq_true _ _).mp h with houter | hqueue
    · exact .inr (of_decide_eq_true houter)
    · exact .inl (List.contains_iff_mem.mp hqueue)
  · exact .inl (List.mem_append_right _ (List.mem_singleton.mpr rfl))

theorem mem_queue_wakeAll (w : World) {tasks : List TaskId} {task : TaskId} (h : task ∈ tasks) :
    task ∈ (w.wakeAll tasks).queue ∨ w.outer = some task := by
  induction tasks generalizing w with
  | nil => contradiction
  | cons first rest ih =>
    rcases List.mem_cons.mp h with rfl | h
    · exact (mem_queue_wake w task).imp_left fun hw => (same_wakeAll (w.wake task) rest).queue hw
    · rw [← (same_wake w first).outer]
      exact ih (w.wake first) h

/-! ### Operations that begin and end nothing -/

/-- No task has ended meanwhile, none has begun or ended a wait, and no time has passed. -/
structure Steady (w w' : World) : Prop where
  clock : w'.now = w.now
  order : w'.order = w.order
  outer : w'.outer = w.outer
  tokens : w.tokens.Grows w'.tokens
  size : w'.tasks.size = w.tasks.size
  ended : ∀ task, w'.ended? task = w.ended? task
  suspended : w'.suspended = w.suspended
  queue : w.queue ⊆ w'.queue

theorem Steady.refl (w : World) : w.Steady w :=
  ⟨rfl, rfl, rfl, .refl _, rfl, fun _ => rfl, rfl, List.Subset.refl _⟩

theorem Steady.trans (h : w.Steady w') (h' : w'.Steady w'') : w.Steady w'' :=
  ⟨h'.clock.trans h.clock, h'.order.trans h.order, h'.outer.trans h.outer,
    h.tokens.trans h'.tokens, h'.size.trans h.size, fun task => (h'.ended task).trans (h.ended task),
    h'.suspended.trans h.suspended, List.Subset.trans h.queue h'.queue⟩

theorem Steady.later (h : w.Steady w') : w.Later w' :=
  later_of_tasks (Nat.le_of_eq h.clock.symm) (Nat.le_of_eq h.size.symm) h.tokens h.ended

theorem Same.steady (h : w.Same w') : w.Steady w' :=
  ⟨h.clock, h.order, h.outer, h.tokens ▸ .refl _, by rw [h.tasks], fun _ => by
    simp only [ended?, h.tasks], h.suspended, h.queue⟩

theorem Same.later (h : w.Same w') : w.Later w' :=
  h.steady.later

/-- A new token begins and ends nothing. -/
theorem steady_addBelow (w : World) (parent : TokenId) :
    w.Steady { w with tokens := w.tokens.addBelow parent, spawned := true } :=
  ⟨rfl, rfl, rfl, Tokens.grows_addBelow w.tokens parent, rfl, fun _ => rfl, rfl,
    List.Subset.refl _⟩

/-- Apart from the stop itself, a stop concerns the queue only. -/
theorem same_stopOne (w : World) (token : TokenId) :
    World.Same { w with tokens := w.tokens.issueStop token } (w.stopOne token) :=
  (same_foldl (fun (w : World) t => same_wakeAll w (w.waiters fun s => s.request.endsWith t))
    (w.tokens.reached token) _).trans (same_wakeAll _ _)

theorem steady_stopOne (w : World) (token : TokenId) : w.Steady (w.stopOne token) := by
  have hissue : w.Steady { w with tokens := w.tokens.issueStop token } :=
    ⟨rfl, rfl, rfl, Tokens.grows_issueStop w.tokens token, rfl, fun _ => rfl, rfl,
      List.Subset.refl _⟩
  exact hissue.trans (same_stopOne w token).steady

theorem steady_stop (w : World) (tokens : List TokenId) : w.Steady (w.stop tokens) := by
  induction tokens generalizing w with
  | nil => exact .refl w
  | cons token rest ih => exact (steady_stopOne w token).trans (ih (w.stopOne token))

theorem steady_admit? {task : TaskId} {limit : LimitId} {granted : Bool}
    (h : w.admit? task limit = some (granted, w')) : w.Steady w' := by
  unfold admit? at h
  split at h
  · cases h
    exact .refl w
  · split at h
    · contradiction
    · cases h
      refine ⟨rfl, rfl, rfl, .refl _, ?_, fun task' => ?_, rfl, List.Subset.refl _⟩
      · cases granted with
        | false => rfl
        | true => exact Table.size_modify _ _ _
      · cases granted with
        | false => rfl
        | true =>
          simp only [ended?, if_true, Table.get?_modify]
          split
          · cases w.tasks.get? task' <;> rfl
          · rfl

/-- A wait for time leaves the world as it is, -/
theorem eq_of_answer?_sleep {task : TaskId} {deadline : Option Nat} {span : Duration} {token : Option TokenId}
    {inTime : Bool} (h : w.answer? task deadline (.sleep span token) = some (inTime, w')) : w' = w := by
  simp only [answer?] at h
  split at h
  · cases h
    rfl
  · split at h
    · cases h
      rfl
    · contradiction

/-- and so does a wait for children. -/
theorem eq_of_answer?_nextChild {task : TaskId} {deadline : Option Nat} {pending : List Pending}
    {patience : Patience} {next : Option Completion}
    (h : w.answer? task deadline (.nextChild pending patience) = some (next, w')) : w' = w := by
  simp only [answer?] at h
  split at h
  · cases h
    rfl
  · split at h
    · cases h
      rfl
    · contradiction

/-- How a request for a permit is answered: it is refused because of a stop, there is no such limit,
or the limit admits or refuses the task. -/
theorem answer?_acquire {task : TaskId} {deadline : Option Nat} {limit : LimitId} {token : TokenId}
    {granted : Bool}
    (h : w.answer? task deadline (.acquire limit token) = some (granted, w')) :
    (w.isStopped token = true ∧ granted = false ∧
        w' = w.changeLimit limit fun l => l.withdraw task) ∨
      (w.limits.get? limit = none ∧ granted = false ∧ w' = w) ∨
      w.isStopped token = false ∧ ∃ l l', w.limits.get? limit = some l ∧
        l.admit? task = some (granted, l') ∧ w' = { w with
          limits := w.limits.modify limit fun _ => l'
          tasks := if granted then w.tasks.modify task fun t => { t with held := limit :: t.held }
            else w.tasks } := by
  simp only [answer?] at h
  split at h
  · next hstopped =>
    cases h
    exact .inl ⟨hstopped, rfl, rfl⟩
  · next hstopped =>
    unfold admit? at h
    split at h
    · next hnone =>
      cases h
      exact .inr (.inl ⟨hnone, rfl, rfl⟩)
    · next l hl =>
      split at h
      · contradiction
      · next granted' l' hadmit =>
        cases h
        exact .inr (.inr ⟨Bool.eq_false_iff.mpr hstopped, l, l', hl, hadmit, rfl⟩)

/-- An answer is given by the world of the moment, and takes no time. -/
theorem steady_answer? {task : TaskId} {deadline : Option Nat} {r : Request} {a : r.Answer}
    (h : w.answer? task deadline r = some (a, w')) : w.Steady w' := by
  cases r with
  | isStopped | now =>
    cases h
    exact .refl w
  | stop tokens =>
    cases h
    exact steady_stop w tokens
  | stopwatch | newLimit | record | log | count | offer =>
    cases h
    exact ⟨rfl, rfl, rfl, .refl _, rfl, fun _ => rfl, rfl, List.Subset.refl _⟩
  | sleep =>
    obtain rfl := eq_of_answer?_sleep h
    exact .refl _
  | nextChild =>
    obtain rfl := eq_of_answer?_nextChild h
    exact .refl _
  | acquire limit token =>
    simp only [answer?] at h
    split at h
    · cases h
      exact (same_changeLimit w limit _).steady
    · exact steady_admit? h

/-! ### Operations that begin or end something -/

/-- A new task waits to begin with its program. -/
def begun (w : World) (program : Task) : Suspended :=
  ⟨w.tasks.size, .now, fun _ => program, none, w.order⟩

/-- The world with a new task that is not queued yet. -/
def pushTask (w : World) (name : String) (token : Option TokenId) (program : Task) : World :=
  { w with
    tasks := w.tasks.push ⟨name, token, [], none⟩
    suspended := w.suspended ++ [w.begun program]
    order := w.order + 1 }

theorem addTask_eq (w : World) (name : String) (token : Option TokenId) (program : Task) :
    w.addTask name token program = (w.pushTask name token program).wake w.tasks.size :=
  rfl

theorem same_addTask (w : World) (name : String) (token : Option TokenId) (program : Task) :
    (w.pushTask name token program).Same (w.addTask name token program) :=
  same_wake _ _

/-- A task added under the next number has not ended, and no other task is affected. -/
theorem ended?_addTask (w : World) (name : String) (token : Option TokenId) (program : Task)
    (task : TaskId) : (w.addTask name token program).ended? task = w.ended? task := by
  simp only [ended?, (same_addTask w name token program).tasks, pushTask, Table.get?_push]
  split
  · next h => rw [h, (w.tasks.get?_eq_none_iff _).mpr (Nat.le_refl _)]; rfl
  · rfl

theorem later_addTask (w : World) (name : String) (token : Option TokenId) (program : Task) :
    w.Later (w.addTask name token program) := by
  have hsame := same_addTask w name token program
  have hsize : w.tasks.size ≤ (w.addTask name token program).tasks.size := by
    rw [hsame.tasks]
    exact Nat.le_of_lt (Table.size_push _ _ ▸ Nat.lt_succ_self _)
  exact later_of_tasks (Nat.le_of_eq hsame.clock.symm) hsize (hsame.tokens ▸ .refl _)
    (ended?_addTask w name token program)

theorem later_spawn (w : World) (name : String) (parent : TokenId) (body : TokenId → Task) :
    w.Later (w.spawn name parent body).2 :=
  (steady_addBelow w parent).later.trans (later_addTask _ name _ _)

/-- Starting a child takes no time, and lets it wait to begin. -/
theorem spawn_keeps (w : World) (name : String) (parent : TokenId) (body : TokenId → Task) :
    (w.spawn name parent body).2.now = w.now ∧ (w.spawn name parent body).2.outer = w.outer ∧
      (w.spawn name parent body).2.suspended = w.suspended ++ [w.begun (body w.tokens.size)] := by
  have hsame := same_addTask { w with tokens := w.tokens.addBelow parent, spawned := true } name
    (some w.tokens.size) (body w.tokens.size)
  exact ⟨hsame.clock, hsame.outer, hsame.suspended⟩

theorem tokens_spawn (w : World) (name : String) (parent : TokenId) (body : TokenId → Task) :
    (w.spawn name parent body).2.tokens = w.tokens.addBelow parent :=
  (same_addTask { w with tokens := w.tokens.addBelow parent, spawned := true } name
    (some w.tokens.size) (body w.tokens.size)).tokens

theorem size_spawn (w : World) (name : String) (parent : TokenId) (body : TokenId → Task) :
    (w.spawn name parent body).2.tasks.size = w.tasks.size + 1 := by
  have hsame := same_addTask { w with tokens := w.tokens.addBelow parent, spawned := true } name
    (some w.tokens.size) (body w.tokens.size)
  exact (congrArg Table.size hsame.tasks).trans (Table.size_push _ _)

/-- A task waits for an answer. -/
def waiting (w : World) (task : TaskId) (r : Request) (next : r.Answer → Task) : Suspended :=
  ⟨task, r, next, w.deadline? r, w.order⟩

/-- A task that begins to wait is queued again at most, and may stand in the queue of a limit. -/
theorem suspend_eq (w : World) (task : TaskId) (r : Request) (next : r.Answer → Task) :
    ∃ limits, { w with
      limits
      suspended := w.suspended ++ [w.waiting task r next]
      order := w.order + 1
      spawned := false : World }.Same (w.suspend task r next) := by
  unfold suspend
  dsimp only
  split
  · exact ⟨_, same_wake _ task⟩
  · exact ⟨_, .refl _⟩

theorem later_suspend (w : World) (task : TaskId) (r : Request) (next : r.Answer → Task) :
    w.Later (w.suspend task r next) := by
  obtain ⟨limits, hsame⟩ := suspend_eq w task r next
  refine Later.trans ?_ hsame.later
  exact later_of_tasks (Nat.le_refl _) (Nat.le_refl _) (.refl _) fun _ => rfl

/-- The clock moves to the instant, and no wait ends before its turn. -/
theorem clock_moveTo (w : World) (instant : Nat) : (w.moveTo instant).now = instant :=
  (same_wakeAll _ _).clock

theorem suspended_moveTo (w : World) (instant : Nat) :
    (w.moveTo instant).suspended = w.suspended :=
  (same_wakeAll _ _).suspended

/-! ### The end of a task -/

/-- Stores how a task has ended. -/
def markEnded (w : World) (task : TaskId) (t : TaskState) (ending : Ending) : World :=
  { w with
    tasks := w.tasks.modify task fun t => { t with held := [], result := some (w.order, ending) }
    tokens := match t.token with
      | some token => w.tokens.close token
      | none => w.tokens
    order := w.order + 1 }

/-- A task that ends gives its permits back, stores its result and wakes whoever waits for it. -/
theorem finish_eq {task : TaskId} {t : TaskState} (h : w.tasks.get? task = some t)
    (ending : Ending) : w.finish task ending =
      let ended := (w.releaseAll t.held).markEnded task t ending
      ended.wakeAll (ended.waiters fun s => s.request.awaits task) := by
  unfold finish
  rw [h]
  rfl

theorem same_releaseAll (w : World) (limits : List LimitId) : w.Same (w.releaseAll limits) :=
  same_foldl (fun w limit => same_changeLimit w limit Limit.release) limits w

/-- The task that ends takes the next place among the endings, and no other task is affected. -/
theorem ended?_markEnded (w : World) (task : TaskId) {t : TaskState}
    (h : w.tasks.get? task = some t) (ending : Ending) (task' : TaskId) :
    (w.markEnded task t ending).ended? task' =
      if task = task' then some (w.order, ending.outcome t.name) else w.ended? task' := by
  simp only [markEnded, ended?, Table.get?_modify]
  split
  · next heq => subst heq; rw [h]; rfl
  · rfl

theorem grows_markEnded (w : World) (task : TaskId) (t : TaskState) (ending : Ending) :
    w.tokens.Grows (w.markEnded task t ending).tokens := by
  unfold markEnded
  cases t.token with
  | none => exact .refl _
  | some token => exact Tokens.grows_close _ token

theorem later_markEnded (hw : w.Ordered) {task : TaskId} {t : TaskState}
    (h : w.tasks.get? task = some t) (htask : w.ended? task = none) (ending : Ending) :
    w.Later (w.markEnded task t ending) where
  clock := Nat.le_refl _
  size := Nat.le_of_eq (Table.size_modify _ _ _).symm
  tokens := grows_markEnded w task t ending
  ended task' e he := by
    have hne : task ≠ task' := by
      rintro rfl
      rw [htask] at he
      contradiction
    rw [ended?_markEnded w task h, if_neg hne, he]
  place task₁ task₂ e e' he hn he' := by
    rw [ended?_markEnded w task h] at he'
    split at he'
    · cases he'
      exact hw task₁ e.1 e.2 he
    · rw [hn] at he'
      contradiction

theorem later_finish (hw : w.Ordered) {task : TaskId} (htask : w.ended? task = none)
    (ending : Ending) : w.Later (w.finish task ending) := by
  cases ht : w.tasks.get? task with
  | none =>
    unfold finish
    rw [ht]
    exact .refl w
  | some t =>
    have hgive := same_releaseAll w t.held
    have hended (task' : TaskId) : (w.releaseAll t.held).ended? task' = w.ended? task' := by
      simp only [ended?, hgive.tasks]
    rw [finish_eq ht]
    refine (hgive.later.trans (later_markEnded ?_ (hgive.tasks ▸ ht) ?_ ending)).trans
      (same_wakeAll _ _).later
    · intro task' place outcome he
      rw [hgive.order]
      exact hw task' place outcome (hended task' ▸ he)
    · rw [hended, htask]

/-- The end of a task takes no time and ends no wait. -/
theorem finish_keeps (w : World) (task : TaskId) (ending : Ending) :
    (w.finish task ending).now = w.now ∧ (w.finish task ending).outer = w.outer ∧
      (w.finish task ending).suspended = w.suspended := by
  cases ht : w.tasks.get? task with
  | none =>
    unfold finish
    rw [ht]
    exact ⟨rfl, rfl, rfl⟩
  | some t =>
    have hgive := same_releaseAll w t.held
    rw [finish_eq ht]
    exact ⟨(same_wakeAll _ _).clock.trans hgive.clock, (same_wakeAll _ _).outer.trans hgive.outer,
      (same_wakeAll _ _).suspended.trans hgive.suspended⟩

/-- A task that ends has ended. -/
theorem ended?_finish {task : TaskId} (h : task < w.tasks.size) (ending : Ending) :
    ∃ place name, (w.finish task ending).ended? task = some (place, ending.outcome name) := by
  cases ht : w.tasks.get? task with
  | none => exact absurd h (Nat.not_lt_of_le ((w.tasks.get?_eq_none_iff task).mp ht))
  | some t =>
    have ht' : (w.releaseAll t.held).tasks.get? task = some t := (same_releaseAll w t.held).tasks ▸ ht
    refine ⟨(w.releaseAll t.held).order, t.name, ?_⟩
    rw [finish_eq ht, (same_wakeAll _ _).steady.ended, ended?_markEnded _ _ ht', if_pos rfl]

theorem size_finish (w : World) (task : TaskId) (ending : Ending) :
    (w.finish task ending).tasks.size = w.tasks.size := by
  cases ht : w.tasks.get? task with
  | none =>
    unfold finish
    rw [ht]
  | some t =>
    rw [finish_eq ht, (same_wakeAll _ _).tasks, ← (same_releaseAll w t.held).tasks]
    exact Table.size_modify _ _ _

/-- No other task is affected. -/
theorem ended?_finish_of_ne (w : World) {task task' : TaskId} (hne : task ≠ task')
    (ending : Ending) : (w.finish task ending).ended? task' = w.ended? task' := by
  cases ht : w.tasks.get? task with
  | none =>
    unfold finish
    rw [ht]
  | some t =>
    have ht' : (w.releaseAll t.held).tasks.get? task = some t := (same_releaseAll w t.held).tasks ▸ ht
    rw [finish_eq ht, (same_wakeAll _ _).steady.ended, ended?_markEnded _ _ ht', if_neg hne]
    exact (same_releaseAll w t.held).steady.ended task'

end World

end Orchestra
