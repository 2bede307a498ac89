import Orchestra.Proofs.Stop.Ensures

/-!
# What is granted to tasks

What a rely grants of the answers must be upheld by somebody: a condition on the shared values from
which it follows, and which no request that is allowed destroys. If all tasks of a run meet their
conditions under the rely, and nobody else destroys the condition on the shared values, it holds at
every moment, and the run ends as its program says.
-/

namespace Orchestra

/-- A condition on the shared values upholds a rely: it grants what the rely grants, and is kept by
whatever the rely allows. -/
def Rely.UpheldBy (rely : Rely) (inv : Cells → Prop) : Prop :=
  ∀ {w w' : World} {task deadline token} {r : Request} {a : r.Answer}, rely.allowed token r →
    w.answer? task deadline r = some (a, w') → inv w.cells → inv w'.cells ∧ rely.granted r a

/-! ### Shared values -/

namespace World

variable {w w' : World}

theorem cells_stop (w : World) (tokens : List TokenId) : (w.stop tokens).cells = w.cells := by
  induction tokens generalizing w with
  | nil => rfl
  | cons token rest ih =>
    exact (ih (w.stopOne token)).trans (same_stopOne w token).cells

/-- Only offers change a tracker. -/
theorem trackers_answer? {task : TaskId} {deadline : Option Nat} {r : Request} {a : r.Answer}
    (there : w.answer? task deadline r = some (a, w')) (hr : r.isOffer = false) :
    w'.cells.trackers = w.cells.trackers := by
  cases r with
  | offer => contradiction
  | isStopped | now | stopwatch | newLimit | record | log | count =>
    cases there
    rfl
  | stop tokens =>
    cases there
    exact congrArg Cells.trackers (cells_stop w tokens)
  | sleep => exact eq_of_answer?_sleep there ▸ rfl
  | nextChild => exact eq_of_answer?_nextChild there ▸ rfl
  | acquire limit token =>
    rcases answer?_acquire there with ⟨-, -, rfl⟩ | ⟨-, -, rfl⟩ | ⟨-, l, l', -, -, rfl⟩
    · exact congrArg Cells.trackers (same_changeLimit w limit _).cells
    · rfl
    · rfl

theorem cells_spawn (w : World) (name : String) (parent : TokenId) (body : TokenId → Task) :
    (w.spawn name parent body).2.cells = w.cells :=
  (same_addTask { w with tokens := w.tokens.addBelow parent, spawned := true } name
    (some w.tokens.size) (body w.tokens.size)).cells

theorem cells_finish (w : World) (task : TaskId) (ending : Ending) :
    (w.finish task ending).cells = w.cells := by
  cases ht : w.tasks.get? task with
  | none =>
    unfold finish
    rw [ht]
  | some t =>
    rw [finish_eq ht]
    exact (same_wakeAll _ _).cells.trans (same_releaseAll w t.held).cells

end World

/-- Something is known of a task. -/
def Known.Of (known : Known) (task : TaskId) : Prop :=
  ∃ post, known task post

/-! ### Machines whose tasks meet their conditions -/

namespace Machine

/-- All tasks of which something is known, one condition of each, meet it. -/
structure Keeps (rely : Rely) (known : Known) (a : Machine) : Prop where
  unique : ∀ task post post', known task post → known task post' → post = post'
  size : ∀ task post, known task post → task < a.world.tasks.size
  running : ∀ task t post, known task post → a.control = .running task t →
    ∃ token, t.Meets rely token post known
  waiting : ∀ s ∈ a.world.suspended, ∀ post, known s.id post →
    ∃ token, (Task.ask s.request s.next).Meets rely token post known
  ended : ∀ task post place o, known task post → a.world.ended? task = some (place, o) → post o

variable {rely : Rely} {known : Known} {inv : Cells → Prop} {a b : Machine} {w w' : World}
variable {c : Control} {task : TaskId}

/-- What is known of the children that have ended justifies an answer. -/
theorem Keeps.justifies (keeps : a.Keeps rely known) {deadline : Option Nat} {r : Request}
    {ans : r.Answer} (there : a.world.answer? task deadline r = some (ans, w')) :
    r.Justifies known ans := by
  cases r with
  | nextChild pending patience =>
    cases ans with
    | none => trivial
    | some done =>
      have hfirst : a.world.firstCompletion? pending = some done := by
        simp only [World.answer?] at there
        split at there
        · next hfirst =>
          cases there
          exact hfirst
        · split at there <;> cases there
      obtain ⟨p, hp, hindex, place, hended⟩ := World.exists_of_firstCompletion? hfirst
      exact ⟨p, hp, hindex, fun post hpost => keeps.ended p.id post place _ hpost hended⟩
  | _ => trivial

namespace Keeps

/-- What begins and ends nothing leaves the tasks as they are, -/
theorem steady (keeps : Keeps rely known ⟨w, c⟩) (steady : w.Steady w') :
    Keeps rely known ⟨w', c⟩ where
  unique := keeps.unique
  size task post h := steady.size ▸ keeps.size task post h
  running := keeps.running
  waiting := steady.suspended ▸ keeps.waiting
  ended task post place o h hended := keeps.ended task post place o h (steady.ended task ▸ hended)

/-- and so does the start of a task of which nothing is known. -/
theorem addTask (keeps : Keeps rely known ⟨w, c⟩) (name : String) (token : Option TokenId)
    (program : Task) : Keeps rely known ⟨w.addTask name token program, c⟩ where
  unique := keeps.unique
  size task post h := by
    rw [(World.same_addTask w name token program).tasks]
    exact (Table.size_push _ _).symm ▸ Nat.lt_succ_of_lt (keeps.size task post h)
  running := keeps.running
  waiting s hs post h := by
    rw [(World.same_addTask w name token program).suspended] at hs
    rcases List.mem_append.mp hs with hs | hs
    · exact keeps.waiting s hs post h
    · obtain rfl := List.mem_singleton.mp hs
      exact absurd (keeps.size _ post h) (Nat.lt_irrefl _)
  ended task post place o h hended :=
    keeps.ended task post place o h (World.ended?_addTask w name token program task ▸ hended)

theorem spawn (keeps : Keeps rely known ⟨w, c⟩) (name : String) (parent : TokenId)
    (body : TokenId → Task) : Keeps rely known ⟨(w.spawn name parent body).2, c⟩ :=
  (keeps.steady (World.steady_addBelow w parent)).addTask name _ _

/-- A task that is started is known to meet what its program does. -/
theorem begin {post : Outcome → Prop} {program : Task} {token : TokenId}
    (sound : Sound a) (keeps : a.Keeps rely known) (new : ¬ known.Of w.tasks.size)
    (begun : w.begun program ∈ a.world.suspended)
    (meets : program.Meets rely token post known) :
    a.Keeps rely (known.add w.tasks.size post) := by
  have hlearn : ∀ i p, known i p → known.add w.tasks.size post i p := fun i p => .inl
  constructor
  · rintro task p p' (h | ⟨rfl, rfl⟩) (h' | ⟨heq, rfl⟩)
    · exact keeps.unique task p p' h h'
    · exact absurd ⟨p, heq ▸ h⟩ new
    · exact absurd ⟨p', h'⟩ new
    · rfl
  · rintro task p (h | ⟨rfl, rfl⟩)
    · exact keeps.size task p h
    · exact (sound.waits _ begun).1
  · rintro task t p (h | ⟨rfl, rfl⟩) hrunning
    · obtain ⟨token', hmeets⟩ := keeps.running task t p h hrunning
      exact ⟨token', hmeets.learn hlearn⟩
    · exact absurd rfl ((sound.runs _ t hrunning).2.2 _ begun)
  · rintro s hs p (h | ⟨hid, rfl⟩)
    · obtain ⟨token', hmeets⟩ := keeps.waiting s hs p h
      exact ⟨token', hmeets.learn hlearn⟩
    · obtain rfl := sound.eq_of_id hs begun hid
      exact ⟨token, Task.meets_ask trivial rfl fun _ _ => meets.learn hlearn⟩
  · rintro task p place o (h | ⟨rfl, rfl⟩) hended
    · exact keeps.ended task p place o h hended
    · cases (sound.waits _ begun).2.symm.trans hended

/-- A task that ends has an outcome as it is known to have. -/
theorem finish {t : Task} (sound : Sound ⟨w, .running task t⟩)
    (keeps : Keeps rely known ⟨w, .running task t⟩) {ending : Ending}
    (hpost : ∀ post, known task post → ∀ name, post (ending.outcome name)) :
    Keeps rely known ⟨w.finish task ending, .idle⟩ where
  unique := keeps.unique
  size task' post h := (World.size_finish w task ending).symm ▸ keeps.size task' post h
  running := nofun
  waiting := (World.finish_keeps w task ending).2.2 ▸ keeps.waiting
  ended task' post place o h hended := by
    by_cases heq : task = task'
    · subst heq
      obtain ⟨place', name, hended'⟩ := World.ended?_finish (sound.runs task t rfl).1 ending
      cases hended.symm.trans hended'
      exact hpost post h name
    · rw [show World.ended? _ task' = _ from World.ended?_finish_of_ne w heq ending] at hended
      exact keeps.ended task' post place o h hended

/-- A task goes on with a program that meets what is known of the task. -/
theorem run {t : Task} (keeps : Keeps rely known ⟨w, c⟩)
    (h : ∀ post, known task post → ∃ token, t.Meets rely token post known) :
    Keeps rely known ⟨w, .running task t⟩ :=
  { keeps with
    running := fun task' t' post hpost hrunning => by
      cases hrunning
      exact h post hpost }

/-- No task is running. -/
theorem rest {c' : Control} (keeps : Keeps rely known ⟨w, c⟩)
    (hc : ∀ task t, c' ≠ .running task t) : Keeps rely known ⟨w, c'⟩ :=
  { keeps with running := fun task t _ _ hrunning => absurd hrunning (hc task t) }

/-- A task that begins to wait meets its condition still, -/
theorem suspend {r : Request} {next : r.Answer → Task}
    (keeps : Keeps rely known ⟨w, .running task (.ask r next)⟩) :
    Keeps rely known ⟨w.suspend task r next, .idle⟩ := by
  obtain ⟨limits, hworld⟩ := World.suspend_eq w task r next
  refine Keeps.steady ?_ hworld.steady
  refine ⟨keeps.unique, keeps.size, nofun, ?_, keeps.ended⟩
  refine List.forall_mem_append.mpr ⟨keeps.waiting, List.forall_mem_singleton.mpr ?_⟩
  exact fun post hpost => keeps.running task _ post hpost rfl

/-- and goes on with what its request allows it to meet. -/
theorem resume {s : Suspended} {ans : s.request.Answer} (upheld : rely.UpheldBy inv)
    (keeps : Keeps rely known ⟨w, .turnOf task⟩) (hinv : inv w.cells)
    (found : (w.suspended.find? fun s => s.id = task) = some s)
    (there : w.answer? task s.deadline s.request = some (ans, w')) :
    Keeps rely known
      ⟨{ w' with suspended := w'.suspended.filter (fun s => s.id != task), spawned := false },
        .running task (s.next ans)⟩ := by
  have keeps' := keeps.steady (World.steady_answer? there)
  have hfiltered : Keeps rely known ⟨{ w' with
      suspended := w'.suspended.filter (fun s => s.id != task), spawned := false },
      .turnOf task⟩ :=
    { keeps' with waiting := fun s hs => keeps'.waiting s (List.mem_filter.mp hs).1 }
  refine hfiltered.run fun post hpost => ?_
  have hid : s.id = task := by simpa using List.find?_some found
  obtain ⟨token, hallowed, hnext⟩ :=
    keeps.waiting s (List.mem_of_find?_eq_some found) post (hid ▸ hpost)
  exact ⟨token, hnext ans ⟨(upheld hallowed there hinv).2, keeps.justifies there⟩⟩

/-- A task of which something is known starts a child, of which something is known then, too. -/
theorem start {name : String} {parent : TokenId} {body : TokenId → Task} {next : Child → Task}
    (sound : Sound ⟨w, .running task (.spawn name parent body next)⟩)
    (keeps : Keeps rely known ⟨w, .running task (.spawn name parent body next)⟩)
    (hof : known.Of task) : ∃ post, Keeps rely (known.add w.tasks.size post)
      ⟨(w.spawn name parent body).2, .running task (next (w.spawn name parent body).1)⟩ := by
  obtain ⟨post, hpost⟩ := hof
  obtain ⟨token, post', hbody, hnext⟩ := keeps.running task _ post hpost rfl
  have begun : w.begun (body w.tokens.size) ∈ (w.spawn name parent body).2.suspended := by
    rw [(World.spawn_keeps _ _ _ _).2.2]
    exact List.mem_append_right _ List.mem_cons_self
  have new : ¬ known.Of w.tasks.size := by
    rintro ⟨p, hp⟩
    exact Nat.lt_irrefl _ (keeps.size _ p hp)
  have hsound : Sound ⟨(w.spawn name parent body).2, .idle⟩ := (sound.spawn name parent body).idle
  have hidle : Keeps rely known ⟨(w.spawn name parent body).2, .idle⟩ :=
    (keeps.spawn name parent body).rest nofun
  refine ⟨post', (hidle.begin hsound new begun (hbody w.tokens.size)).run ?_⟩
  rintro p (hp | ⟨heq, -⟩)
  · rw [keeps.unique task p post hp hpost]
    exact ⟨token, hnext _ _⟩
  · exact absurd (sound.runs task _ rfl).1 (heq ▸ Nat.lt_irrefl _)

end Keeps

/-- A step keeps what is known, and more is known after it if it starts a child of a task of which
something is known. -/
theorem Step.keeps (upheld : rely.UpheldBy inv) (step : Step a b) (sound : Sound a)
    (keeps : a.Keeps rely known) (hinv : inv a.world.cells) :
    ∃ known', (∀ i p, known i p → known' i p) ∧ b.Keeps rely known' ∧
      ∀ p c, known.Of p → a.Starts b p c → known'.Of c.id := by
  -- a step that is no start leaves what is known as it is
  have hsame (h : b.Keeps rely known)
      (hno : ∀ task name parent body next, known.Of task →
        a.control ≠ .running task (.spawn name parent body next)) :
      ∃ known', (∀ i p, known i p → known' i p) ∧ b.Keeps rely known' ∧
        ∀ p c, known.Of p → a.Starts b p c → known'.Of c.id := by
    refine ⟨known, fun _ _ => id, h, ?_⟩
    rintro p c hp ⟨name, parent, body, next, hcontrol, -⟩
    exact absurd hcontrol (hno p name parent body next hp)
  cases step with
  | @answer w w' task r next ans there =>
    refine hsame ((keeps.steady (World.steady_answer? there)).run fun post hpost => ?_) nofun
    obtain ⟨token, hallowed, hnext⟩ := keeps.running task _ post hpost rfl
    exact ⟨token, hnext ans ⟨(upheld hallowed there hinv).2, keeps.justifies there⟩⟩
  | suspend => exact hsame keeps.suspend nofun
  | @spawn w task name parent body next =>
    by_cases hof : known.Of task
    · obtain ⟨post, keeps'⟩ := keeps.start sound hof
      refine ⟨known.add w.tasks.size post, fun i p => .inl, keeps', ?_⟩
      rintro p c - ⟨name', parent', body', next', hcontrol, hspawn⟩
      cases hcontrol
      exact ⟨post, .inr ⟨congrArg (fun x => x.1.id) hspawn.symm, rfl⟩⟩
    · refine hsame ((keeps.spawn name parent body).run fun post hpost => ?_) ?_
      · exact absurd ⟨post, hpost⟩ hof
      · rintro task' name' parent' body' next' hof' hcontrol
        cases hcontrol
        exact hof hof'
  | @done w task o =>
    refine hsame (keeps.finish sound fun post hpost name => ?_) nofun
    obtain ⟨token, h⟩ := keeps.running task _ post hpost rfl
    exact h
  | @panic w task payload =>
    refine hsame (keeps.finish sound fun post hpost name => ?_) nofun
    obtain ⟨token, h⟩ := keeps.running task _ post hpost rfl
    exact h name
  | endless | drive | stay => exact hsame (keeps.rest nofun) nofun
  | turn => exact hsame { keeps with running := nofun } nofun
  | @clock w instant =>
    have keeps' : Keeps rely known ⟨{ w with now := instant }, .idle⟩ := { keeps with }
    exact hsame (keeps'.steady (World.same_wakeAll _ _).steady) nofun
  | resume found there => exact hsame (keeps.resume upheld hinv found there) nofun

/-- A task of which something is known is running or has its turn. -/
def Busy (known : Known) (a : Machine) : Prop :=
  ∃ task, known.Of task ∧ (a.control = .turnOf task ∨ ∃ t, a.control = .running task t)

/-- A step of such a task keeps the condition on the shared values. -/
theorem Step.upholds (upheld : rely.UpheldBy inv) (step : Step a b) (keeps : a.Keeps rely known)
    (hinv : inv a.world.cells) (busy : a.Busy known) : inv b.world.cells := by
  obtain ⟨task, ⟨post, hpost⟩, hcontrol⟩ := busy
  cases step with
  | @answer w w' task' r next ans there =>
    obtain ⟨t, hrunning⟩ := hcontrol.resolve_left nofun
    cases hrunning
    obtain ⟨token, hallowed, -⟩ := keeps.running task _ post hpost rfl
    exact (upheld hallowed there hinv).1
  | @suspend w task' r next =>
    obtain ⟨limits, hworld⟩ := World.suspend_eq w task' r next
    exact hworld.cells ▸ hinv
  | spawn => exact (World.cells_spawn _ _ _ _).symm ▸ hinv
  | done | panic => exact (World.cells_finish _ _ _).symm ▸ hinv
  | endless | stay => exact hinv
  | turn | drive | clock => simp at hcontrol
  | @resume w w' task' s ans found there =>
    cases hcontrol.resolve_right nofun
    have hid : s.id = task := by simpa using List.find?_some found
    obtain ⟨token, hallowed, -⟩ :=
      keeps.waiting s (List.mem_of_find?_eq_some found) post (hid ▸ hpost)
    exact (upheld hallowed there hinv).1

theorem Touch.control (touch : Touch a b) : a.control = .idle := by
  cases touch <;> rfl

/-- From outside no task starts a child, -/
theorem Touch.not_starts (touch : Touch a b) {parent : TaskId} {child : Child} :
    ¬ a.Starts b parent child := by
  rintro ⟨name, token, body, next, hcontrol, -⟩
  cases touch.control.symm.trans hcontrol

/-- nor does it as the world stands still. -/
theorem not_starts_self {parent : TaskId} {child : Child} : ¬ a.Starts a parent child := by
  rintro ⟨name, token, body, next, -, hspawn⟩
  have hsize := World.size_spawn a.world name token body
  rw [hspawn] at hsize
  exact absurd hsize (Nat.ne_of_lt (Nat.lt_succ_self _))

/-- Whatever is done from outside keeps what is known. -/
theorem Touch.keeps (touch : Touch a b) (keeps : a.Keeps rely known) : b.Keeps rely known := by
  cases touch with
  | start => exact keeps.spawn _ _ _
  | enter w program =>
    have keeps' : Keeps rely known ⟨{ w with outer := some w.tasks.size }, .idle⟩ := { keeps with }
    exact keeps'.addTask "" none program
  | leave => exact { keeps with }
  | change steady => exact keeps.steady steady

end Machine

/-! ### Traces -/

namespace Trace

variable {tr : Trace} {rely : Rely} {inv : Cells → Prop} {first k : Nat} {root : TaskId}

/-- The members of a run up to a moment: its own task and all tasks started below it. -/
def Member (tr : Trace) (first : Nat) (root : TaskId) (k : Nat) (task : TaskId) : Prop :=
  task = root ∨ ∃ i c, tr.Below first root i c ∧ i < k ∧ c.id = task

/-- A member is running or has its turn. -/
def Active (tr : Trace) (first : Nat) (root : TaskId) (k : Nat) : Prop :=
  ∃ task, tr.Member first root k task ∧
    ((tr.machine k).control = .turnOf task ∨ ∃ t, (tr.machine k).control = .running task t)

/-- Each member is one already, or is started by one. -/
theorem Member.of_succ {task : TaskId} (member : tr.Member first root (k + 1) task) :
    tr.Member first root k task ∨
      ∃ p c, tr.Member first root k p ∧ tr.Starts k p c ∧ c.id = task := by
  rcases member with hroot | ⟨i, c, below, hi, hid⟩
  · exact .inl (.inl hroot)
  · rcases Nat.lt_or_eq_of_le (Nat.le_of_lt_succ hi) with hlt | rfl
    · exact .inl (.inr ⟨i, c, below, hlt, hid⟩)
    · cases below with
      | child _ starts => exact .inr ⟨root, c, .inl rfl, starts, hid⟩
      | @deeper j _ p _ below hj starts =>
        exact .inr ⟨p.id, c, .inr ⟨j, p, below, hj, rfl⟩, starts, hid⟩

/-- If a run begins with a program that meets its condition under a rely, and nobody else destroys what
upholds the rely, this is upheld at every moment, and the run ends as its program says. -/
theorem upholds {w : World} {program : Task} {token : TokenId} {post : Outcome → Prop}
    (upheld : rely.UpheldBy inv) (begun : w.begun program ∈ (tr.machine first).world.suspended)
    (meets : program.Meets rely token post .nothing) (initially : inv (tr.history.world first).cells)
    (others : ∀ k, first ≤ k → ¬ tr.Active first w.tasks.size k →
      inv (tr.history.world k).cells → inv (tr.history.world (k + 1)).cells)
    (hk : first ≤ k) : inv (tr.history.world k).cells ∧
      ∀ place o, tr.history.ended? k w.tasks.size = some (place, o) → post o := by
  suffices h : ∃ known : Known, known w.tasks.size post ∧ (tr.machine k).Keeps rely known ∧
      inv (tr.history.world k).cells ∧ ∀ task, tr.Member first w.tasks.size k task → known.Of task by
    obtain ⟨known, hroot, keeps, hinv, -⟩ := h
    exact ⟨hinv, fun place o hended => keeps.ended _ post place o hroot hended⟩
  induction hk with
  | refl =>
    have hnothing : (tr.machine first).Keeps rely .nothing := ⟨nofun, nofun, nofun, nofun, nofun⟩
    have hbegin := hnothing.begin (tr.sound_at first) nofun begun meets
    refine ⟨_, .inr ⟨rfl, rfl⟩, hbegin, initially, ?_⟩
    rintro task (rfl | ⟨i, c, below, hi, -⟩)
    · exact ⟨post, .inr ⟨rfl, rfl⟩⟩
    · exact absurd hi (Nat.not_lt_of_le below.le)
  | @step k hk ih =>
    obtain ⟨known, hroot, keeps, hinv, hmembers⟩ := ih
    have hbusy (hactive : tr.Active first w.tasks.size k) : (tr.machine k).Busy known := by
      obtain ⟨task, member, hcontrol⟩ := hactive
      exact ⟨task, hmembers task member, hcontrol⟩
    -- if nothing is started, the members remain the same
    have hsame (hno : ∀ p c, ¬ tr.Starts k p c) (task : TaskId)
        (member : tr.Member first w.tasks.size (k + 1) task) : known.Of task := by
      rcases member.of_succ with member | ⟨p, c, -, starts, -⟩
      · exact hmembers task member
      · exact absurd starts (hno p c)
    rcases tr.move k with (step | touch) | still
    · obtain ⟨known', hlearn, keeps', hstarts⟩ := step.keeps upheld (tr.sound_at k) keeps hinv
      refine ⟨known', hlearn _ _ hroot, keeps', ?_, fun task member => ?_⟩
      · by_cases hactive : tr.Active first w.tasks.size k
        · exact step.upholds upheld keeps hinv (hbusy hactive)
        · exact others k hk hactive hinv
      · rcases member.of_succ with member | ⟨p, c, hp, starts, rfl⟩
        · obtain ⟨p, hp⟩ := hmembers task member
          exact ⟨p, hlearn task p hp⟩
        · exact hstarts p c (hmembers p hp) starts
    · refine ⟨known, hroot, touch.keeps keeps, ?_, hsame fun _ _ => touch.not_starts⟩
      refine others k hk (fun hactive => ?_) hinv
      obtain ⟨task, -, hcontrol⟩ := hbusy hactive
      simp [touch.control] at hcontrol
    · have hstill := still (k + 1) (Nat.le_succ k)
      refine ⟨known, hroot, hstill.symm ▸ keeps, ?_, hsame fun p c starts => ?_⟩
      · rw [show tr.history.world (k + 1) = tr.history.world k from congrArg Machine.world hstill]
        exact hinv
      · rw [Starts, hstill] at starts
        exact Machine.not_starts_self starts

end Trace

end Orchestra
