import Orchestra.Proofs.World.Following

/-!
# What a program comes to

A schedule says what happens at each moment at which no task is running: the world goes on by itself,
or something is done to it from outside. Under a schedule there is one way to go on, so that programs
can be compared that begin at the same moment in the same world under the same schedule: the one does
what the other does as long as their requests are the same.

A program that is followed by another one comes to what the other one comes to, from the point at
which the first one is over.
-/

namespace Orchestra

/-- What may happen while no task is running. -/
inductive Happening where
  /-- The world goes on by itself. -/
  | next
  | stop (tokens : List TokenId)
  /-- The task that drives the world has its turn. -/
  | drive
  | pass (span : Duration)
  /-- A run is started. -/
  | start (name : String) (parent : TokenId) (body : TokenId → Task)

/-- What happens at each moment at which no task is running. -/
abbrev Schedule := Nat → Happening

/-- A moment with its world. -/
structure Point where
  moment : Nat
  world : World

namespace Machine

variable {sched : Schedule} {task : TaskId} {K : Outcome → Task} {a : Machine}

/-- What happens to a world in which no task is running. -/
def happen (w : World) : Happening → Machine
  | .next => next ⟨w, .idle⟩
  | .stop tokens => ⟨w.stop tokens, .idle⟩
  | .drive =>
    match w.outer with
    | some task => ⟨w, .turnOf task⟩
    | none => ⟨w, .idle⟩
  | .pass span => ⟨w.moveTo (w.now + span.nanos), .idle⟩
  | .start name parent body => ⟨(w.spawn name parent body).2, .idle⟩

/-- The next machine. A running task makes its next request, whatever the schedule says. -/
def go (h : Happening) : Machine → Machine
  | ⟨w, .idle⟩ => happen w h
  | a => a.next

/-- Waits are in order, and a task has been started. -/
structure Has (a : Machine) (task : TaskId) : Prop where
  sound : a.Sound
  started : task < a.world.tasks.size

/-- The world goes on by itself in an orderly way, -/
theorem Has.next (has : a.Has task) : a.next.Has task := by
  rcases step_next has.sound with step | ⟨-, still⟩
  · exact ⟨step.sound has.sound, Nat.lt_of_lt_of_le has.started (step.later has.sound).size⟩
  · rw [still]
    exact has

/-- and so it does under a schedule. -/
theorem Has.go (has : a.Has task) (h : Happening) : (a.go h).Has task := by
  obtain ⟨w, control⟩ := a
  cases control with
  | running | turnOf => exact has.next
  | idle =>
    cases h with
    | next => exact has.next
    | stop tokens =>
      have hsteady := World.steady_stop w tokens
      exact ⟨has.sound.steady hsteady, Nat.lt_of_lt_of_le has.started hsteady.later.size⟩
    | drive =>
      simp only [Machine.go, happen]
      split
      · exact ⟨has.sound.drive, has.started⟩
      · exact has
    | pass span =>
      have hsame := World.same_wakeAll { w with now := w.now + span.nanos }
      refine ⟨has.sound.moveTo _, Nat.lt_of_lt_of_le has.started (hsame _).later.size⟩
    | start name parent body =>
      have hlater := World.later_spawn w name parent body
      exact ⟨has.sound.spawn name parent body, Nat.lt_of_lt_of_le has.started hlater.size⟩

/-- As long as the program of a task is not over, the schedule leads on in the same way if the task
is followed by more. -/
theorem go_followedBy (has : a.Has task) (hover : ¬ a.PartOver task) (h : Happening) :
    (a.followedBy task K).go h = (a.go h).followedBy task K := by
  have hnext := next_followedBy (K := K) has.started hover
  obtain ⟨w, control⟩ := a
  cases control with
  | running | turnOf => exact hnext
  | idle =>
    cases h with
    | next => exact hnext
    | stop tokens => exact congrArg (Machine.mk · .idle) (World.stop_followedBy w tokens)
    | drive =>
      have houter : (w.followedBy task K).outer = w.outer := rfl
      simp only [followedBy, Control.followedBy, Machine.go, happen]
      rw [houter]
      cases w.outer <;> rfl
    | pass span => exact congrArg (Machine.mk · .idle) (World.moveTo_followedBy w _)
    | start name parent body =>
      have hspawn := World.spawn_followedBy (K := K) (Nat.ne_of_gt has.started) name parent body
      exact congrArg (fun x => Machine.mk x.2 .idle) hspawn

/-- Under a schedule a machine comes to the point at which the program of a task is over for the
first time. -/
inductive Comes (sched : Schedule) (task : TaskId) : Nat → Machine → Point → Outcome → Prop
  | done {m : Nat} {w : World} {o : Outcome} : Comes sched task m ⟨w, .running task (.done o)⟩ ⟨m, w⟩ o
  | go {m : Nat} {a : Machine} {p : Point} {o : Outcome} (hover : ¬ a.PartOver task)
    (rest : Comes sched task (m + 1) (a.go (sched m)) p o) : Comes sched task m a p o

namespace Comes

variable {m : Nat} {p q : Point} {o o' : Outcome}

/-- It comes to one outcome, at one point. -/
theorem unique (comes : Comes sched task m a p o) (comes' : Comes sched task m a q o') :
    q = p ∧ o' = o := by
  induction comes with
  | done =>
    cases comes' with
    | done => exact ⟨rfl, rfl⟩
    | go hover => exact absurd ⟨_, rfl⟩ hover
  | go hover _ ih =>
    cases comes' with
    | done => exact absurd ⟨_, rfl⟩ hover
    | go _ rest => exact ih rest

/-- Waits are in order then. -/
theorem has (comes : Comes sched task m a p o) (has : a.Has task) :
    Has ⟨p.world, .running task (.done o)⟩ task := by
  induction comes with
  | done => exact has
  | go _ _ ih => exact ih (has.go _)

end Comes

/-- What the program of a task comes to, computed in a number of moments. -/
def result? (sched : Schedule) (task : TaskId) : (moments : Nat) → Nat → Machine →
    Option (Point × Outcome)
  | 0, _, _ => none
  | moments + 1, m, a =>
    match a with
    | ⟨w, .running task' (.done o)⟩ =>
      if task' = task then some (⟨m, w⟩, o) else result? sched task moments (m + 1) (a.go (sched m))
    | a => result? sched task moments (m + 1) (a.go (sched m))

theorem comes_of_result? (moments : Nat) {m : Nat} {p : Point} {o : Outcome}
    (h : result? sched task moments m a = some (p, o)) : Comes sched task m a p o := by
  induction moments generalizing m a with
  | zero => contradiction
  | succ moments ih =>
    unfold result? at h
    split at h
    · split at h
      · next heq =>
        cases h
        subst heq
        exact .done
      · next hne =>
        refine .go (fun ⟨o', ho'⟩ => ?_) (ih h)
        cases ho'
        exact hne rfl
    · next hover =>
      refine .go (fun ⟨o', ho'⟩ => ?_) (ih h)
      obtain ⟨w, control⟩ := a
      cases ho'
      exact hover w task o' rfl

/-- It comes to something that passes a test if what is computed passes it. -/
theorem exists_comes_of_result? (moments : Nat) {m : Nat} {test : Point × Outcome → Bool}
    (h : (result? sched task moments m a).any test = true) :
    ∃ p o, Comes sched task m a p o ∧ test (p, o) = true := by
  obtain ⟨⟨p, o⟩, hresult, htest⟩ := (Option.any_eq_true _ _).mp h
  exact ⟨p, o, comes_of_result? moments hresult, htest⟩

/-! ### One program after another -/

/-- A running task has no waits, so that what follows it shows in its program only. -/
theorem Has.followedBy_running {w : World} {t : Task} (has : Has ⟨w, .running task t⟩ task) :
    followedBy ⟨w, .running task t⟩ task K = ⟨w, .running task (t.andThen K)⟩ := by
  obtain ⟨-, -, hothers⟩ := has.sound.runs task t rfl
  simp only [followedBy, Control.followedBy, World.followedBy_eq_self hothers, decide_true,
    Task.followedBy_true]

/-- A program that is followed by more is over only if it was over before. -/
theorem PartOver.of_followedBy (hover : (a.followedBy task K).PartOver task) : a.PartOver task := by
  obtain ⟨o, ho⟩ := hover
  obtain ⟨w, control⟩ := a
  cases control with
  | idle | turnOf => contradiction
  | running task' t =>
    simp only [Machine.followedBy, Control.followedBy, Control.running.injEq] at ho
    obtain ⟨rfl, ht⟩ := ho
    cases t with
    | done o' => exact ⟨o', rfl⟩
    | _ => simp at ht

variable {m : Nat} {p q : Point} {o o' : Outcome}

/-- Whatever follows begins at the point at which the program is over. -/
theorem Comes.followedBy (comes : Comes sched task m a p o) (has : a.Has task)
    (rest : Comes sched task p.moment ⟨p.world, .running task (K o)⟩ q o') :
    Comes sched task m (a.followedBy task K) q o' := by
  induction comes with
  | done =>
    rw [has.followedBy_running]
    exact rest
  | go hover _ ih =>
    refine .go (fun h => hover h.of_followedBy) ?_
    rw [go_followedBy has hover]
    exact ih (has.go _) rest

/-- If a program that is followed by more comes to an outcome, it is over on the way. -/
theorem Comes.of_followedBy (comes : Comes sched task m (a.followedBy task K) q o')
    (has : a.Has task) : ∃ p o, Comes sched task m a p o ∧
      Comes sched task p.moment ⟨p.world, .running task (K o)⟩ q o' := by
  generalize hb : a.followedBy task K = b at comes
  have hover {a : Machine} {m : Nat} {b : Machine} (comes : Comes sched task m b q o')
      (has : a.Has task) (hb : a.followedBy task K = b) (hover : a.PartOver task) :
      ∃ p o, Comes sched task m a p o ∧
        Comes sched task p.moment ⟨p.world, .running task (K o)⟩ q o' := by
    obtain ⟨o, ho⟩ := hover
    obtain ⟨w, control⟩ := a
    cases ho
    rw [has.followedBy_running] at hb
    subst hb
    exact ⟨⟨m, w⟩, o, .done, comes⟩
  induction comes generalizing a with
  | done => exact hover .done has hb (PartOver.of_followedBy ⟨_, congrArg Machine.control hb⟩)
  | go running rest ih =>
    by_cases hpart : a.PartOver task
    · exact hover (.go running rest) has hb hpart
    · obtain ⟨p, o, hfirst, hrest⟩ := ih (has.go _) (by rw [← hb, go_followedBy has hpart]) hover
      exact ⟨p, o, .go hpart hfirst, hrest⟩

/-- A task that neither runs nor waits comes to nothing. -/
theorem not_comes_of_unaffected (has : a.Has task) (h : ∀ K, a.followedBy task K = a) :
    ¬ Comes sched task m a p o := by
  intro comes
  have hconstant (o' : Outcome) : o = o' := by
    have hfollowed := comes
    rw [← h fun _ => .done o'] at hfollowed
    obtain ⟨q, -, -, hrest⟩ := hfollowed.of_followedBy has
    exact (Comes.unique .done hrest).2
  have hcancelled := hconstant (.error .cancelled)
  rw [hconstant (.ok default)] at hcancelled
  contradiction

end Machine

/-! ### Programs -/

/-- In the world of a point waits are in order, and the task may run. -/
def Point.Ready (p : Point) (task : TaskId) : Prop :=
  Machine.Sound ⟨p.world, .running task .endless⟩

/-- A task that runs the program from a point on comes to an outcome. -/
def Task.Comes (t : Task) (sched : Schedule) (task : TaskId) (p q : Point) (o : Outcome) : Prop :=
  Machine.Comes sched task p.moment ⟨p.world, .running task t⟩ q o

variable {sched : Schedule} {task : TaskId} {p q : Point} {o o' : Outcome} {t : Task}

theorem Point.Ready.has (ready : p.Ready task) (t : Task) :
    Machine.Has ⟨p.world, .running task t⟩ task :=
  ⟨ready.rest t, (ready.runs task _ rfl).1⟩

/-- The point at which a request has been answered. -/
def Point.next (p : Point) (w : World) : Point :=
  ⟨p.moment + 1, w⟩

/-- A request that is answered at once leaves the task ready. -/
theorem Point.Ready.next (ready : p.Ready task) {r : Request} {deadline : Option Nat} {a : r.Answer}
    {w : World} (there : p.world.answer? task deadline r = some (a, w)) : (p.next w).Ready task :=
  ready.steady (World.steady_answer? there)

/-- The point at which a run has its first turn that is started in a new session. -/
def Point.first : Point :=
  ⟨0, (Machine.fresh [fun _ => .endless]).next.next.world⟩

theorem Point.ready_first : Point.first.Ready 0 := by
  have hfresh : (Machine.fresh [fun _ => .endless]).Has 0 :=
    ⟨Machine.sound_fresh _, by with_unfolding_all decide⟩
  have hcontrol : (Machine.fresh [fun _ => .endless]).next.next.control = .running 0 .endless := by
    with_unfolding_all rfl
  have hsound := hfresh.next.next.sound
  rwa [show (Machine.fresh [fun _ => .endless]).next.next = ⟨Point.first.world, .running 0 .endless⟩ from
    congrArg (Machine.mk _) hcontrol] at hsound

/-- The point at which the program of a task is over, if that is so after a number of moments. -/
def Point.whenOver (p : Point) (sched : Schedule) (task : TaskId) (moments : Nat) (t : Task) : Point :=
  ((Machine.result? sched task moments p.moment ⟨p.world, .running task t⟩).map Prod.fst).getD p

namespace Task

theorem Comes.ready (comes : t.Comes sched task p q o) (ready : p.Ready task) : q.Ready task :=
  (Machine.Comes.has comes (ready.has t)).sound.rest _

/-- A program comes to one outcome, at one point. -/
theorem Comes.unique (comes : t.Comes sched task p q o) {q' : Point}
    (comes' : t.Comes sched task p q' o') : q' = q ∧ o' = o :=
  Machine.Comes.unique comes comes'

theorem comes_done_iff : (done o).Comes sched task p q o' ↔ q = p ∧ o' = o := by
  constructor
  · exact fun comes => Machine.Comes.unique .done comes
  · rintro ⟨rfl, rfl⟩
    exact .done

/-- A request that is answered at once takes one moment. -/
theorem comes_ask_iff {r : Request} {next : r.Answer → Task} {a : r.Answer} {w : World}
    (there : p.world.answer? task (p.world.deadline? r) r = some (a, w)) :
    (ask r next).Comes sched task p q o ↔ (next a).Comes sched task (p.next w) q o := by
  have hgo : Machine.go (sched p.moment) ⟨p.world, .running task (ask r next)⟩ =
      ⟨w, .running task (next a)⟩ := by
    simp only [Machine.go, Machine.next, there]
  unfold Comes
  constructor
  · intro comes
    cases comes with
    | go _ rest =>
      rw [hgo] at rest
      exact rest
  · intro rest
    refine .go ?_ ?_
    · rintro ⟨o', ho'⟩
      cases ho'
    · rw [hgo]
      exact rest

/-- Whatever follows a program begins where the program is over. -/
theorem comes_andThen_iff (ready : p.Ready task) {K : Outcome → Task} :
    (t.andThen K).Comes sched task p q o ↔
      ∃ k o', t.Comes sched task p k o' ∧ (K o').Comes sched task k q o := by
  unfold Comes
  rw [← (ready.has t).followedBy_running]
  constructor
  · exact fun comes => comes.of_followedBy (ready.has t)
  · rintro ⟨k, o', first, rest⟩
    exact first.followedBy (ready.has t) rest

/-- A program that is cut off comes to nothing. -/
theorem not_comes_endless (ready : p.Ready task) : ¬ endless.Comes sched task p q o := by
  intro comes
  cases comes with
  | go _ rest =>
    obtain ⟨-, -, hothers⟩ := ready.runs task _ rfl
    refine Machine.not_comes_of_unaffected ((ready.has endless).go _) (fun K => ?_) rest
    exact congrArg (Machine.mk · .idle) (World.followedBy_eq_self hothers)

end Task

end Orchestra
