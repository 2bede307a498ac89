import Orchestra.Proofs.World.Sound

/-!
# Running is a sequence of steps

The functions that run a world are sequences of its steps: a task that is resumed runs up to its next
wait, the queue is worked off turn by turn, a task that drives the world has its turn whenever the
queue is empty, and the clock moves from timer to timer.
-/

namespace Orchestra

open Relation

namespace Machine

variable {w w' : World} {task : TaskId}

/-- A task runs step by step until it waits or ends. -/
theorem steps_exec (task : TaskId) (t : Task) (w : World) :
    Steps ⟨w, .running task t⟩ ⟨w.exec task t, .idle⟩ := by
  induction t generalizing w with
  | done o => exact .single .done
  | panic payload => exact .single .panic
  | endless => exact .single .endless
  | ask r next ih =>
    rw [World.exec]
    cases there : w.answer? task (w.deadline? r) r with
    | some answered =>
      obtain ⟨a, w'⟩ := answered
      exact .head (.answer there) (ih a w')
    | none => exact .single (.suspend there)
  | spawn name parent body next _ ih =>
    rw [World.exec]
    exact .head .spawn (ih _ _)

/-- A task whose turn it is runs, if its request has an answer. -/
theorem steps_resume? (h : w.resume? task = some w') : Steps ⟨w, .turnOf task⟩ ⟨w', .idle⟩ := by
  unfold World.resume? at h
  split at h
  · contradiction
  · next s found =>
    split at h
    · contradiction
    · next a w₁ there =>
      cases h
      exact .head (.resume found there) (steps_exec task _ _)

/-- Otherwise the turn is over. -/
theorem steps_turnOf (w : World) (task : TaskId) :
    Steps ⟨w, .turnOf task⟩ ⟨(w.resume? task).getD w, .idle⟩ := by
  cases h : w.resume? task with
  | some w' => exact steps_resume? h
  | none => exact .single (.stay h)

theorem steps_turn? (h : w.turn? = some w') : Steps ⟨w, .idle⟩ ⟨w', .idle⟩ := by
  unfold World.turn? at h
  split at h
  · contradiction
  · next task rest queue =>
    cases h
    exact .head (.turn queue) (steps_turnOf _ task)

theorem turn?_eq_none (h : w.turn? = none) : w.queue = [] := by
  unfold World.turn? at h
  split at h
  · assumption
  · contradiction

/-- The queue is worked off turn by turn. -/
theorem steps_settle (count : Nat) (w : World) : Steps ⟨w, .idle⟩ ⟨w.settle count, .idle⟩ := by
  induction count generalizing w with
  | zero => exact .refl
  | succ count ih =>
    rw [World.settle]
    cases h : w.turn? with
    | some w' => exact (steps_turn? h).trans (ih w')
    | none => exact .refl

/-- A task that runs takes no time. -/
theorem clock_exec (task : TaskId) (t : Task) (w : World) : (w.exec task t).now = w.now := by
  induction t generalizing w with
  | done | panic => exact (World.finish_keeps w task _).1
  | endless => rfl
  | ask r next ih =>
    rw [World.exec]
    cases there : w.answer? task (w.deadline? r) r with
    | some answered =>
      obtain ⟨a, w'⟩ := answered
      exact (ih a w').trans (World.steady_answer? there).clock
    | none =>
      obtain ⟨limits, hsame⟩ := World.suspend_eq w task r next
      exact hsame.clock
  | spawn name parent body next _ ih =>
    rw [World.exec]
    exact (ih _ _).trans (World.same_addTask _ _ _ _).clock

theorem clock_turn? (h : w.turn? = some w') : w'.now = w.now := by
  unfold World.turn? at h
  split at h
  · contradiction
  · next task rest queue =>
    cases h
    cases hresume : World.resume? { w with queue := rest } task with
    | none => rfl
    | some w₁ =>
      unfold World.resume? at hresume
      split at hresume
      · contradiction
      · split at hresume
        · contradiction
        · next there =>
          cases hresume
          exact (clock_exec _ _ _).trans (World.steady_answer? there).clock

theorem clock_settle (count : Nat) (w : World) : (w.settle count).now = w.now := by
  induction count generalizing w with
  | zero => rfl
  | succ count ih =>
    rw [World.settle]
    cases h : w.turn? with
    | some w' => exact (ih w').trans (clock_turn? h)
    | none => rfl

/-! ### Time -/

/-- The earlier of two instants is one of them and not after the other. -/
theorem earlierInstant_eq_some {a b : Option Nat} {instant : Nat}
    (h : World.earlierInstant a b = some instant) :
    (a = some instant ∨ b = some instant) ∧ (∀ i, a = some i → instant ≤ i) ∧
      ∀ i, b = some i → instant ≤ i := by
  cases a with
  | none =>
    cases h
    exact ⟨.inr rfl, nofun, fun i hi => Nat.le_of_eq (Option.some.inj hi)⟩
  | some i =>
    cases b with
    | none =>
      cases h
      exact ⟨.inl rfl, fun i hi => Nat.le_of_eq (Option.some.inj hi), nofun⟩
    | some j =>
      have hmin : min i j = instant := Option.some.inj h
      simp only [Option.some.injEq, forall_eq']
      omega

theorem earlierInstant_eq_none {a b : Option Nat} :
    World.earlierInstant a b = none ↔ a = none ∧ b = none := by
  cases a <;> cases b <;> simp [World.earlierInstant]

/-- The earliest of some instants is one of them, and no other is before it. -/
theorem foldl_earlierInstant_eq_some {deadlines : List (Option Nat)} {best : Option Nat}
    {instant : Nat} (h : deadlines.foldl World.earlierInstant best = some instant) :
    (best = some instant ∨ some instant ∈ deadlines) ∧ (∀ i, best = some i → instant ≤ i) ∧
      ∀ i, some i ∈ deadlines → instant ≤ i := by
  induction deadlines generalizing best with
  | nil => exact ⟨.inl h, fun i hi => Nat.le_of_eq (Option.some.inj (h.symm.trans hi)), nofun⟩
  | cons due rest ih =>
    obtain ⟨hsome, hbest, hrest⟩ := ih h
    have hfirst : (∀ i, best = some i → instant ≤ i) ∧ ∀ i, due = some i → instant ≤ i := by
      cases hearlier : World.earlierInstant best due with
      | none =>
        obtain ⟨rfl, rfl⟩ := earlierInstant_eq_none.mp hearlier
        exact ⟨nofun, nofun⟩
      | some j =>
        have hle := hbest j hearlier
        obtain ⟨-, hj, hj'⟩ := earlierInstant_eq_some hearlier
        exact ⟨fun i hi => Nat.le_trans hle (hj i hi), fun i hi => Nat.le_trans hle (hj' i hi)⟩
    refine ⟨?_, hfirst.1, fun i hi => ?_⟩
    · rcases hsome with hsome | hmem
      · refine (earlierInstant_eq_some hsome).1.imp_right fun hdue => ?_
        rw [hdue]
        exact List.mem_cons_self
      · exact .inr (List.mem_cons_of_mem _ hmem)
    · rcases List.mem_cons.mp hi with rfl | hi
      · exact hfirst.2 i rfl
      · exact hrest i hi

theorem foldl_earlierInstant_eq_none {deadlines : List (Option Nat)} {best : Option Nat} :
    deadlines.foldl World.earlierInstant best = none ↔ best = none ∧ ∀ x ∈ deadlines, x = none := by
  induction deadlines generalizing best with
  | nil => simp
  | cons due rest ih =>
    rw [List.foldl_cons, ih, earlierInstant_eq_none, List.forall_mem_cons, and_assoc]

/-- The next timer is that of a wait, and no other timer fires before it. -/
theorem nextDeadline?_eq_some {due : Nat} (h : w.nextDeadline? = some due) :
    (∃ s ∈ w.suspended, s.deadline = some due) ∧
      ∀ s ∈ w.suspended, ∀ i, s.deadline = some i → due ≤ i := by
  obtain ⟨hsome, -, hle⟩ := foldl_earlierInstant_eq_some h
  refine ⟨List.mem_map.mp (hsome.resolve_left nofun), fun s hs i hi => hle i ?_⟩
  exact List.mem_map.mpr ⟨s, hs, hi⟩

theorem nextDeadline?_eq_none (h : w.nextDeadline? = none) :
    ∀ s ∈ w.suspended, s.deadline = none := fun _ hs =>
  (foldl_earlierInstant_eq_none.mp h).2 _ (List.mem_map_of_mem hs)

/-- When nobody can go on, no timer has fired that has not been noticed. -/
theorem Sound.clock_le (sound : Sound ⟨w, .idle⟩) (queue : w.queue = [])
    (outer : ∀ task, w.outer = some task → w.resume? task = none) {due : Nat}
    (h : w.nextDeadline? = some due) : w.now ≤ due := by
  obtain ⟨⟨s, hs, hdeadline⟩, -⟩ := nextDeadline?_eq_some h
  have hdue : w.isDue s.deadline = false := (sound.nobody queue outer hs).2
  rw [hdeadline] at hdue
  exact Nat.le_of_not_le (of_decide_eq_false hdue)

/-- Time passes up to the next timer when nobody can go on. -/
theorem steps_nextDeadline (sound : Sound ⟨w, .idle⟩) (queue : w.queue = [])
    (outer : ∀ task, w.outer = some task → w.resume? task = none) {due : Nat}
    (h : w.nextDeadline? = some due) : Steps ⟨w, .idle⟩ ⟨w.moveTo due, .idle⟩ :=
  .single (.clock queue outer (sound.clock_le queue outer h) (nextDeadline?_eq_some h).2)

/-! ### A task that drives the world -/

/-- No step changes who drives the world. -/
theorem Step.outer {a b : Machine} (step : Step a b) : b.world.outer = a.world.outer := by
  cases step with
  | answer there | resume _ there => exact (World.steady_answer? there).outer
  | suspend =>
    obtain ⟨limits, hsame⟩ := World.suspend_eq _ _ _ _
    exact hsame.outer
  | spawn => exact (World.same_addTask _ _ _ _).outer
  | done | panic => exact (World.finish_keeps _ _ _).2.1
  | endless | turn | drive | stay => rfl
  | clock => exact (World.same_wakeAll _ _).outer

theorem Steps.outer {a b : Machine} (steps : Steps a b) : b.world.outer = a.world.outer := by
  induction steps with
  | refl => rfl
  | tail _ step ih => exact step.outer.trans ih

/-- A task drives the world by steps until it ends or waits for something that never comes. -/
theorem steps_drive (count : Nat) (sound : Sound ⟨w, .idle⟩) (outer : w.outer = some task) :
    Steps ⟨w, .idle⟩ ⟨w.drive task count, .idle⟩ := by
  induction count generalizing w with
  | zero => exact .refl
  | succ count ih =>
    have hnext {w' : World} (steps : Steps ⟨w, .idle⟩ ⟨w', .idle⟩) :
        Steps ⟨w, .idle⟩ ⟨w'.drive task count, .idle⟩ :=
      steps.trans (ih (steps.moves.sound sound) (steps.outer.trans outer))
    rw [World.drive]
    split
    · exact .refl
    cases hturn : w.turn? with
    | some w' => exact hnext (steps_turn? hturn)
    | none =>
      dsimp only
      have queue := turn?_eq_none hturn
      cases hresume : w.resume? task with
      | some w' => exact hnext (.head (.drive outer) (steps_resume? hresume))
      | none =>
        have hunable (task' : TaskId) (h : w.outer = some task') : w.resume? task' = none := by
          rw [outer] at h
          cases h
          exact hresume
        dsimp only
        cases hdue : w.nextDeadline? with
        | none => exact .refl
        | some due =>
          have hmove := steps_nextDeadline sound queue hunable hdue
          dsimp only
          split
          · exact hnext (hmove.trans (.head (.drive (hmove.outer.trans outer)) (steps_turnOf _ task)))
          · exact hnext hmove

/-- A world that a task with the given program begins to drive. -/
def entered (w : World) (program : Task) : World :=
  World.addTask { w with outer := some w.tasks.size } "" none program

/-- A program that is performed drives the world by steps, and leaves it when it has ended. -/
theorem steps_perform (sound : Sound ⟨w, .idle⟩) (outer : w.outer = none) {program : Task}
    (ended : (w.perform program).1 ≠ none) :
    ∃ w', Steps ⟨entered w program, .idle⟩ ⟨w', .idle⟩ ∧
      (∀ task, w'.outer = some task → w'.resume? task = none) ∧
      (w.perform program).2 = { w' with outer := none } := by
  have hentered : Sound ⟨entered w program, .idle⟩ := sound.enter outer program
  have houter : (entered w program).outer = some w.tasks.size :=
    (World.same_addTask _ "" none program).outer
  have hfirst : Steps _ _ := .head (.drive houter) (steps_turnOf _ w.tasks.size)
  have hdrive : Steps _ _ := hfirst.trans
    (steps_drive World.horizon (hfirst.moves.sound hentered) (hfirst.outer.trans houter))
  refine ⟨_, hdrive, fun task htask => ?_, rfl⟩
  have hsound := hdrive.moves.sound hentered
  rw [show World.outer _ = _ from hdrive.outer, houter] at htask
  cases htask
  exact hsound.resume?_of_ended ended

/-! ### Running up to an instant -/

/-- Nobody is due by an instant before every timer. -/
theorem moveTo_eq {instant : Nat}
    (h : ∀ s ∈ w.suspended, ∀ due, s.deadline = some due → instant < due) :
    w.moveTo instant = { w with now := instant } := by
  have hnobody : w.suspended.filter (World.Suspended.dueAt instant) = [] := by
    refine List.filter_eq_nil_iff.mpr fun s hs => ?_
    unfold World.Suspended.dueAt
    cases hdue : s.deadline with
    | none => exact Bool.false_ne_true
    | some due => simpa using h s hs due hdue
  rw [World.moveTo, World.waiters,
    show World.suspended { w with now := instant } = w.suspended from rfl, hnobody]
  rfl

/-- The queue runs empty before each move of the clock, so that no turn is cut off. -/
def Settles (instant : Nat) : (count : Nat) → World → Prop
  | 0, _ => False
  | count + 1, w =>
    (w.settle World.horizon).queue = [] ∧
      ∀ due, (w.settle World.horizon).nextDeadline? = some due → due ≤ instant →
        Settles instant count ((w.settle World.horizon).moveTo due)

/-- Everything that is due up to an instant runs by steps. -/
theorem steps_advanceTo {instant : Nat} (count : Nat) (sound : Sound ⟨w, .idle⟩)
    (outer : w.outer = none) (le : w.now ≤ instant) (settles : Settles instant count w) :
    Steps ⟨w, .idle⟩ ⟨w.advanceTo instant count, .idle⟩ := by
  induction count generalizing w with
  | zero => contradiction
  | succ count ih =>
    obtain ⟨queue, settles⟩ := settles
    have hsettle := steps_settle World.horizon w
    have hsound := hsettle.moves.sound sound
    have houter := hsettle.outer.trans outer
    have hclock : (w.settle World.horizon).now ≤ instant := (clock_settle _ w).symm ▸ le
    have hnobody (task : TaskId) (h : (w.settle World.horizon).outer = some task) :
        (w.settle World.horizon).resume? task = none := by
      rw [show (w.settle World.horizon).outer = none from houter] at h
      contradiction
    rw [World.advanceTo]
    generalize w.settle World.horizon = w₁ at *
    have hpass (h : ∀ s ∈ w₁.suspended, ∀ due, s.deadline = some due → instant < due) :
        Steps ⟨w, .idle⟩ ⟨{ w₁ with now := instant }, .idle⟩ := by
      rw [← moveTo_eq h]
      exact hsettle.tail (.clock queue hnobody hclock fun s hs due hdue =>
        Nat.le_of_lt (h s hs due hdue))
    cases hnext : w₁.nextDeadline? with
    | none =>
      refine hpass fun s hs due hdue => ?_
      rw [nextDeadline?_eq_none hnext s hs] at hdue
      contradiction
    | some due =>
      dsimp only
      split
      · next hle =>
        have hmove := steps_nextDeadline hsound queue hnobody hnext
        refine (hsettle.trans hmove).trans ?_
        exact ih (hmove.moves.sound hsound) (hmove.outer.trans houter)
          (le_of_eq_of_le (World.same_wakeAll _ _).clock hle) (settles due hnext hle)
      · next hlt =>
        refine hpass fun s hs due' hdue' => ?_
        have hnext := (nextDeadline?_eq_some hnext).2 s hs due' hdue'
        exact Nat.lt_of_lt_of_le (Nat.lt_of_not_le hlt) hnext

end Machine

end Orchestra
