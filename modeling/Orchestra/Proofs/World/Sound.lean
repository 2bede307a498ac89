import Mathlib.Data.List.Nodup
import Orchestra.Proofs.World.Machine

/-!
# Sound worlds

In every world that is reached by steps, whoever could go on will have a turn before time passes: a
task that waits for a child that has ended, or whose timer has fired, stands in the queue or drives
the world. No task waits twice, and none waits that is running or has ended. Each step and each thing
that is done from outside keeps this, and leads to a later world.
-/

namespace Orchestra.Machine

/-- Waits are in order. -/
structure Tidy (a : Machine) : Prop where
  ordered : a.world.Ordered
  distinct : (a.world.suspended.map Suspended.id).Nodup
  /-- Whoever waits has been started and has not ended. -/
  waits : ∀ s ∈ a.world.suspended, s.id < a.world.tasks.size ∧ a.world.ended? s.id = none
  /-- Whoever is running has been started, has not ended and does not wait. -/
  runs : ∀ task rest, a.control = .running task rest → task < a.world.tasks.size ∧
    a.world.ended? task = none ∧ ∀ s ∈ a.world.suspended, s.id ≠ task
  /-- Timers are those of the requests. -/
  timed : ∀ s ∈ a.world.suspended, ∀ due, s.deadline = some due →
    (∃ span token, s.request = .sleep span token) ∨
      ∃ pending, s.request = .nextChild pending (.untilDue due)

/-- A task will have a turn before time passes. -/
def Awake (a : Machine) (task : TaskId) : Prop :=
  task ∈ a.world.queue ∨ a.world.outer = some task ∨ a.control = .turnOf task

/-- What holds of every world that is reached: waits are in order, and whoever may go on will have a
turn. -/
structure Sound (a : Machine) : Prop extends Tidy a where
  woken : ∀ s ∈ a.world.suspended,
    a.world.childEnded s.request = true ∨ a.world.isDue s.deadline = true →
      s.id ∈ a.world.queue ∨ a.world.outer = some s.id ∨ a.control = .turnOf s.id

variable {w w' : World} {c : Control} {task : TaskId}

theorem Awake.steady (awake : Awake ⟨w, c⟩ task) (steady : w.Steady w') : Awake ⟨w', c⟩ task :=
  awake.imp (fun h => steady.queue h) (.imp_left fun h => steady.outer.trans h)

/-- The first task of the queue has its turn, and the others stay awake. -/
theorem Awake.turn {running : TaskId} {rest : List TaskId} (awake : Awake ⟨w, .idle⟩ task)
    (queue : w.queue = running :: rest) : Awake ⟨{ w with queue := rest }, .turnOf running⟩ task := by
  rcases awake with hqueue | houter | hturn
  · have hmem : task ∈ running :: rest := queue ▸ hqueue
    rcases List.mem_cons.mp hmem with rfl | hrest
    · exact .inr (.inr rfl)
    · exact .inl hrest
  · exact .inr (.inl houter)
  · contradiction

/-- What begins and ends nothing keeps waits in order, -/
theorem Tidy.steady (tidy : Tidy ⟨w, c⟩) (steady : w.Steady w') : Tidy ⟨w', c⟩ where
  ordered task place o he := by
    rw [steady.order]
    exact tidy.ordered task place o (steady.ended task ▸ he)
  distinct := steady.suspended ▸ tidy.distinct
  waits s hs := by
    rw [steady.size, steady.ended]
    exact tidy.waits s (steady.suspended ▸ hs)
  runs task rest hc := by
    rw [steady.size, steady.ended, steady.suspended]
    exact tidy.runs task rest hc
  timed s hs := tidy.timed s (steady.suspended ▸ hs)

/-- and lets nobody go on who could not before. -/
theorem can_of_steady (steady : w.Steady w') {s : Suspended}
    (hcan : w'.childEnded s.request = true ∨ w'.isDue s.deadline = true) :
    w.childEnded s.request = true ∨ w.isDue s.deadline = true := by
  rw [childEnded_congr steady.ended] at hcan
  refine hcan.imp_right fun hdue => ?_
  simpa only [World.isDue, steady.clock] using hdue

namespace Sound

theorem steady (sound : Sound ⟨w, c⟩) (steady : w.Steady w') : Sound ⟨w', c⟩ where
  toTidy := sound.toTidy.steady steady
  woken s hs hcan := by
    rw [steady.outer]
    exact (sound.woken s (steady.suspended ▸ hs) (can_of_steady steady hcan)).imp_left
      fun hq => steady.queue hq

/-- The rest of the program does not matter. -/
theorem rest {t : Task} (sound : Sound ⟨w, .running task t⟩) (t' : Task) :
    Sound ⟨w, .running task t'⟩ where
  ordered := sound.ordered
  distinct := sound.distinct
  waits := sound.waits
  runs task' _ hc := by
    cases hc
    exact sound.runs task t rfl
  timed := sound.timed
  woken s hs hcan := (sound.woken s hs hcan).imp_right fun h => h.imp_right fun h => by contradiction

/-- A world is sound when its task has stopped running. -/
theorem idle {t : Task} (sound : Sound ⟨w, .running task t⟩) : Sound ⟨w, .idle⟩ where
  ordered := sound.ordered
  distinct := sound.distinct
  waits := sound.waits
  runs _ _ hc := by contradiction
  timed := sound.timed
  woken s hs hcan := (sound.woken s hs hcan).imp_right fun h => h.imp_right fun h => by contradiction

/-- Whoever waits is found under its number. -/
theorem found {a : Machine} (sound : Sound a) {s : Suspended} (hs : s ∈ a.world.suspended) :
    (a.world.suspended.find? fun s' => s'.id = s.id) = some s := by
  cases hfind : a.world.suspended.find? fun s' => s'.id = s.id with
  | none => simpa using List.find?_eq_none.mp hfind s hs
  | some s' =>
    have hid : s'.id = s.id := by simpa using List.find?_some hfind
    exact congrArg some
      (List.inj_on_of_nodup_map sound.distinct (List.mem_of_find?_eq_some hfind) hs hid)

/-- A task has one wait at most. -/
theorem eq_of_id {a : Machine} (sound : Sound a) {s s' : Suspended} (hs : s ∈ a.world.suspended)
    (hs' : s' ∈ a.world.suspended) (hid : s.id = s'.id) : s = s' := by
  have hfound := sound.found hs
  rw [hid] at hfound
  exact Option.some.inj (hfound.symm.trans (sound.found hs'))

/-- A task that waits and cannot be resumed has no answer yet. -/
theorem unanswered {a : Machine} (sound : Sound a) {s : Suspended} (hs : s ∈ a.world.suspended)
    (hnone : a.world.resume? s.id = none) :
    a.world.answer? s.id s.deadline s.request = none := by
  unfold World.resume? at hnone
  rw [sound.found hs] at hnone
  dsimp only at hnone
  split at hnone
  · assumption
  · contradiction

/-- A task that cannot be resumed waits neither for a child that has ended nor for a time that has
come. -/
theorem of_resume?_eq_none {a : Machine} (sound : Sound a) {s : Suspended}
    (hs : s ∈ a.world.suspended) (hnone : a.world.resume? s.id = none) :
    a.world.childEnded s.request = false ∧ a.world.isDue s.deadline = false :=
  of_answer?_eq_none (sound.unanswered hs hnone) (sound.timed s hs)

/-- When the queue is empty and the task that drives the world cannot go on, nobody can. -/
theorem nobody (sound : Sound ⟨w, .idle⟩) (queue : w.queue = [])
    (outer : ∀ task, w.outer = some task → w.resume? task = none) {s : Suspended}
    (hs : s ∈ w.suspended) : w.childEnded s.request = false ∧ w.isDue s.deadline = false := by
  by_contra hcan
  have hcan : w.childEnded s.request = true ∨ w.isDue s.deadline = true := by
    simpa [Decidable.or_iff_not_imp_left] using hcan
  rcases sound.woken s hs hcan with hqueue | houter | hturn
  · rw [show Machine.world ⟨w, .idle⟩ = w from rfl, queue] at hqueue
    contradiction
  · have hnone := sound.of_resume?_eq_none hs (outer s.id houter)
    simp [hnone] at hcan
  · contradiction

/-- A task that has ended is not resumed. -/
theorem resume?_of_ended {a : Machine} (sound : Sound a) (hended : a.world.ending? task ≠ none) :
    a.world.resume? task = none := by
  have hnone : (a.world.suspended.find? fun s => s.id = task) = none := by
    refine List.find?_eq_none.mpr fun s hs => ?_
    rw [decide_eq_true_iff]
    rintro rfl
    exact hended (World.ending?_eq_none.mpr (sound.waits s hs).2)
  unfold World.resume?
  rw [hnone]

/-- A further wait, of a task that does not wait yet and cannot go on at once. -/
theorem wait (sound : Sound ⟨w, c⟩) (new : Suspended) (limits : Table Limit) (spawned : Bool)
    (hsize : new.id < w.tasks.size) (hended : w.ended? new.id = none)
    (hnew : ∀ s ∈ w.suspended, s.id ≠ new.id)
    (htimed : ∀ due, new.deadline = some due → (∃ span token, new.request = .sleep span token) ∨
      ∃ pending, new.request = .nextChild pending (.untilDue due))
    (hcan : w.childEnded new.request = false ∧ w.isDue new.deadline = false)
    (hc : ∀ task rest, c = .running task rest → new.id ≠ task) :
    Sound ⟨{ w with
      limits
      suspended := w.suspended ++ [new]
      order := w.order + 1
      spawned }, c⟩ where
  ordered task place o he := Nat.lt_succ_of_lt (sound.ordered task place o he)
  distinct := by
    rw [List.map_append, List.map_singleton, List.nodup_append]
    refine ⟨sound.distinct, List.nodup_singleton _, fun i hi j hj => ?_⟩
    obtain ⟨s, hs, rfl⟩ := List.mem_map.mp hi
    rw [List.mem_singleton.mp hj]
    exact hnew s hs
  waits := List.forall_mem_append.mpr
    ⟨sound.waits, List.forall_mem_singleton.mpr ⟨hsize, hended⟩⟩
  runs task rest heq := by
    obtain ⟨hsize', hended', hothers⟩ := sound.runs task rest heq
    exact ⟨hsize', hended', List.forall_mem_append.mpr
      ⟨hothers, List.forall_mem_singleton.mpr (hc task rest heq)⟩⟩
  timed := List.forall_mem_append.mpr ⟨sound.timed, List.forall_mem_singleton.mpr htimed⟩
  woken := by
    refine List.forall_mem_append.mpr ⟨sound.woken, List.forall_mem_singleton.mpr fun hnow => ?_⟩
    have hnever : w.childEnded new.request = true ∨ w.isDue new.deadline = true := hnow
    simp [hcan] at hnever

/-- A running task that has no answer yet waits. -/
theorem suspend {r : Request} {next : r.Answer → Task}
    (sound : Sound ⟨w, .running task (.ask r next)⟩)
    (unanswered : w.answer? task (w.deadline? r) r = none) :
    Sound ⟨w.suspend task r next, .idle⟩ := by
  obtain ⟨limits, hsame⟩ := World.suspend_eq w task r next
  obtain ⟨hsize, hended, hothers⟩ := sound.runs task _ rfl
  have hwait := sound.idle.wait (w.waiting task r next) limits false hsize hended hothers
    (fun due => timed_deadline?) (of_answer?_eq_none unanswered fun _ => timed_deadline?) nofun
  exact hwait.steady hsame.steady

/-- A further task has not ended. -/
theorem push (sound : Sound ⟨w, c⟩) (t : TaskState) (ht : t.result = none) :
    Sound ⟨{ w with tasks := w.tasks.push t }, c⟩ := by
  have hended (task : TaskId) : World.ended? { w with tasks := w.tasks.push t } task =
      w.ended? task := by
    simp only [World.ended?, Table.get?_push]
    split
    · next h => simp [h, ht, (w.tasks.get?_eq_none_iff _).mpr (Nat.le_refl _)]
    · rfl
  have hsize : (w.tasks.push t).size = w.tasks.size + 1 := Table.size_push _ _
  exact
    { ordered := fun task place o he => sound.ordered task place o (hended task ▸ he)
      distinct := sound.distinct
      waits := fun s hs => by
        rw [hended]
        exact (sound.waits s hs).imp_left fun hlt => hsize ▸ Nat.lt_succ_of_lt hlt
      runs := fun task rest hc => by
        rw [hended]
        exact (sound.runs task rest hc).imp_left fun hlt => hsize ▸ Nat.lt_succ_of_lt hlt
      timed := sound.timed
      woken := fun s hs hcan => by
        rw [childEnded_congr hended] at hcan
        exact sound.woken s hs hcan }

/-- A new task waits to begin. -/
theorem addTask (sound : Sound ⟨w, c⟩) (name : String) (token : Option TokenId) (program : Task) :
    Sound ⟨w.addTask name token program, c⟩ := by
  have hended : World.ended? { w with tasks := w.tasks.push ⟨name, token, [], none⟩ }
      w.tasks.size = none := by
    simp only [World.ended?, Table.get?_push, if_true]
    rfl
  have hwait := (sound.push ⟨name, token, [], none⟩ rfl).wait (w.begun program)
    w.limits w.spawned (Table.size_push _ _ ▸ Nat.lt_succ_self _) hended
    (fun s hs => Nat.ne_of_lt (sound.waits s hs).1) (fun due heq => by contradiction) ⟨rfl, rfl⟩
    fun task rest hc => Nat.ne_of_gt (sound.runs task rest hc).1
  exact hwait.steady (World.same_addTask w name token program).steady

/-- Starting a child keeps a world sound. -/
theorem spawn (sound : Sound ⟨w, c⟩) (name : String) (parent : TokenId) (body : TokenId → Task) :
    Sound ⟨(w.spawn name parent body).2, c⟩ :=
  (sound.steady (World.steady_addBelow w parent)).addTask name _ _

/-- A world is sound once everybody has been woken who may go on. -/
theorem wakeAll {p : Suspended → Bool} (tidy : Tidy ⟨w, c⟩)
    (woken : ∀ s ∈ w.suspended, w.childEnded s.request = true ∨ w.isDue s.deadline = true →
      p s = true ∨ s.id ∈ w.queue ∨ w.outer = some s.id ∨ c = .turnOf s.id) :
    Sound ⟨w.wakeAll (w.waiters p), c⟩ := by
  have hsame := World.same_wakeAll w (w.waiters p)
  constructor
  · exact tidy.steady hsame.steady
  · intro s hs hcan
    have hs' : s ∈ w.suspended := hsame.suspended ▸ hs
    rw [hsame.outer]
    rcases woken s hs' (can_of_steady hsame.steady hcan) with hp | hqueue | hrest
    · have hmem : s.id ∈ w.waiters p := List.mem_map.mpr ⟨s, List.mem_filter.mpr ⟨hs', hp⟩, rfl⟩
      exact (World.mem_queue_wakeAll w hmem).imp_right .inl
    · exact .inl (hsame.queue hqueue)
    · exact .inr hrest

/-- The ending of a task that does not wait. -/
theorem markEnded (sound : Sound ⟨w, .idle⟩) {state : TaskState}
    (ht : w.tasks.get? task = some state) (hother : ∀ s ∈ w.suspended, s.id ≠ task)
    (ending : Ending) : Tidy ⟨w.markEnded task state ending, .idle⟩ where
  ordered task' place o he := by
    rw [World.ended?_markEnded w task ht] at he
    split at he
    · cases he
      exact Nat.lt_succ_self _
    · exact Nat.lt_succ_of_lt (sound.ordered task' place o he)
  distinct := sound.distinct
  waits s hs := by
    obtain ⟨hsize, hended⟩ := sound.waits s hs
    rw [World.ended?_markEnded w task ht, if_neg (hother s hs).symm]
    exact ⟨(Table.size_modify _ _ _).symm ▸ hsize, hended⟩
  runs _ _ hc := by contradiction
  timed := sound.timed

/-- Whoever may go on after the ending waits for it, or could have gone on before. -/
theorem woken_markEnded (sound : Sound ⟨w, .idle⟩) {state : TaskState}
    (ht : w.tasks.get? task = some state) (ending : Ending) {s : Suspended} (hs : s ∈ w.suspended)
    (hcan : (w.markEnded task state ending).childEnded s.request = true ∨
      (w.markEnded task state ending).isDue s.deadline = true) :
    s.request.awaits task = true ∨ s.id ∈ w.queue ∨ w.outer = some s.id ∨
      Control.idle = .turnOf s.id := by
  rcases hcan with hcan | hcan
  · by_cases hawaits : s.request.awaits task = true
    · exact .inl hawaits
    · refine .inr (sound.woken s hs (.inl ?_))
      rwa [childEnded_congr_of_not_awaits (Bool.eq_false_iff.mpr hawaits) fun task' hne => ?_] at hcan
      rw [World.ended?_markEnded w task ht, if_neg hne.symm]
  · exact .inr (sound.woken s hs (.inr hcan))

/-- A running task that ends is noticed by whoever waits for it. -/
theorem finish {t : Task} (sound : Sound ⟨w, .running task t⟩) (ending : Ending) :
    Sound ⟨w.finish task ending, .idle⟩ := by
  obtain ⟨hsize, hended, hothers⟩ := sound.runs task t rfl
  cases ht : w.tasks.get? task with
  | none =>
    have hle := (w.tasks.get?_eq_none_iff task).mp ht
    exact absurd hsize (Nat.not_lt_of_le hle)
  | some state =>
    have hgive := World.same_releaseAll w state.held
    have sound' := (sound.steady hgive.steady).idle
    have ht' : (w.releaseAll state.held).tasks.get? task = some state := hgive.tasks ▸ ht
    have hother : ∀ s ∈ (w.releaseAll state.held).suspended, s.id ≠ task := hgive.suspended ▸ hothers
    rw [World.finish_eq ht]
    generalize w.releaseAll state.held = w₁ at *
    exact wakeAll (sound'.markEnded ht' hother ending) fun s hs hcan =>
      sound'.woken_markEnded ht' ending hs hcan

/-- A task whose turn it is goes on, and waits no more. -/
theorem resume {s : Suspended} {a : s.request.Answer} (sound : Sound ⟨w, .turnOf task⟩)
    (found : (w.suspended.find? fun s => s.id = task) = some s)
    (there : w.answer? task s.deadline s.request = some (a, w')) (rest : Task) :
    Sound ⟨{ w' with suspended := w'.suspended.filter (fun s => s.id != task), spawned := false },
      .running task rest⟩ := by
  have sound' := sound.steady (World.steady_answer? there)
  have hsub : ∀ s ∈ w'.suspended.filter (fun s => s.id != task), s ∈ w'.suspended ∧ s.id ≠ task :=
    fun s hs => (List.mem_filter.mp hs).imp_right fun hne => by simpa using hne
  have hs : s ∈ w'.suspended := by
    rw [(World.steady_answer? there).suspended]
    exact List.mem_of_find?_eq_some found
  have hid : s.id = task := by simpa using List.find?_some found
  exact
    { ordered := sound'.ordered
      distinct := sound'.distinct.sublist (List.filter_sublist.map _)
      waits := fun s hs => sound'.waits s (hsub s hs).1
      runs := fun task' rest' hc => by
        cases hc
        exact ⟨hid ▸ (sound'.waits s hs).1, hid ▸ (sound'.waits s hs).2, fun s hs => (hsub s hs).2⟩
      timed := fun s hs => sound'.timed s (hsub s hs).1
      woken := fun s hs hcan => by
        refine (sound'.woken s (hsub s hs).1 hcan).imp_right fun h => h.imp_right fun hturn => ?_
        cases hturn
        exact absurd rfl (hsub s hs).2 }

/-- The first task of the queue has its turn. -/
theorem turn {rest : List TaskId} (sound : Sound ⟨w, .idle⟩) (queue : w.queue = task :: rest) :
    Sound ⟨{ w with queue := rest }, .turnOf task⟩ :=
  { ordered := sound.ordered
    distinct := sound.distinct
    waits := sound.waits
    runs := fun _ _ hc => by contradiction
    timed := sound.timed
    woken := fun s hs hcan => Awake.turn (sound.woken s hs hcan) queue }

theorem drive (sound : Sound ⟨w, .idle⟩) : Sound ⟨w, .turnOf task⟩ :=
  { sound with
    runs := fun _ _ hc => by contradiction
    woken := fun s hs hcan => (sound.woken s hs hcan).imp_right fun h => h.imp_right fun h => by
      contradiction }

/-- A turn of a task that cannot go on changes nothing. -/
theorem stay (sound : Sound ⟨w, .turnOf task⟩) (unanswered : w.resume? task = none) :
    Sound ⟨w, .idle⟩ :=
  { sound with
    runs := fun _ _ hc => by contradiction
    woken := fun s hs hcan => by
      refine (sound.woken s hs hcan).imp_right fun h => h.imp_right fun hturn => ?_
      cases hturn
      have hnone := sound.of_resume?_eq_none hs unanswered
      simp [hnone] at hcan }

/-- As time passes, whoever's timer fires is woken. -/
theorem moveTo (sound : Sound ⟨w, .idle⟩) (instant : Nat) : Sound ⟨w.moveTo instant, .idle⟩ := by
  have tidy : Tidy ⟨{ w with now := instant }, .idle⟩ := { sound.toTidy with }
  refine wakeAll tidy fun s hs hcan => ?_
  rcases hcan with hended | hdue
  · exact .inr (sound.woken s hs (.inl hended))
  · exact .inl hdue

/-- The task that drives the world may leave when it cannot go on. -/
theorem leave (sound : Sound ⟨w, .idle⟩)
    (outer : ∀ task, w.outer = some task → w.resume? task = none) :
    Sound ⟨{ w with outer := none }, .idle⟩ :=
  { sound with
    woken := fun s hs hcan => by
      have hcan : w.childEnded s.request = true ∨ w.isDue s.deadline = true := hcan
      rcases sound.woken s hs hcan with hqueue | houter | hturn
      · exact .inl hqueue
      · have hnone := sound.of_resume?_eq_none hs (outer s.id houter)
        simp [hnone] at hcan
      · contradiction }

/-- A task begins to drive a world that no other task drives. -/
theorem enter (sound : Sound ⟨w, .idle⟩) (outer : w.outer = none) (program : Task) :
    Sound ⟨{ w with outer := some w.tasks.size }.addTask "" none program, .idle⟩ := by
  have sound' : Sound ⟨{ w with outer := some w.tasks.size }, .idle⟩ :=
    { sound with
      woken := fun s hs hcan => by
        rcases sound.woken s hs hcan with hqueue | houter | hturn
        · exact .inl hqueue
        · exact absurd (outer.symm.trans houter) nofun
        · contradiction }
  exact sound'.addTask "" none program

end Sound

/-! ### Every step -/

/-- Each step keeps a world sound. -/
theorem Step.sound {a b : Machine} (step : Step a b) (sound : Sound a) : Sound b := by
  cases step with
  | answer there => exact (sound.steady (World.steady_answer? there)).rest _
  | suspend unanswered => exact sound.suspend unanswered
  | spawn => exact (sound.spawn _ _ _).rest _
  | done | panic => exact sound.finish _
  | endless => exact sound.idle
  | turn queue => exact sound.turn queue
  | drive outer => exact sound.drive
  | resume found there => exact sound.resume found there _
  | stay unanswered => exact sound.stay unanswered
  | clock queue outer le before => exact sound.moveTo _

/-- So does everything that is done from outside. -/
theorem Touch.sound {a b : Machine} (touch : Touch a b) (sound : Sound a) : Sound b := by
  cases touch with
  | start => exact sound.spawn _ _ _
  | enter w program outer => exact sound.enter outer program
  | leave w outer => exact sound.leave outer
  | change steady => exact sound.steady steady

theorem Moves.sound {a b : Machine} (moves : Moves a b) (sound : Sound a) : Sound b := by
  induction moves with
  | refl => exact sound
  | tail _ move ih => exact move.elim (fun step => step.sound ih) fun touch => touch.sound ih

/-- Each step leads to a later world. -/
theorem Step.later {a b : Machine} (step : Step a b) (sound : Sound a) : a.world.Later b.world := by
  cases step with
  | answer there => exact (World.steady_answer? there).later
  | suspend => exact World.later_suspend _ _ _ _
  | spawn => exact World.later_spawn _ _ _ _
  | done | panic =>
    obtain ⟨-, hended, -⟩ := sound.runs _ _ rfl
    exact World.later_finish sound.ordered hended _
  | endless | drive | stay => exact .refl _
  | turn queue => exact World.later_of_tasks (Nat.le_refl _) (Nat.le_refl _) (.refl _) fun _ => rfl
  | resume found there =>
    refine (World.steady_answer? there).later.trans ?_
    exact World.later_of_tasks (Nat.le_refl _) (Nat.le_refl _) (.refl _) fun _ => rfl
  | @clock w instant queue outer le before =>
    have hclock : w.Later { w with now := instant } :=
      World.later_of_tasks le (Nat.le_refl _) (.refl _) fun _ => rfl
    exact hclock.trans (World.same_wakeAll _ _).later

theorem Touch.later {a b : Machine} (touch : Touch a b) : a.world.Later b.world := by
  cases touch with
  | start => exact World.later_spawn _ _ _ _
  | enter w program outer =>
    have houter : w.Later { w with outer := some w.tasks.size } :=
      World.later_of_tasks (Nat.le_refl _) (Nat.le_refl _) (.refl _) fun _ => rfl
    exact houter.trans (World.later_addTask _ _ _ _)
  | leave => exact World.later_of_tasks (Nat.le_refl _) (Nat.le_refl _) (.refl _) fun _ => rfl
  | change steady => exact steady.later

end Orchestra.Machine
