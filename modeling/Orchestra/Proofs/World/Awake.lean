import Orchestra.Proofs.World.Sound

/-!
# Who will have a turn

A task is awake when it stands in the queue, drives the world or has its turn: it is looked at before
time passes. Whoever waits to begin is awake, and so is whoever waits for something that a stop has
ended. Each step keeps this, whatever the running task asks for.
-/

namespace Orchestra

/-! ### Stops and other changes of tokens -/

namespace Tokens

variable {t t' : Tokens} {id : TokenId}

theorem isStopped_congr (lineage : t'.lineage id = t.lineage id)
    (issued : ∀ x, t'.stopIssued x = t.stopIssued x) : t'.isStopped id = t.isStopped id := by
  rw [isStopped, isStopped, lineage, funext issued]

/-- A change of a token that keeps its ancestors keeps those of all tokens, -/
theorem lineage_modify (t : Tokens) (changed : TokenId) {f : Token → Token}
    (hf : ∀ p, (f p).lineage = p.lineage) (id : TokenId) :
    lineage (t.modify changed f) id = t.lineage id := by
  simp only [lineage, Table.get?_modify]
  by_cases hid : changed = id
  · simp only [hid, if_true]
    cases t.get? id with
    | none => rfl
    | some token => exact hf token
  · simp only [hid, if_false]

/-- and one that keeps whether a stop was issued keeps all issued stops. -/
theorem stopIssued_modify (t : Tokens) (changed : TokenId) {f : Token → Token}
    (hf : ∀ p, (f p).stopIssued = p.stopIssued) (id : TokenId) :
    stopIssued (t.modify changed f) id = t.stopIssued id := by
  simp only [stopIssued, Table.get?_modify]
  by_cases hid : changed = id
  · simp only [hid, if_true]
    cases t.get? id with
    | none => rfl
    | some token => exact hf token
  · simp only [hid, if_false]

/-- Which tokens are in use does not matter for stops. -/
theorem isStopped_modify (t : Tokens) (parent : TokenId) (f : List TokenId → List TokenId)
    (id : TokenId) :
    isStopped (t.modify parent fun p => { p with openBelow := f p.openBelow }) id =
      t.isStopped id :=
  isStopped_congr (lineage_modify t parent (fun _ => by rfl) id)
    (stopIssued_modify t parent fun _ => by rfl)

theorem isStopped_close (t : Tokens) (closed id : TokenId) :
    (t.close closed).isStopped id = t.isStopped id := by
  unfold close
  split
  · exact isStopped_modify t _ (fun below => below.erase closed) id
  · rfl

/-- A new token stops nobody. -/
theorem isStopped_addBelow (t : Tokens) (parent : TokenId) (h : id < t.size) :
    (t.addBelow parent).isStopped id = t.isStopped id := by
  rw [addBelow, isStopped_modify _ parent fun below => t.size :: below]
  apply isStopped_congr
  · simp only [lineage, Table.get?_push, if_neg (Nat.ne_of_lt h)]
  · intro x
    simp only [stopIssued, Table.get?_push]
    by_cases hx : x = t.size
    · simp only [hx, if_true, (t.get?_eq_none_iff _).mpr (Nat.le_refl _)]
    · simp only [hx, if_false]

end Tokens

/-- The tokens that a request stops. -/
def Request.stops : Request → List TokenId
  | .stop tokens => tokens
  | _ => []

/-- Whether a wait that ends with a token is over is seen from this token. -/
theorem Request.endedBy_of_endsWith {token : TokenId} {r : Request} (h : r.endsWith token = true)
    (stopped : TokenId → Bool) : r.endedBy stopped = stopped token := by
  cases r with
  | sleep span t =>
    cases t with
    | none => contradiction
    | some t => exact congrArg stopped (of_decide_eq_true h)
  | nextChild pending patience =>
    cases patience with
    | untilStopped t => exact congrArg stopped (of_decide_eq_true h)
    | _ => contradiction
  | acquire limit t => exact congrArg stopped (of_decide_eq_true h)
  | _ => contradiction

namespace World

variable {w w' : World} {token : TokenId} {task : TaskId}

/-- Whoever waits for something that a stop ends is woken by it. -/
theorem mem_queue_stopOne {s : Suspended} (hs : s ∈ w.suspended)
    (hends : s.request.endsWith token = true) {issued : TokenId}
    (hstopped : (w.stopOne issued).isStopped token = true) :
    s.id ∈ (w.stopOne issued).queue ∨ w.outer = some s.id := by
  unfold stopOne at hstopped ⊢
  dsimp only at hstopped ⊢
  have hsame := same_foldl
    (fun (w : World) t => same_wakeAll w (w.waiters fun s => s.request.endsWith t))
    (w.tokens.reached issued) { w with tokens := w.tokens.issueStop issued }
  generalize (w.tokens.reached issued).foldl
    (fun (w : World) t => w.wakeAll (w.waiters fun s => s.request.endsWith t))
    { w with tokens := w.tokens.issueStop issued } = v at hsame hstopped ⊢
  rw [← show v.outer = w.outer from hsame.outer]
  apply mem_queue_wakeAll
  refine List.mem_map.mpr ⟨s, List.mem_filter.mpr ⟨hsame.suspended ▸ hs, ?_⟩, rfl⟩
  rw [Request.endedBy_of_endsWith hends]
  rwa [isStopped, (same_wakeAll v _).tokens] at hstopped

theorem mem_queue_stop {s : Suspended} (hs : s ∈ w.suspended)
    (hends : s.request.endsWith token = true) {issued : List TokenId}
    (hstopped : (w.stop issued).isStopped token = true) :
    w.isStopped token = true ∨ s.id ∈ (w.stop issued).queue ∨ w.outer = some s.id := by
  induction issued generalizing w with
  | nil => exact .inl hstopped
  | cons first rest ih =>
    have hone := steady_stopOne w first
    rcases ih (hone.suspended.symm ▸ hs) hstopped with hfirst | hqueue | houter
    · rcases mem_queue_stopOne hs hends hfirst with hqueue | houter
      · exact .inr (.inl ((steady_stop (w.stopOne first) rest).queue hqueue))
      · exact .inr (.inr houter)
    · exact .inr (.inl hqueue)
    · exact .inr (.inr (hone.outer.symm.trans houter))

/-- No other request changes a token. -/
theorem tokens_answer? {deadline : Option Nat} {r : Request} {a : r.Answer}
    (there : w.answer? task deadline r = some (a, w')) :
    (r.stops = [] ∧ w'.tokens = w.tokens) ∨ w' = w.stop r.stops := by
  cases r with
  | stop tokens =>
    cases there
    exact .inr rfl
  | isStopped | now | stopwatch | newLimit | record | log | count | offer =>
    cases there
    exact .inl ⟨rfl, rfl⟩
  | sleep => exact .inl ⟨rfl, eq_of_answer?_sleep there ▸ rfl⟩
  | nextChild => exact .inl ⟨rfl, eq_of_answer?_nextChild there ▸ rfl⟩
  | acquire limit token =>
    rcases answer?_acquire there with ⟨-, -, rfl⟩ | ⟨-, -, rfl⟩ | ⟨-, l, l', -, -, rfl⟩
    · exact .inl ⟨rfl, (same_changeLimit w limit _).tokens⟩
    · exact .inl ⟨rfl, rfl⟩
    · exact .inl ⟨rfl, rfl⟩

theorem isStopped_finish (w : World) (task : TaskId) (ending : Ending) (token : TokenId) :
    (w.finish task ending).isStopped token = w.isStopped token := by
  cases ht : w.tasks.get? task with
  | none =>
    unfold finish
    rw [ht]
  | some t =>
    rw [finish_eq ht, isStopped, (same_wakeAll _ _).tokens]
    have hgive : (w.releaseAll t.held).tokens = w.tokens := (same_releaseAll w t.held).tokens
    unfold markEnded
    dsimp only
    rw [hgive]
    split
    · exact Tokens.isStopped_close w.tokens _ token
    · rfl

/-- Whoever was to have a turn still is when a task has ended. -/
theorem queue_finish (w : World) (task : TaskId) (ending : Ending) :
    w.queue ⊆ (w.finish task ending).queue := by
  cases ht : w.tasks.get? task with
  | none =>
    unfold finish
    rw [ht]
    exact List.Subset.refl _
  | some t =>
    rw [finish_eq ht]
    have hgive : w.queue ⊆ ((w.releaseAll t.held).markEnded task t ending).queue :=
      (same_releaseAll w t.held).queue
    exact List.Subset.trans hgive (same_wakeAll _ _).queue

end World

/-! ### Tasks that are awake -/

namespace Machine

/-- A task that waits to begin, or for something that a stop of the token has ended, is awake. -/
def Roused (token : TokenId) (task : TaskId) (a : Machine) : Prop :=
  ∀ s ∈ a.world.suspended, s.id = task →
    s.request = .now ∨ s.request.endsWith token = true ∧ a.world.isStopped token = true →
      a.Awake task

variable {w w' : World} {c : Control} {a b : Machine} {token : TokenId} {task running : TaskId}

/-- Such a wait has an answer. -/
theorem answer?_of_roused {r : Request} {deadline : Option Nat}
    (h : r = .now ∨ r.endsWith token = true ∧ w.isStopped token = true) :
    w.answer? task deadline r ≠ none := by
  rcases h with rfl | ⟨hends, hstopped⟩
  · exact Option.some_ne_none _
  cases r with
  | sleep span t =>
    cases t with
    | none => contradiction
    | some t =>
      obtain rfl : t = token := of_decide_eq_true hends
      simp only [World.answer?, Option.any_some, hstopped, if_true]
      split <;> exact Option.some_ne_none _
  | nextChild pending patience =>
    cases patience with
    | untilStopped t =>
      obtain rfl : t = token := of_decide_eq_true hends
      simp only [World.answer?, World.patienceOver, hstopped, Bool.or_true, if_true]
      split <;> exact Option.some_ne_none _
    | _ => contradiction
  | acquire limit t =>
    obtain rfl : t = token := of_decide_eq_true hends
    simp only [World.answer?, hstopped, if_true]
    exact Option.some_ne_none _
  | _ => contradiction

namespace Roused

/-- A change that begins and ends nothing, and under which whoever is stopped is woken. -/
theorem steady (roused : Roused token task ⟨w, c⟩) (steady : w.Steady w')
    (woken : ∀ s ∈ w.suspended, s.id = task → s.request.endsWith token = true →
      w'.isStopped token = true →
        w.isStopped token = true ∨ task ∈ w'.queue ∨ w.outer = some task) :
    Roused token task ⟨w', c⟩ := by
  intro s hs hid hnow
  have hs' : s ∈ w.suspended := steady.suspended ▸ hs
  rcases hnow with hnow | ⟨hends, hstopped⟩
  · exact (roused s hs' hid (.inl hnow)).steady steady
  · rcases woken s hs' hid hends hstopped with hstopped | hqueue | houter
    · exact (roused s hs' hid (.inr ⟨hends, hstopped⟩)).steady steady
    · exact .inl hqueue
    · exact .inr (.inl (steady.outer.trans houter))

theorem same (roused : Roused token task ⟨w, c⟩) (same : w.Same w') : Roused token task ⟨w', c⟩ :=
  roused.steady same.steady fun _ _ _ _ hstopped =>
    .inl (by rwa [World.isStopped, same.tokens] at hstopped)

theorem stop (roused : Roused token task ⟨w, c⟩) (issued : List TokenId) :
    Roused token task ⟨w.stop issued, c⟩ :=
  roused.steady (World.steady_stop w issued) fun _ hs hid hends hstopped =>
    hid ▸ World.mem_queue_stop hs hends hstopped

/-- An answer wakes whoever it stops. -/
theorem answered {deadline : Option Nat} {r : Request} {answer : r.Answer}
    (roused : Roused token task ⟨w, c⟩)
    (there : w.answer? running deadline r = some (answer, w')) : Roused token task ⟨w', c⟩ := by
  rcases World.tokens_answer? there with ⟨-, htokens⟩ | rfl
  · refine roused.steady (World.steady_answer? there) fun _ _ _ _ hstopped => .inl ?_
    rwa [World.isStopped, htokens] at hstopped
  · exact roused.stop _

/-- A new task is woken to begin. -/
theorem addTask (roused : Roused token task ⟨w, c⟩) (name : String) (own : Option TokenId)
    (program : Task) : Roused token task ⟨w.addTask name own program, c⟩ := by
  have hsame := World.same_addTask w name own program
  intro s hs hid hnow
  rw [hsame.suspended] at hs
  rcases List.mem_append.mp hs with hold | hnew
  · rw [World.isStopped, hsame.tokens] at hnow
    rcases roused s hold hid hnow with hqueue | houter | hturn
    · exact .inl (hsame.queue hqueue)
    · exact .inr (.inl (hsame.outer.trans houter))
    · exact .inr (.inr hturn)
  · obtain rfl := List.mem_singleton.mp hnew
    obtain rfl : w.tasks.size = task := hid
    exact (World.mem_queue_wake (w.pushTask name own program) w.tasks.size).imp_right fun houter =>
      .inl (hsame.outer.trans houter)

theorem spawn (roused : Roused token task ⟨w, c⟩) (has : token < w.tokens.size) (name : String)
    (parent : TokenId) (body : TokenId → Task) :
    Roused token task ⟨(w.spawn name parent body).2, c⟩ := by
  have hbelow : Roused token task
      ⟨{ w with tokens := w.tokens.addBelow parent, spawned := true }, c⟩ :=
    roused.steady (World.steady_addBelow w parent) fun _ _ _ _ hstopped =>
      .inl (by rwa [World.isStopped, Tokens.isStopped_addBelow w.tokens parent has] at hstopped)
  exact hbelow.addTask name _ _

/-- A task that begins to wait has no answer, so that it is neither new nor stopped. -/
theorem suspend {r : Request} {next : r.Answer → Task}
    (roused : Roused token task ⟨w, .running running (.ask r next)⟩)
    (unanswered : w.answer? running (w.deadline? r) r = none) :
    Roused token task ⟨w.suspend running r next, .idle⟩ := by
  obtain ⟨limits, hsame⟩ := World.suspend_eq w running r next
  intro s hs hid hnow
  rw [World.isStopped, hsame.tokens] at hnow
  rw [hsame.suspended] at hs
  rcases List.mem_append.mp hs with hold | hnew
  · rcases roused s hold hid hnow with hqueue | houter | hturn
    · exact .inl (hsame.queue hqueue)
    · exact .inr (.inl (hsame.outer.trans houter))
    · contradiction
  · obtain rfl := List.mem_singleton.mp hnew
    exact absurd unanswered (answer?_of_roused hnow)

theorem finish {t : Task} (roused : Roused token task ⟨w, .running running t⟩) (ending : Ending) :
    Roused token task ⟨w.finish running ending, .idle⟩ := by
  obtain ⟨-, houter, hsuspended⟩ := World.finish_keeps w running ending
  intro s hs hid hnow
  rw [World.isStopped_finish] at hnow
  rcases roused s (hsuspended ▸ hs) hid hnow with hqueue | hdrives | hturn
  · exact .inl (World.queue_finish w running ending hqueue)
  · exact .inr (.inl (houter.trans hdrives))
  · contradiction

/-- The turn of a task that waits so does not end without an answer. -/
theorem control {c' : Control} (roused : Roused token task ⟨w, c⟩)
    (h : ∀ s ∈ w.suspended, s.id = task → c = .turnOf task → c' = .turnOf task ∨
      w.answer? task s.deadline s.request = none) : Roused token task ⟨w, c'⟩ := by
  intro s hs hid hnow
  rcases roused s hs hid hnow with hqueue | houter | hturn
  · exact .inl hqueue
  · exact .inr (.inl houter)
  · rcases h s hs hid hturn with hturn' | unanswered
    · exact .inr (.inr hturn')
    · exact absurd unanswered (answer?_of_roused hnow)

theorem turn {rest : List TaskId} (roused : Roused token task ⟨w, .idle⟩)
    (queue : w.queue = running :: rest) :
    Roused token task ⟨{ w with queue := rest }, .turnOf running⟩ :=
  fun s hs hid hnow => (roused s hs hid hnow).turn queue

/-- The task whose turn it was waits no more. -/
theorem resume {s : Suspended} {answer : s.request.Answer}
    (roused : Roused token task ⟨w, .turnOf running⟩)
    (there : w.answer? running s.deadline s.request = some (answer, w')) (rest : Task) :
    Roused token task
      ⟨{ w' with suspended := w'.suspended.filter (fun s => s.id != running), spawned := false },
        .running running rest⟩ := by
  intro s' hs' hid hnow
  obtain ⟨hs', hne⟩ := List.mem_filter.mp hs'
  rcases roused.answered there s' hs' hid hnow with hqueue | houter | hturn
  · exact .inl hqueue
  · exact .inr (.inl houter)
  · cases hturn
    simp [hid] at hne

theorem leave (roused : Roused token task ⟨w, .idle⟩) (sound : Sound ⟨w, .idle⟩)
    (outer : ∀ task, w.outer = some task → w.resume? task = none) :
    Roused token task ⟨{ w with outer := none }, .idle⟩ := by
  intro s hs hid hnow
  rcases roused s hs hid hnow with hqueue | houter | hturn
  · exact .inl hqueue
  · subst hid
    exact absurd (sound.unanswered hs (outer s.id houter)) (answer?_of_roused hnow)
  · contradiction

theorem enter (roused : Roused token task ⟨w, .idle⟩) (outer : w.outer = none) (program : Task) :
    Roused token task ⟨{ w with outer := some w.tasks.size }.addTask "" none program, .idle⟩ := by
  have hentered : Roused token task ⟨{ w with outer := some w.tasks.size }, .idle⟩ := by
    intro s hs hid hnow
    rcases roused s hs hid hnow with hqueue | houter | hturn
    · exact .inl hqueue
    · exact absurd (outer.symm.trans houter) nofun
    · contradiction
  exact hentered.addTask "" none program

end Roused

/-- Each step keeps a task awake that waits so. -/
theorem Step.roused (step : Step a b) (sound : Sound a) (has : token < a.world.tokens.size)
    (roused : Roused token task a) : Roused token task b := by
  cases step with
  | answer there => exact (roused.answered there).control fun _ _ _ hturn => by contradiction
  | suspend unanswered => exact roused.suspend unanswered
  | spawn => exact (roused.spawn has _ _ _).control fun _ _ _ hturn => by contradiction
  | done | panic => exact roused.finish _
  | endless => exact roused.control fun _ _ _ hturn => by contradiction
  | turn queue => exact roused.turn queue
  | drive => exact roused.control fun _ _ _ hturn => by contradiction
  | resume found there => exact roused.resume there _
  | stay unanswered =>
    refine roused.control fun s hs hid hturn => .inr ?_
    cases hturn
    subst hid
    exact sound.unanswered hs unanswered
  | @clock w instant =>
    have hmoved : Roused token task ⟨{ w with now := instant }, .idle⟩ := roused
    exact hmoved.same (World.same_wakeAll _ _)

/-- Time passes only when nobody runs and nobody is to have a turn. -/
theorem Step.clock_eq (step : Step a b) (h : a.world.now ≠ b.world.now) :
    a.control = .idle ∧ a.world.queue = [] ∧
      ∀ task, a.world.outer = some task → a.world.resume? task = none := by
  have hsame {n : Nat} {P : Prop} (heq : n = a.world.now) (hne : a.world.now ≠ n) : P :=
    absurd heq.symm hne
  cases step with
  | answer there | resume found there => exact hsame (World.steady_answer? there).clock h
  | suspend =>
    obtain ⟨limits, hsuspended⟩ := World.suspend_eq _ _ _ _
    exact hsame hsuspended.clock h
  | spawn => exact hsame (World.spawn_keeps _ _ _ _).1 h
  | done | panic => exact hsame (World.finish_keeps _ _ _).1 h
  | endless | turn | drive | stay => exact hsame rfl h
  | clock queue outer => exact ⟨rfl, queue, outer⟩

/-- So it does not pass while a task waits so. -/
theorem Roused.clock_eq (roused : Roused token task a) (step : Step a b) (sound : Sound a)
    {s : Suspended} (hs : s ∈ a.world.suspended) (hid : s.id = task)
    (hnow : s.request = .now ∨ s.request.endsWith token = true ∧ a.world.isStopped token = true) :
    a.world.now = b.world.now := by
  by_contra hne
  obtain ⟨hidle, queue, outer⟩ := step.clock_eq hne
  subst hid
  rcases roused s hs rfl hnow with hqueue | houter | hturn
  · rw [queue] at hqueue
    contradiction
  · exact absurd (sound.unanswered hs (outer s.id houter)) (answer?_of_roused hnow)
  · rw [hidle] at hturn
    contradiction

end Machine

end Orchestra
