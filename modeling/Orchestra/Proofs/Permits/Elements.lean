import Orchestra.Proofs.Children.Orphans
import Orchestra.Proofs.FanOut.Stopping
import Orchestra.Proofs.Permits.Runs

/-!
# The elements of a map

A map makes a limit, if there is a bound, and then starts one run for each state of its list, one
right after the other. Under a bound these are runs under the limit that the map has made, of which
nobody held a permit before.
-/

namespace Orchestra

/-- A fan-out is started in the same way whatever follows. -/
theorem FanOut.startAll_andThen (ctx : Context) (limit : Option LimitId)
    (jobs : List (Runnable × Data)) (next : List Child → Task) (K : Outcome → Task) :
    (startAll ctx limit jobs next).andThen K =
      startAll ctx limit jobs fun children => (next children).andThen K := by
  induction jobs generalizing next with
  | nil => rfl
  | cons job rest ih =>
    rw [startAll, startAll]
    exact congrArg (Task.spawn _ _ _) (funext fun child => ih _)

namespace Machine

/-- A new session has no limits yet. -/
theorem untouched_fresh (programs : List (TokenId → Task)) (id : LimitId) :
    Untouched id (fresh programs) := by
  have huntouched (w : World) (untouched : Untouched id ⟨w, .idle⟩) : Untouched id
      ⟨programs.foldl (fun w program => (w.spawn "" 0 program).2) w, .idle⟩ := by
    induction programs generalizing w with
    | nil => exact untouched
    | cons program rest ih => exact ih _ ((Act.start w "" 0 program).untouched untouched)
  exact huntouched _ ⟨fun _ => rfl, nofun⟩

end Machine

namespace Trace

open Machine

variable {tr : Trace} {task : TaskId} {ctx : Context} {limit : Option LimitId}
  {jobs : List (Runnable × Data)} {next : List Child → Task} {c : Child} {m i j k : Nat}

/-- At a moment at which a child is started there is one task more. -/
theorem Starts.size (starts : tr.Starts j task c) :
    c.id = (tr.history.world j).tasks.size ∧
      (tr.history.world (j + 1)).tasks.size = (tr.history.world j).tasks.size + 1 := by
  obtain ⟨name, parent, body, next, -, hspawn⟩ := starts
  have hid := congrArg (fun x => Child.id x.1) hspawn
  have hworld := congrArg (fun x => x.2.tasks.size) hspawn
  exact ⟨hid.symm, hworld.symm.trans (World.size_spawn _ _ _ _)⟩

/-- At most one child is started at a moment. -/
theorem Starts.unique {c' : Child} (starts : tr.Starts j task c) (starts' : tr.Starts j task c') :
    c' = c := by
  obtain ⟨name, parent, body, next, running, hspawn⟩ := starts
  obtain ⟨name', parent', body', next', running', hspawn'⟩ := starts'
  cases running.symm.trans running'
  exact congrArg Prod.fst (hspawn'.symm.trans hspawn)

/-- So the world has moved since. -/
theorem Starts.moved (starts : tr.Starts j task c) (hmj : m ≤ j) :
    m ≤ j + 1 ∧ tr.machine (j + 1) ≠ tr.machine m := by
  refine ⟨Nat.le_succ_of_le hmj, fun heq => ?_⟩
  have hsame : (tr.history.world (j + 1)).tasks.size = (tr.history.world m).tasks.size :=
    congrArg (fun a => a.world.tasks.size) heq
  rw [starts.size.2] at hsame
  have hle := (tr.history.later_of_le hmj).size
  omega

/-- Nobody adds a permit to a limit of a world that is left to itself. -/
theorem adds_alone (a : Machine) (sound : a.Sound) (id : LimitId) :
    (alone a sound).Adds id fun _ => 0 := by
  intro m
  have hnext : (alone a sound).machine (m + 1) = ((alone a sound).machine m).next :=
    Function.iterate_succ_apply' _ _ _
  rw [hnext]
  rcases step_next ((alone a sound).sound_at m) with step | ⟨-, still⟩
  · exact .inl ⟨step, rfl⟩
  · exact .inr (.inr ⟨still, rfl⟩)

/-- A task that starts children starts all of them, if the world does not stand still while it runs. -/
theorem starts_of_startAll
    (goesOn : ∀ j t, (tr.machine j).control = .running task t →
      ∃ k, j ≤ k ∧ tr.machine k ≠ tr.machine j)
    (running : (tr.machine m).control = .running task (FanOut.startAll ctx limit jobs next))
    (hi : i < jobs.length) : ∃ c, tr.Starts (m + i) task c := by
  induction jobs generalizing m i next with
  | nil => exact absurd hi (Nat.not_lt_zero i)
  | cons job rest ih =>
    obtain ⟨k, hmk, hmoved⟩ := goesOn m _ running
    obtain ⟨-, hworld, running', -⟩ := of_spawn running hmk hmoved
    cases i with
    | zero => exact ⟨_, _, _, _, _, running, Prod.ext rfl hworld.symm⟩
    | succ i =>
      obtain ⟨c, starts⟩ := ih running' (Nat.lt_of_succ_lt_succ hi)
      rw [show m + 1 + i = m + (i + 1) by omega] at starts
      exact ⟨c, starts⟩

/-- A task that starts children starts them one after the other. -/
theorem spawn_of_startAll
    (running : (tr.machine m).control = .running task (FanOut.startAll ctx limit jobs next))
    (hi : i < jobs.length) (starts : tr.Starts (m + i) task c) :
    (tr.history.world (m + i)).spawn jobs[i].1.name ctx.token
      (ctx.run jobs[i].1 jobs[i].2 limit) = (c, tr.history.world (m + i + 1)) := by
  induction jobs generalizing m i next with
  | nil => exact absurd hi (Nat.not_lt_zero i)
  | cons job rest ih =>
    cases i with
    | zero =>
      obtain ⟨name, parent, body, next', running', hspawn⟩ := starts
      cases running.symm.trans running'
      exact hspawn
    | succ i =>
      obtain ⟨hmk, hmoved⟩ := starts.moved (Nat.le_add_right m (i + 1))
      obtain ⟨-, -, running', -⟩ := of_spawn running hmk hmoved
      have hshift : m + (i + 1) = m + 1 + i := by omega
      rw [hshift] at starts ⊢
      exact ih running' (Nat.lt_of_succ_lt_succ hi) starts

end Trace

namespace Map

open Machine Trace

variable {tr : Trace} {task : TaskId} {map : Map} {ctx : Context} {states : List State}
  {K : Outcome → Task} {first i j k : Nat} {c : Child}

/-- A map with a bound that a limit can hold makes its limit first. -/
theorem limit_of_step {permits : Nat} (bound : map.bound ctx.config = some permits)
    (hle : permits ≤ maxPermits) (hne : states ≠ [])
    (running : (tr.machine first).control = .running task ((map.mapStates ctx states).andThen K))
    (step : (tr.machine first).Step (tr.machine (first + 1))) :
    tr.history.world (first + 1) = { tr.history.world first with
        limits := (tr.history.world first).limits.push (.ofPermits permits) } ∧
      (tr.machine (first + 1)).control = .running task
        ((map.elements ctx states (some (tr.history.world first).limits.size)).andThen K) := by
  rw [mapStates_eq hne, bound, withLimit, if_pos hle] at running
  rw [show tr.machine first = ⟨tr.history.world first, _⟩ from congrArg (Machine.mk _) running] at step
  generalize hb : tr.machine (first + 1) = b at step
  cases step with
  | answer there =>
    cases there
    exact ⟨congrArg Machine.world hb, rfl⟩
  | suspend unanswered => contradiction

/-- A map with a bound that starts children has made its limit before. -/
theorem limit_made {permits : Nat} (bound : map.bound ctx.config = some permits)
    (hne : states ≠ []) (hfirst : first ≤ j) (starts : tr.Starts j task c)
    (running : (tr.machine first).control = .running task ((map.mapStates ctx states).andThen K)) :
    permits ≤ maxPermits ∧
      tr.history.world (first + 1) = { tr.history.world first with
        limits := (tr.history.world first).limits.push (.ofPermits permits) } ∧
      (tr.machine (first + 1)).control = .running task
        ((map.elements ctx states (some (tr.history.world first).limits.size)).andThen K) := by
  obtain ⟨hmk, hmoved⟩ := starts.moved hfirst
  obtain ⟨-, -, -, step⟩ := step_of_running running hmk hmoved
  by_cases hle : permits ≤ maxPermits
  · exact ⟨hle, limit_of_step bound hle hne running step⟩
  · rw [mapStates_eq hne, bound, withLimit, if_neg hle] at running
    exact absurd starts (not_starts_of_panic running hfirst)

/-- The run of an element under the limit that a map has made. -/
structure Element (map : Map) (ctx : Context) (states : List State) (tr : Trace) (task : TaskId)
    (first i : Nat) (run : LimitedRun) : Prop where
  started : ∃ s child, states[i]? = some s ∧
    run = ⟨ctx, map.worker, .one s, (tr.history.world first).limits.size, child⟩
  starts : tr.Starts (map.firstStart ctx.config first + i) task run.child

variable {run : LimitedRun} {permits : Nat}

/-- It is started under this limit. -/
theorem Element.launches (element : map.Element ctx states tr task first i run)
    (bound : map.bound ctx.config = some permits)
    (running : (tr.machine first).control = .running task ((map.mapStates ctx states).andThen K)) :
    tr.Launches (first + 1 + i) run := by
  obtain ⟨⟨s, child, hs, rfl⟩, starts⟩ := element
  rw [firstStart_of_bound bound] at starts
  have hne : states ≠ [] := List.ne_nil_of_mem (List.mem_of_getElem? hs)
  obtain ⟨-, -, running'⟩ := limit_made bound hne (by omega) starts running
  obtain ⟨hi, hs⟩ := List.getElem?_eq_some_iff.mp hs
  rw [elements, FanOut.start, FanOut.startAll_andThen] at running'
  have hjob : i < (states.map fun s => (map.worker, Data.one s)).length := by
    rwa [List.length_map]
  have hspawn := spawn_of_startAll running' hjob starts
  simp only [List.getElem_map, hs] at hspawn
  exact hspawn

/-- The limit has as many permits as the bound says, all of them available. -/
theorem balanced_of_made {added : Nat → Nat}
    (untouched : Untouched (tr.history.world first).limits.size (tr.machine 0))
    (adds : tr.Adds (tr.history.world first).limits.size added)
    (made : tr.history.world (first + 1) = { tr.history.world first with
      limits := (tr.history.world first).limits.push (.ofPermits permits) }) :
    Untouched (tr.history.world first).limits.size (tr.machine first) ∧
      Balanced (tr.history.world first).limits.size permits (tr.machine (first + 1)) := by
  have hunmade : (tr.machine first).world.limits.get? (tr.history.world first).limits.size = none :=
    (Table.get?_eq_none_iff _ _).mpr (Nat.le_refl _)
  have huntouched := untouched_at adds untouched hunmade
  have hmachine : tr.machine (first + 1) =
      ⟨tr.history.world (first + 1), (tr.machine (first + 1)).control⟩ := rfl
  rw [made] at hmachine
  exact ⟨huntouched, hmachine ▸ huntouched.made permits (tr.machine (first + 1)).control⟩

/-- From then on the limit has as many permits as the bound says. -/
theorem balanced (untouched : Untouched (tr.history.world first).limits.size (tr.machine 0))
    (adds : tr.Adds (tr.history.world first).limits.size fun _ => 0)
    (bound : map.bound ctx.config = some permits) (hne : states ≠ [])
    (running : (tr.machine first).control = .running task ((map.mapStates ctx states).andThen K))
    (hfirst : first ≤ j) (starts : tr.Starts j task c) (hk : first < k) :
    Balanced (tr.history.world first).limits.size permits (tr.machine k) := by
  obtain ⟨-, made, -⟩ := limit_made bound hne hfirst starts running
  obtain ⟨-, hmade⟩ := balanced_of_made untouched adds made
  have hnone (m : Nat) : addedBefore (fun _ => 0) m = 0 := by
    induction m with
    | zero => rfl
    | succ m ih => exact ih
  have hall : Balanced (tr.history.world first).limits.size
      (permits + addedBefore (fun _ => 0) k) (tr.machine k) := by
    refine balanced_of_le adds hk ?_
    rwa [hnone]
  rwa [hnone] at hall

end Map

end Orchestra
