import Mathlib.Data.Set.Finite.Basic
import Mathlib.Order.Filter.AtTopBot.Basic
import Mathlib.Order.Filter.Finite
import Orchestra.Proofs.FanOut.Attending
import Orchestra.Proofs.Permits.Elements
import Orchestra.Proofs.Permits.Served

/-!
# Maps that nobody disturbs

A map whose context is not stopped, and whose limit, if it has one, is used by its children only. If
each child ends that executes the worker, then every child ends: whoever waits for a permit is served.
A child that has ended without having been stopped has executed the worker, and no child is stopped
before some child has failed.
-/

namespace Orchestra

namespace Map

variable (map : Map) (ctx : Context) (states : List State) (tr : Trace) (task : TaskId) (first : Nat)

/-- A child that a map has started for a state of its list, where the map began at a moment. -/
structure Item (i : Nat) (s : State) (c : Child) : Prop where
  state : states[i]? = some s
  starts : tr.Starts (map.firstStart ctx.config first + i) task c

/-- What such a child does once it has a permit, if it needs one. -/
def execution (s : State) (c : Child) : Task :=
  { ctx with token := c.token }.execute map.worker (.one s)

/-- Each child that executes the worker ends, after whatever delay, and comes to what a function makes
of its state, unless it is stopped before. -/
def Computes (f : State → Except RunError State) : Prop :=
  ∀ i s c j, map.Item ctx states tr task first i s c →
    (tr.machine j).control = .running c.id (map.execution ctx s c) →
    (∃ k, (tr.history.ended? k c.id).isSome) ∧
      ∀ k place o, tr.history.ended? k c.id = some (place, o) →
        (tr.history.world k).isStopped c.token = false → o = (f s).map .one

/-- By some moment a child has failed. -/
def Fails (k : Nat) : Prop :=
  ∃ i < states.length, ∃ place e, tr.history.endings k (map.firstStart ctx.config first) i =
    some (place, .error e) ∧ e ≠ .cancelled

/-- The map is not stopped, and its children are stopped by nobody else. -/
structure Unstopped : Prop where
  context : ∀ k, (tr.history.world k).isStopped ctx.token = false
  children : ∀ i s c, map.Item ctx states tr task first i s c → ∀ k,
    (tr.history.world k).isStopped c.token = true → ∃ j < k, first ≤ j ∧ ∃ tokens next,
      (tr.machine j).control = .running task (.ask (.stop tokens) next)

/-- The limit that the map makes, if it makes one, is its own: only its children ask for permits, and
nobody closes it. -/
structure OwnsLimit : Prop where
  untouched : Machine.Untouched (tr.history.world first).limits.size (tr.machine 0)
  asks : ∀ k task' token next, first ≤ k → (tr.machine k).control =
      .running task' (.ask (.acquire (tr.history.world first).limits.size token) next) →
    ∃ i s c, map.Item ctx states tr task first i s c ∧ task' = c.id
  opened : ∀ k l, (tr.history.world k).limits.get? (tr.history.world first).limits.size = some l →
    l.closed = false

end Map

namespace Map

open Machine Trace

variable {map : Map} {ctx : Context} {states : List State} {tr : Trace} {task : TaskId} {first : Nat}
  {K : Outcome → Task} {i j k : Nat} {s : State} {c : Child} {added : Nat → Nat}

/-- The number of a child is the one under which a fan-out looks for it. -/
theorem Item.id (item : map.Item ctx states tr task first i s c) :
    c.id = tr.history.childAt (map.firstStart ctx.config first) i :=
  item.starts.size.1

theorem Item.ne_nil (item : map.Item ctx states tr task first i s c) : states ≠ [] :=
  List.ne_nil_of_mem (List.mem_of_getElem? item.state)

/-- From some moment on every child has ended that ever executes the worker. -/
theorem eventually_over {f : State → Except RunError State}
    (computes : map.Computes ctx states tr task first f) :
    ∀ᶠ k in Filter.atTop, ∀ i, i < states.length → ∀ s c j,
      map.Item ctx states tr task first i s c →
      (tr.machine j).control = .running c.id (map.execution ctx s c) →
      (tr.history.ended? k c.id).isSome := by
  refine (Set.finite_lt_nat states.length).eventually_all.mpr fun i _ => ?_
  by_cases h : ∃ s c j, map.Item ctx states tr task first i s c ∧
      (tr.machine j).control = .running c.id (map.execution ctx s c)
  · obtain ⟨s, c, j, item, control⟩ := h
    obtain ⟨final, hended⟩ := (computes i s c j item control).1
    refine Filter.eventually_atTop.mpr ⟨final, fun k hk s' c' j' item' _ => ?_⟩
    rw [item'.id, ← item.id]
    exact History.isSome_ended? hk hended
  · exact .of_forall fun k s c j item control => absurd ⟨s, c, j, item, control⟩ h

section Running

variable
  (running : (tr.machine first).control = .running task ((map.mapStates ctx states).andThen K))
  (hbound : ∀ permits, map.bound ctx.config = some permits → permits ≤ maxPermits)
  (htime : ∀ instant, ∃ k, instant ≤ tr.history.clock k)
include running hbound htime

/-- Before it starts its children a map makes its limit, if it has one. -/
theorem running_elements (hne : states ≠ []) :
    (tr.machine (map.firstStart ctx.config first)).control = .running task ((map.elements ctx states
      ((map.bound ctx.config).map fun _ => (tr.history.world first).limits.size)).andThen K) ∧
    ∀ permits, map.bound ctx.config = some permits →
      tr.history.world (first + 1) = { tr.history.world first with
        limits := (tr.history.world first).limits.push (.ofPermits permits) } := by
  unfold firstStart
  cases bound : map.bound ctx.config with
  | none =>
    rw [mapStates_eq hne, bound] at running
    exact ⟨running, nofun⟩
  | some permits =>
    obtain ⟨made, running'⟩ := limit_of_step bound (hbound permits bound) hne running
      (step_of_time htime running).1
    refine ⟨running', fun permits' heq => ?_⟩
    cases heq
    exact made

/-- Then it starts a child for each state. -/
theorem exists_item (hs : states[i]? = some s) : ∃ c, map.Item ctx states tr task first i s c := by
  obtain ⟨hi, -⟩ := List.getElem?_eq_some_iff.mp hs
  obtain ⟨running', -⟩ := running_elements running hbound htime
    (List.ne_nil_of_mem (List.mem_of_getElem? hs))
  rw [elements, FanOut.start, FanOut.startAll_andThen] at running'
  obtain ⟨c, starts⟩ := starts_of_startAll (fun _ _ h => (step_of_time htime h).2) running'
    (by rwa [List.length_map])
  exact ⟨c, hs, starts⟩

/-- The program of a child executes the worker, under the limit if there is one. -/
theorem Item.spawn (item : map.Item ctx states tr task first i s c) :
    (tr.history.world (map.firstStart ctx.config first + i)).spawn map.worker.name ctx.token
      (ctx.run map.worker (.one s)
        ((map.bound ctx.config).map fun _ => (tr.history.world first).limits.size)) =
      (c, tr.history.world (map.firstStart ctx.config first + i + 1)) := by
  obtain ⟨hi, hs⟩ := List.getElem?_eq_some_iff.mp item.state
  obtain ⟨running', -⟩ := running_elements running hbound htime item.ne_nil
  rw [elements, FanOut.start, FanOut.startAll_andThen] at running'
  have hspawn := spawn_of_startAll running' (by rwa [List.length_map]) item.starts
  simp only [List.getElem_map, hs] at hspawn
  exact hspawn

variable (adds : tr.Adds (tr.history.world first).limits.size added)
  (owns : ∀ permits, map.bound ctx.config = some permits → map.OwnsLimit ctx states tr task first)
include adds owns

/-- Where there is a bound, a child is a run under the limit that the map has made. -/
theorem Item.launches {permits : Nat} (bound : map.bound ctx.config = some permits)
    (item : map.Item ctx states tr task first i s c) :
    tr.Launches (map.firstStart ctx.config first + i)
        ⟨ctx, map.worker, .one s, (tr.history.world first).limits.size, c⟩ ∧
      ∀ k, first < k → ∃ total, 0 < total ∧
        Balanced (tr.history.world first).limits.size total (tr.machine k) := by
  have hspawn := item.spawn running hbound htime
  rw [bound] at hspawn
  refine ⟨hspawn, fun k hk => ?_⟩
  obtain ⟨-, hmade⟩ := running_elements running hbound htime item.ne_nil
  obtain ⟨-, balanced⟩ := balanced_of_made (owns permits bound).untouched adds (hmade permits bound)
  obtain ⟨total, hle, balanced'⟩ := exists_balanced_of_le adds hk balanced
  obtain ⟨n, -, rfl⟩ := Option.map_eq_some_iff.mp bound
  exact ⟨total, Nat.lt_of_lt_of_le (Nat.lt_of_lt_of_le Nat.zero_lt_one (Nat.le_max_right n 1)) hle,
    balanced'⟩

/-- A child that has ended without having been stopped has executed the worker. -/
theorem Item.executes (item : map.Item ctx states tr task first i s c)
    (hended : (tr.history.ended? k c.id).isSome)
    (unstopped : (tr.history.world k).isStopped c.token = false) :
    ∃ j ≤ k, (tr.machine j).control = .running c.id (map.execution ctx s c) := by
  have hspawn := item.spawn running hbound htime
  obtain ⟨j, hmj, hjk, control⟩ := begins_of_ended hspawn hended
  cases bound : map.bound ctx.config with
  | none =>
    rw [bound] at control
    exact ⟨j, hjk, control⟩
  | some permits =>
    obtain ⟨launches, hbalanced⟩ := item.launches running hbound htime adds owns bound
    by_contra unbegun
    have waits := launches.waits (Nat.lt_of_lt_of_le hmj hjk) unstopped (fun j' hj' => ?_) unbegun
    · rw [show tr.history.ended? k c.id = none from waits.unended (tr.sound_at k)] at hended
      contradiction
    · have hfirst := map.le_firstStart ctx.config first
      obtain ⟨total, -, l, books⟩ := hbalanced j' (by omega)
      exact ⟨l, books.there, (owns permits bound).opened j' l books.there⟩

variable {f : State → Except RunError State} (computes : map.Computes ctx states tr task first f)
include computes

/-- By some moment every child has ended: whoever executes the worker ends, and nobody else holds a
permit, so that whoever waits for one is served. -/
theorem all_end : ∃ k, ∀ i < states.length,
    (tr.history.endings k (map.firstStart ctx.config first) i).isSome := by
  have hlate := Filter.eventually_gt_atTop (map.firstStart ctx.config first + states.length)
  obtain ⟨k, passes, hover, hlate⟩ := ((Filter.frequently_atTop.mpr (passes_again htime)).and_eventually
    ((eventually_over computes).and hlate)).exists
  have hends {i : Nat} {s : State} {c : Child} (item : map.Item ctx states tr task first i s c)
      (begun : ∃ j ≤ k, (tr.machine j).control = .running c.id (map.execution ctx s c)) :
      (tr.history.ended? k c.id).isSome := by
    obtain ⟨j, -, control⟩ := begun
    exact hover i (List.getElem?_eq_some_iff.mp item.state).1 s c j item control
  refine ⟨k, fun i hi => ?_⟩
  obtain ⟨c, item⟩ := exists_item running hbound htime (List.getElem?_eq_getElem hi)
  have hik : map.firstStart ctx.config first + i < k := by omega
  rw [show tr.history.endings k _ i = tr.history.ended? k c.id from
    congrArg (tr.history.ended? k) item.id.symm]
  cases bound : map.bound ctx.config with
  | none =>
    have hspawn := item.spawn running hbound htime
    rw [bound] at hspawn
    obtain ⟨j, -, hjk, control⟩ := begins_of_passing hspawn adds hik passes
    exact hends item ⟨j, hjk, control⟩
  | some permits =>
    obtain ⟨launches, hbalanced⟩ := item.launches running hbound htime adds owns bound
    by_cases begun : tr.HasBegun
        ⟨ctx, map.worker, .one states[i], (tr.history.world first).limits.size, c⟩ k
    · exact hends item begun
    have hfirst : first < k := by
      have hle := map.le_firstStart ctx.config first
      omega
    obtain ⟨total, pos, balanced⟩ := hbalanced k hfirst
    have own := owns permits bound
    refine launches.over_of_passing adds hik passes balanced pos (own.opened k) (fun task' holds => ?_)
      begun
    -- whoever holds a permit is a child that has begun, and has ended by now
    obtain ⟨-, hmade⟩ := running_elements running hbound htime item.ne_nil
    obtain ⟨untouched, -⟩ := balanced_of_made own.untouched adds (hmade permits bound)
    obtain ⟨askers, -⟩ := asker_of_le adds untouched (Nat.le_of_lt hfirst) own.asks
    obtain ⟨i', s', c', item', rfl⟩ := askers task' holds
    obtain ⟨launches', -⟩ := item'.launches running hbound htime adds owns bound
    have hik' : map.firstStart ctx.config first + i' < k := by
      have hi' := (List.getElem?_eq_some_iff.mp item'.state).1
      omega
    have hended := hends item' (launches'.hasBegun_of_heldBy adds hik' holds)
    exact Option.isSome_iff_ne_none.mp hended

end Running

/-- A child of a map is not stopped before it has ended, unless some child has failed under fail-fast. -/
theorem Item.failed_of_stopped
    (running : (tr.machine first).control = .running task ((map.mapStates ctx states).andThen K))
    (htime : ∀ instant, ∃ k, instant ≤ tr.history.clock k)
    (unstopped : map.Unstopped ctx states tr task first)
    (item : map.Item ctx states tr task first i s c)
    (unended : ∀ j < k, tr.history.endings j (map.firstStart ctx.config first) i = none)
    (hstopped : (tr.history.world k).isStopped c.token = true) :
    ∃ j < k, (map.rules ctx.config).policy = .failFast ∧ map.Fails ctx states tr first j := by
  obtain ⟨j, hjk, hfirst, tokens, next, control⟩ := unstopped.children i s c item k hstopped
  refine ⟨j, hjk, ?_⟩
  rcases (leads htime running hfirst control).of_andThen with ⟨next', leads⟩ | ⟨es, m', o, run, hle⟩
  · rcases reason_of_mapStates leads with hcontext | ⟨hpolicy, p, hp, place, e, hended, hfailed⟩
    · rw [unstopped.context] at hcontext
      contradiction
    · obtain ⟨hi, hid⟩ := History.mem_startedAt.mp hp
      rw [hid] at hended
      exact ⟨hpolicy, p.index, hi, place, e, hended, hfailed⟩
  · -- the map is over by then
    obtain ⟨fan, es₀, es₁, rfl, -, start, hgather⟩ := runs_mapStates item.ne_nil run
    cases hgather with
    | @finished e from_le le clock_eq all =>
      have hsome := all i (List.getElem?_eq_some_iff.mp item.state).1
      rw [unended e (by omega)] at hsome
      contradiction
    | @raised k' e failFast from_le le first =>
      obtain ⟨i', hi', place, hended, hcancelled, -⟩ := first j (by omega)
      exact ⟨failFast, i', hi', place, e, hended, RunError.isCancelled_eq_false.mp hcancelled⟩
    | stopped from_le stop_le le clock_eq clock_le closed seen =>
      rw [unstopped.context] at seen
      contradiction

end Map

end Orchestra
