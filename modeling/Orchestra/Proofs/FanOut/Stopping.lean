import Orchestra.FanOut.Map
import Orchestra.Proofs.FanOut.Branches
import Orchestra.Session.Trial

/-!
# Gathering after a stop

From the moment at which a gathering notices a stop of its context, it lasts at most one grace
period, and nothing is raised any more. The children that have ended by its last look decide: their
outputs are the result, their failures are marked, and whoever is still running is abandoned.
Branches and maps gather in the same way; they differ in what they make of the outputs.
-/

namespace Orchestra

namespace History

open FanOut

variable {h : History} {task : TaskId} {m m' : Nat} {es : List Exchange} {o : Outcome}

/-- How a gathering ends that notices a stop at moment `s`, where moment `e` is that of its last look
and the children were started from moment `m` on. -/
structure StopsAt (h : History) (rules : Rules) (n : Nat) (name : Nat → String)
    (finish : Gathered → Outcome) (m s e : Nat) (es : List Exchange) (m' : Nat) (o : Outcome) :
    Prop where
  stop_le : s ≤ e
  le : e ≤ m'
  clock_eq : h.clock m' = h.clock e
  /-- It ends no later than one grace period after the stop, -/
  clock_le : h.clock m' ≤ h.clock s + rules.grace.nanos
  /-- and earlier only if every child has ended. -/
  closed : (∀ i < n, (h.endings e m i).isSome) ∨ h.clock e = h.clock s + rules.grace.nanos
  /-- Whoever ends before the grace period is over counts, -/
  counted : ∀ i < n, ∀ k, h.clock k < h.clock s + rules.grace.nanos →
    (h.endings k m i).isSome → (h.endings e m i).isSome
  /-- and those who count make up the outcome, whatever the policy. -/
  yields : (h.endings e m).Yields n name finish o
  /-- Whoever does not count is reported as abandoned. -/
  abandoned : (h.endings e m).unfinished n ≠ 0 → ∃ k,
    ⟨k, .log (.abandoned rules.owner ((h.endings e m).unfinished n)), ()⟩ ∈ es

/-- A gathering that notices a stop ends in this way. -/
theorem GatherAll.stopsAt {ctx : Context} {rules : Rules} {f : FanOut} {n m₀ : Nat}
    {finish : Gathered → Outcome} (hall : h.GatherAll task ctx rules f n finish m m₀ es m' o)
    {x : Exchange} (hx : x ∈ es) (hsees : x.seesStop ctx.token) :
    ∃ e, h.StopsAt rules n f.name finish m x.moment e es m' o := by
  have hnoisy {es' : List Exchange} (hquiet : Quiet es') : x ∉ es' := fun hmem => by
    rw [(hquiet x hmem).1 ctx.token] at hsees
    contradiction
  cases hall with
  | finished from_le le clock_eq all accepted quiet => exact absurd hx (hnoisy quiet)
  | raised failFast from_le le first outcome quiet => exact absurd hx (hnoisy quiet)
  | @stopped s e pending es₀ es₁ from_le stop_le le clock_eq clock_le closed seen unended split quiet
      quiet' abandoned yields =>
    have hmoment : x.moment = s := by
      rw [split] at hx
      rcases List.mem_append.mp hx with hx | hx
      · exact absurd hx (hnoisy quiet)
      rcases List.mem_cons.mp hx with rfl | hx
      · rfl
      · exact absurd hx (hnoisy quiet')
    subst hmoment
    refine ⟨e, stop_le, le, clock_eq, clock_eq ▸ clock_le, closed, fun i hi k hk hended => ?_, yields,
      abandoned⟩
    rcases closed with hall | hover
    · exact hall i hi
    · exact isSome_ended?_of_clock_lt (hover ▸ hk) hended

/-- How a gathering ends whose context is stopped. It notices the stop and ends in this way, unless all
children have ended before it looks, or a failure has been raised under fail-fast. -/
structure StopEnds (h : History) (token : TokenId) (rules : Rules) (n : Nat) (name : Nat → String)
    (finish : Gathered → Outcome) (m : Nat) (es : List Exchange) (m' : Nat) (o : Outcome) : Prop where
  stopsAt : ∀ x ∈ es, x.seesStop token →
    ∃ e, h.StopsAt rules n name finish m x.moment e es m' o
  notices : (∃ x ∈ es, x.seesStop token) ∨ (∀ i < n, (h.endings m' m i).isSome) ∨
    rules.policy = .failFast ∧ ∃ e, (h.endings m' m).FirstFailure n e ∧ o = .error e

namespace StopEnds

variable {token : TokenId} {rules : Rules} {n : Nat} {name name' : Nat → String}
  {finish finish' : Gathered → Outcome}

/-- Exchanges in which no stop is noticed may come before. -/
theorem append {es₀ : List Exchange} (hends : h.StopEnds token rules n name finish m es m' o)
    (hquiet : Quiet es₀) : h.StopEnds token rules n name finish m (es₀ ++ es) m' o where
  stopsAt x hx hsees := by
    have hx₁ : x ∈ es := by
      refine (List.mem_append.mp hx).resolve_left fun hx₀ => ?_
      rw [(hquiet x hx₀).1 token] at hsees
      contradiction
    obtain ⟨e, hstops⟩ := hends.stopsAt x hx₁ hsees
    exact ⟨e, { hstops with
      abandoned := fun hne => by
        obtain ⟨k, hk⟩ := hstops.abandoned hne
        exact ⟨k, List.mem_append_right es₀ hk⟩ }⟩
  notices := hends.notices.imp_left fun ⟨x, hx, hsees⟩ => ⟨x, List.mem_append_right es₀ hx, hsees⟩

end StopEnds

end History

/-! ### Maps -/

namespace Map

variable {map : Map} {ctx : Context} {states : List State}

/-- The moment from which on the children are started: making a limit comes before. -/
def firstStart (map : Map) (config : Config) (m : Nat) : Nat :=
  if (map.bound config).isSome then m + 1 else m

theorem firstStart_of_bound {config : Config} {permits : Nat} (bound : map.bound config = some permits)
    (m : Nat) : map.firstStart config m = m + 1 := by
  simp [firstStart, bound]

theorem le_firstStart (map : Map) (config : Config) (m : Nat) : m ≤ map.firstStart config m := by
  unfold firstStart
  split <;> omega

/-- The children that a map starts, and what it does with them. -/
def elements (map : Map) (ctx : Context) (states : List State) (limit : Option LimitId) : Task :=
  FanOut.start ctx limit (states.map fun s => (map.worker, .one s)) fun f =>
    f.gather ctx (map.rules ctx.config) fun gathered => .done (result map.worker.name gathered)

theorem mapStates_eq (hne : states ≠ []) :
    map.mapStates ctx states = withLimit (map.bound ctx.config) (map.elements ctx states) := by
  unfold mapStates
  rw [if_neg (by rwa [List.isEmpty_iff])]
  rfl

/-- A run of a map makes a limit, if there is a bound, and then starts its children. -/
theorem runs_elements {h : History} {task : TaskId} {m m' : Nat} {es : List Exchange} {o : Outcome}
    (hne : states ≠ []) (run : h.Runs task m (map.mapStates ctx states) es m' o) :
    ∃ limit es₀ es₁, es = es₀ ++ es₁ ∧ (∀ x ∈ es₀, ∃ permits, x.request = .newLimit permits) ∧
      h.Runs task (map.firstStart ctx.config m) (map.elements ctx states limit) es₁ m' o := by
  rw [mapStates_eq hne] at run
  unfold firstStart
  cases hbound : map.bound ctx.config with
  | none =>
    rw [hbound] at run
    exact ⟨none, [], es, rfl, List.forall_mem_nil _, run⟩
  | some permits =>
    rw [hbound, withLimit] at run
    split at run
    · obtain ⟨es', rfl, -, -, run⟩ := History.runs_ask_now rfl run
      exact ⟨_, [_], es', rfl, List.forall_mem_singleton.mpr ⟨permits, rfl⟩, run⟩
    · cases run

/-- A run of a map makes a limit, if there is a bound, and then gathers its children. -/
theorem runs_mapStates {h : History} {task : TaskId} {m m' : Nat} {es : List Exchange}
    {o : Outcome} (hne : states ≠ []) (run : h.Runs task m (map.mapStates ctx states) es m' o) :
    ∃ f es₀ es₁, es = es₀ ++ es₁ ∧ Quiet es₀ ∧
      h.Started (map.firstStart ctx.config m) (states.map fun _ => map.worker.name) f ∧
      h.GatherAll task ctx (map.rules ctx.config) f states.length (result map.worker.name)
        (map.firstStart ctx.config m) (map.firstStart ctx.config m + states.length) es₁ m' o := by
  obtain ⟨limit, es₀, es₁, rfl, hmakes, run⟩ := runs_elements hne run
  obtain ⟨f, start, -, run, -⟩ := History.runs_start run
  rw [List.map_map] at start
  rw [List.length_map] at run
  have hall := History.runs_gather start run
  rw [List.length_map] at hall
  refine ⟨f, es₀, es₁, rfl, fun x hx => ?_, start, hall⟩
  obtain ⟨permits, hrequest⟩ := hmakes x hx
  obtain ⟨k, r, a⟩ := x
  obtain rfl : r = .newLimit permits := hrequest
  exact ⟨fun _ => rfl, rfl⟩

/-- A map that is to close by a moment comes to an end, if a limit can hold its bound. -/
theorem not_stuck_mapStates {h : History} {heeded : TokenId → Prop} {task : TaskId} {m n latest : Nat}
    (hbound : ∀ permits, map.bound ctx.config = some permits → permits ≤ maxPermits)
    (htime : ∀ instant, ∃ k, instant ≤ h.clock k)
    (closes : h.Closes heeded ctx.token (map.rules ctx.config).policy.Refuses
      (h.startedAt (map.firstStart ctx.config m) states.length) n)
    (hm : h.clock m ≤ latest) (hn : h.clock n ≤ latest)
    (graceful : h.Graceful ctx.token (map.rules ctx.config).grace
      (map.rules ctx.config).policy.Refuses
      (h.startedAt (map.firstStart ctx.config m) states.length) latest) :
    ¬ h.Stuck heeded task m (map.mapStates ctx states) := by
  have helements (limit : Option LimitId)
      (hclock : h.clock (map.firstStart ctx.config m) = h.clock m) :
      ¬ h.Stuck heeded task (map.firstStart ctx.config m) (map.elements ctx states limit) := by
    refine History.not_stuck_start fun f start hstart => ?_
    rw [List.map_map] at start
    have hwaits := start.waits
    rw [List.length_map] at hwaits
    rw [← hwaits] at closes graceful
    exact History.not_stuck_gatherNext start.sorted rfl htime closes (hstart ▸ hclock ▸ hm) hn graceful
      fun m₁ gathered stuck => by cases stuck
  by_cases hne : states = []
  · subst hne
    intro stuck
    cases stuck
  rw [mapStates_eq hne]
  unfold firstStart at helements
  cases hpermits : map.bound ctx.config with
  | none =>
    rw [hpermits] at helements
    exact helements none rfl
  | some permits =>
    rw [hpermits] at helements
    rw [withLimit, if_pos (hbound permits hpermits)]
    exact History.not_stuck_ask_now rfl fun atOnce => helements (some _) atOnce

/-- Single states are put together as they are. -/
theorem singleStates_of_single {worker : String} {outputs : List Data}
    (h : ∀ d ∈ outputs, ∃ s, d = .one s) :
    singleStates worker outputs = .ok (outputs.flatMap Data.states) := by
  induction outputs with
  | nil => rfl
  | cons d rest ih =>
    obtain ⟨s, rfl⟩ := h d List.mem_cons_self
    rw [singleStates, ih fun d' hd' => h d' (List.mem_cons_of_mem _ hd')]
    rfl

/-- What a map makes of single states: the list of them, with the markers. -/
theorem result_of_single {worker : String} {gathered : Gathered}
    (h : ∀ d, some d ∈ gathered.outputs → ∃ s, d = .one s) :
    result worker gathered = .ok (.many ⟨gathered.states, gathered.markers⟩) := by
  rw [result, singleStates_of_single fun d hd => h d (Gathered.mem_outputs.mp hd),
    gathered.states_eq]
  rfl

end Map

/-- Three children that do not heed a stop: one ends within the grace period, one fails within it, and
one is too slow. -/
def Branches.heedless : Branches :=
  ⟨[Leaf.stubborn (.ofMillis 30) .zero, Leaf.failing "late" (.ofMillis 25),
    Leaf.stubborn (.ofMillis 500) .zero], .collect, none, none, false⟩

/-- Their run in a session in which another task stops them at instant 20. -/
def heedlessTrace : Trace :=
  .fresh [fun token => Branches.heedless.next ⟨token, .default, 0⟩ (.one .empty),
    fun _ => .ask (.sleep (.ofMillis 20) none) fun _ => .ask (.stop [1]) fun _ => .succeed (.one .empty)]

/-- What a trial comes to, with the energies of its output, and the instant at which it is over. -/
def Trial.summary (t : Trial) : Except RunError (Option (Except RunError (List Double)) × Nat) :=
  t.carryOut.map fun (ending, s) =>
    (ending.map fun e => (e.outcome "").map Data.energies, s.world.clock)

end Orchestra
