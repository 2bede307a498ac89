import Orchestra.Proofs.Permits.Elements

/-!
# No more runs than permits

At every moment the permits of a limit are available, granted to a run that has not taken its permit
up yet, or held by a run, and none of these runs has ended: whoever ends gives back what it holds, and
whoever gives up waiting gives back what it was granted. A run that executes its runnable holds a
permit, so no more runs execute at once than there are permits; and a map makes a limit of its own,
with as many permits as its bound says.
-/

namespace Orchestra

namespace World

/-- The number of permits of a limit that nobody has been given. -/
def available (w : World) (id : LimitId) : Nat :=
  match w.limits.get? id with
  | some l => l.available
  | none => 0

/-- The tasks that have been given permits of a limit, each of them once for each permit: those that
have not taken it up yet, and those that hold it. -/
def grantees (w : World) (id : LimitId) : List TaskId :=
  match w.limits.get? id with
  | some l => l.granted ++ w.holders id
  | none => w.holders id

end World

namespace Machine

variable {id : LimitId} {total : Nat} {a : Machine}

/-- Permits are available or have been given to tasks that have not ended. -/
theorem Balanced.grantees (balanced : Balanced id total a) (sound : Sound a) :
    a.world.available id + (a.world.grantees id).length = total ∧
      ∀ task ∈ a.world.grantees id, a.world.ended? task = none := by
  obtain ⟨l, books⟩ := balanced
  have hbalance := books.balance
  unfold Limit.atHand at hbalance
  unfold World.available World.grantees
  rw [books.there]
  dsimp only
  constructor
  · rw [List.length_append]
    omega
  · intro task htask
    rcases List.mem_append.mp htask with hgranted | hholds
    · obtain ⟨s, hs, hid, -⟩ := books.waits task (List.mem_append_left _ hgranted)
      exact hid ▸ (sound.waits s hs).2
    · exact books.unended task hholds

end Machine

namespace Trace

open Machine

variable {tr : Trace} {task : TaskId} {c c' : Child} {i j : Nat}

/-- A child that is started later has a later number, -/
theorem Starts.lt (starts : tr.Starts i task c) (starts' : tr.Starts j task c') (hij : i < j) :
    c.id < c'.id := by
  have hlater := (tr.history.later_of_le (Nat.succ_le_of_lt hij)).size
  rw [Nat.succ_eq_add_one, starts.size.2] at hlater
  rw [starts.size.1, starts'.size.1]
  exact Nat.lt_of_succ_le hlater

/-- so that no two of them have the same number. -/
theorem Starts.eq_of_id (starts : tr.Starts i task c) (starts' : tr.Starts j task c')
    (heq : c.id = c'.id) : i = j := by
  rcases Nat.lt_trichotomy i j with hlt | rfl | hlt
  · exact absurd heq (Nat.ne_of_lt (starts.lt starts' hlt))
  · rfl
  · exact absurd heq (Nat.ne_of_gt (starts'.lt starts hlt))

end Trace

/-- The elements of a map whose worker is executing at a moment. -/
def Map.executingAt (map : Map) (ctx : Context) (states : List State) (tr : Trace) (task : TaskId)
    (first m : Nat) : Set Nat :=
  {i | ∃ run, map.Element ctx states tr task first i run ∧ tr.Executing run m}

/-- The limit of a map has as many permits as its bound says, so that no more elements execute at once:
each of them is a task of its own, and holds a permit. -/
theorem Map.length_executing_le {map : Map} {ctx : Context} {states : List State} {tr : Trace}
    {task : TaskId} {first permits m : Nat} {K : Outcome → Task} {is : List Nat}
    (bound : map.bound ctx.config = some permits)
    (running : (tr.machine first).control = .running task ((map.mapStates ctx states).andThen K))
    (untouched : Machine.Untouched (tr.history.world first).limits.size (tr.machine 0))
    (adds : tr.Adds (tr.history.world first).limits.size fun _ => 0) (distinct : is.Nodup)
    (executing : ∀ i ∈ is, i ∈ map.executingAt ctx states tr task first m) : is.length ≤ permits := by
  have hchild (i : Nat) (hi : i ∈ is) : ∃ c, tr.Starts (first + 1 + i) task c ∧
      c.id = tr.history.childAt (first + 1) i ∧ first < m ∧
      0 < (tr.machine m).world.heldBy (tr.history.world first).limits.size c.id := by
    obtain ⟨run, element, executing⟩ := executing i hi
    have launches := element.launches bound running
    have starts := element.starts
    rw [firstStart_of_bound bound] at starts
    obtain ⟨s, child, -, rfl⟩ := element.started
    obtain ⟨j, hjm, control⟩ := executing.begun
    have hlt := launches.lt_of_running control
    exact ⟨child, starts, starts.size.1, by omega, executing.holds adds launches⟩
  cases is with
  | nil => exact Nat.zero_le _
  | cons i rest =>
    obtain ⟨c, starts, -, hm, -⟩ := hchild i List.mem_cons_self
    have hne : states ≠ [] := by
      obtain ⟨run, element, -⟩ := executing i List.mem_cons_self
      obtain ⟨s, child, hs, -⟩ := element.started
      exact List.ne_nil_of_mem (List.mem_of_getElem? hs)
    have balanced := balanced untouched adds bound hne running (by omega) starts hm
    have hdistinct : ((i :: rest).map (tr.history.childAt (first + 1))).Nodup := by
      refine List.Nodup.map_on (fun i hi j hj heq => ?_) distinct
      obtain ⟨c, starts, hid, -⟩ := hchild i hi
      obtain ⟨c', starts', hid', -⟩ := hchild j hj
      exact Nat.add_left_cancel (starts.eq_of_id starts' (hid.trans (heq.trans hid'.symm)))
    have hle := balanced.length_le hdistinct fun task htask => by
      obtain ⟨i, hi, rfl⟩ := List.mem_map.mp htask
      obtain ⟨c, -, hid, -, holds⟩ := hchild i hi
      exact hid ▸ holds
    rwa [List.length_map] at hle

/-- A limit with permits that nobody has been given yet: whatever tasks are started under it, however
they end and whoever is stopped, the permits that are available and those that have been given out are
always the initial and the added ones, all of them given to tasks that have not ended, and no more runs
are executing than there are permits. In a map under a bound, to whose limit nobody adds permits, no
more workers are executing than the bound says, nor more than one if it is zero. -/
theorem permits_bound_executions :
    (∀ (tr : Trace) (id : LimitId) (permits : Nat) (added : Nat → Nat),
      (tr.history.world 0).limits.get? id = some (.ofPermits permits) →
      Machine.Untouched id (tr.machine 0) → tr.Adds id added →
      ∀ m, let w := tr.history.world m
        let total := permits + Trace.addedBefore added m
        w.available id + (w.grantees id).length = total ∧
        (∀ task, (w.ended? task).isSome → task ∉ w.grantees id) ∧
        ∀ runs : List LimitedRun, (runs.map fun run => run.child.id).Nodup →
          (∀ run ∈ runs, run.limit = id ∧ (∃ k, tr.Launches k run) ∧ tr.Executing run m) →
          runs.length ≤ total) ∧
    ∀ (tr : Trace) (map : Map) (ctx : Context) (states : List State)
      (failures : List FailureMarker) (K : Outcome → Task) (task : TaskId) (first bound : Nat),
      (map.maxConcurrency <|> ctx.config.mapLimit) = some bound →
      (tr.machine first).control =
        .running task ((map.runnable.next ctx (.many ⟨states, failures⟩)).andThen K) →
      Machine.Untouched (tr.history.world first).limits.size (tr.machine 0) →
      tr.Adds (tr.history.world first).limits.size (fun _ => 0) →
      ∀ m (is : List Nat), is.Nodup →
        (∀ i ∈ is, i ∈ map.executingAt ctx states tr task first m) → is.length ≤ max bound 1 := by
  constructor
  · intro tr id permits added there untouched adds m w total
    have balanced : Machine.Balanced id total (tr.machine m) :=
      Trace.balanced_of_le adds (Nat.zero_le m) (untouched.balanced there)
    obtain ⟨hsum, hunended⟩ := balanced.grantees (tr.sound_at m)
    refine ⟨hsum, fun task hended htask => ?_, fun runs distinct executing =>
      Trace.length_executing_le adds balanced distinct executing⟩
    rw [show w.ended? task = none from hunended task htask] at hended
    contradiction
  · intro tr map ctx states failures K task first bound hbound running untouched adds m is hnodup
      hexecuting
    have hmax : map.bound ctx.config = some (max bound 1) := by
      rw [Map.bound, hbound, Option.map_some]
    exact Map.length_executing_le hmax running untouched adds hnodup hexecuting

/-- A run under the first limit. -/
def LimitedRun.napping (child : Child) : LimitedRun :=
  ⟨⟨0, .default, 0⟩, Leaf.sleep (.ofMillis 20), .one .empty, 0, child⟩

/-- A session with a limit of one permit, before any run is started, -/
def World.single : World :=
  { (Session.ofConfig .default).world with limits := Table.empty.push (.ofPermits 1) }

/-- and with one run more. -/
def World.withNap (w : World) : World :=
  (w.spawn "Sleep" 0 ((⟨0, .default, 0⟩ : Context).run (Leaf.sleep (.ofMillis 20)) (.one .empty) (some 0))).2

theorem Machine.sound_withNap {w : World} (sound : Sound ⟨w, .idle⟩) : Sound ⟨w.withNap, .idle⟩ :=
  sound.spawn _ _ _

theorem Machine.sound_single : Sound ⟨World.single, .idle⟩ :=
  sound_of_no_tasks rfl rfl

/-- Three runs are started, and then a second permit is added. -/
def nappingTrace : Trace :=
  let w := World.single
  have h₁ := Machine.sound_withNap Machine.sound_single
  have h₂ := Machine.sound_withNap h₁
  have h₃ := Machine.sound_withNap h₂
  .cons ⟨w, .idle⟩ (.cons ⟨w.withNap, .idle⟩ (.cons ⟨w.withNap.withNap, .idle⟩
    (.cons ⟨w.withNap.withNap.withNap, .idle⟩
      (.alone ⟨w.withNap.withNap.withNap.addPermits 0 1, .idle⟩
        (h₃.steady (Machine.same_addPermits _ 0 1).steady))
      (.inr (.change (Machine.same_addPermits _ 0 1).steady)) h₃)
    (.inr (.start _ _ _ _)) h₂) (.inr (.start _ _ _ _)) h₁) (.inr (.start _ _ _ _))
    Machine.sound_single

/-- The permit that is added. -/
def oneAfterThree (m : Nat) : Nat :=
  if m = 3 then 1 else 0

theorem adds_nappingTrace : nappingTrace.Adds 0 oneAfterThree
  | 0 => .inr (.inl (.start _ _ _ _))
  | 1 => .inr (.inl (.start _ _ _ _))
  | 2 => .inr (.inl (.start _ _ _ _))
  | 3 => .inr (.inl (.addPermits _ 1))
  | m + 4 => by
    have halone := Trace.adds_alone ⟨World.single.withNap.withNap.withNap.addPermits 0 1, .idle⟩
      (nappingTrace.sound_at 4) 0 m
    rw [oneAfterThree, if_neg (by omega)]
    exact halone

/-- A map whose bound is zero. -/
def Map.zeroBound : Map :=
  ⟨Leaf.sleep (.ofMillis 10), some 0, none, none⟩

def zeroBoundTrace : Trace :=
  .fresh [fun token => Map.zeroBound.runnable.next ⟨token, .default, 0⟩
    (.many ⟨[.empty, .empty], []⟩)]

/-- Two of the three runs execute with the two permits. When the first has ended its permit has been
granted to the third. The map executes one element at a time. -/
theorem permits_bound_executions_of_naps :
    let h := nappingTrace.history
    let runs : List LimitedRun := [.napping ⟨0, 1, "Sleep"⟩, .napping ⟨1, 2, "Sleep"⟩]
    (h.world 15).available 0 = 0 ∧ (h.world 15).grantees 0 = [0, 1] ∧
    (h.world 15).available 0 + ((h.world 15).grantees 0).length = 1 + 1 ∧
    (∀ run ∈ runs, nappingTrace.Executing run 15) ∧ runs.length ≤ 1 + 1 ∧
    (h.world 20).grantees 0 = [2, 1] ∧ (h.ended? 20 0).isSome ∧ 0 ∉ (h.world 20).grantees 0 ∧
    0 ∈ Map.zeroBound.executingAt ⟨1, .default, 0⟩ [.empty, .empty] zeroBoundTrace 0 2 15 ∧
    [0].length ≤ max 0 1 := by
  intro h runs
  obtain ⟨hlimits, hmaps⟩ := permits_bound_executions
  have hall := hlimits nappingTrace 0 1 oneAfterThree rfl ⟨fun _ => rfl, nofun⟩ adds_nappingTrace
  have hexecuting : ∀ run ∈ runs, nappingTrace.Executing run 15 := by
    refine List.forall_mem_cons.mpr ⟨⟨⟨7, by decide, ?_⟩, ?_⟩, List.forall_mem_singleton.mpr
      ⟨⟨11, by decide, ?_⟩, ?_⟩⟩
    all_goals with_unfolding_all rfl
  have hlaunched : ∀ run ∈ runs, run.limit = 0 ∧ (∃ k, nappingTrace.Launches k run) ∧
      nappingTrace.Executing run 15 := by
    intro run hrun
    refine ⟨?_, ?_, hexecuting run hrun⟩
    · rcases List.mem_cons.mp hrun with rfl | hrun
      · rfl
      · rw [List.mem_singleton.mp hrun]
        rfl
    · rcases List.mem_cons.mp hrun with rfl | hrun
      · exact ⟨0, by with_unfolding_all rfl⟩
      · rw [List.mem_singleton.mp hrun]
        exact ⟨1, by with_unfolding_all rfl⟩
  obtain ⟨hsum, -, hruns⟩ := hall 15
  have hended : (h.ended? 20 0).isSome := by with_unfolding_all rfl
  have running : (zeroBoundTrace.machine 2).control = .running 0 ((Map.zeroBound.runnable.next
      ⟨1, .default, 0⟩ (.many ⟨[.empty, .empty], []⟩)).andThen .done) := by
    rw [Task.andThen_done]
    with_unfolding_all rfl
  have hexecutes : 0 ∈ Map.zeroBound.executingAt ⟨1, .default, 0⟩ [.empty, .empty] zeroBoundTrace
      0 2 15 := by
    refine ⟨⟨⟨1, .default, 0⟩, Leaf.sleep (.ofMillis 10), .one .empty, 0, ⟨1, 2, "Sleep"⟩⟩,
      ⟨⟨.empty, ⟨1, 2, "Sleep"⟩, rfl, rfl⟩, _, _, _, _, by with_unfolding_all rfl,
        by with_unfolding_all rfl⟩, ⟨9, by decide, ?_⟩, ?_⟩
    · with_unfolding_all rfl
    · with_unfolding_all rfl
  have hmap := hmaps zeroBoundTrace .zeroBound ⟨1, .default, 0⟩ [.empty, .empty] [] .done 0 2 0 rfl
    running (Machine.untouched_fresh _ _) (Trace.adds_alone _ _ _) 15 [0] (List.nodup_singleton 0)
    (List.forall_mem_singleton.mpr hexecutes)
  exact ⟨by with_unfolding_all rfl, by with_unfolding_all rfl, hsum, hexecuting,
    hruns runs (by decide) hlaunched, by with_unfolding_all rfl, hended, (hall 20).2.1 0 hended,
    hexecutes, hmap⟩

end Orchestra
