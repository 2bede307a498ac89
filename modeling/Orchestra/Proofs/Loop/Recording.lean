import Orchestra.Proofs.FanOut.Stopping
import Orchestra.Proofs.Info
import Orchestra.Proofs.Permits.Elements
import Orchestra.Proofs.Permits.Served

/-!
# What a loop over branches records

Under best effort branches push a marker for each child that has failed onto the list of failures of the
merged state. In a loop that state is copied to every child of the next iteration, and the default merge
puts the lists of all outputs one after the other. So the list has one copy for each output before new
markers are pushed, and it records each failure once only as long as there is one output at a time.
-/

namespace Orchestra

/-- Whatever a runnable makes of a state has the same entry under a key. -/
def Runnable.Keeps (key : String) (r : Runnable) : Prop :=
  ∀ (ctx : Context) (s : State) (h : History) (task : TaskId) (m m' : Nat) (es : List Exchange)
    (d : Data), h.Runs task m (r.next ctx (.one s)) es m' (.ok d) → Keyed.Ordered s.info.entries →
      ∀ t ∈ d.states, Keyed.Ordered t.info.entries ∧ t.info.get? key = s.info.get? key

namespace Branches

variable {b : Branches} {ctx : Context} {s s' : State}

/-- The markers of the failures among the results of the children. -/
def markersOf (b : Branches) (r : Results) : List Json :=
  (r.markers b.children.length (Runnable.nameAt b.children)).map FailureMarker.toJson

/-- What is recorded by iterations with these results: each of them copies what is there for each state
that its children put out, and adds its own markers. -/
def recorded (b : Branches) : List Results → List Json → List Json
  | [], items => items
  | r :: rest, items =>
    recorded b rest
      ((List.replicate (r.states b.children.length).length items).flatten ++ b.markersOf r)

section Trace

open Trace

variable {tr : Trace} {task : TaskId} {m k first final i : Nat} {K : Outcome → Task}

/-- If no child touches an entry, no output of the branches has another one than the input. -/
theorem keeps_of_ended {key : String} (hne : b.children ≠ [])
    (keeps : ∀ r ∈ b.children, r.Keeps key) (ordered : Keyed.Ordered s.info.entries)
    (htime : ∀ instant, ∃ k, instant ≤ tr.history.clock k)
    (running : (tr.machine m).control = .running task ((b.next ctx (.one s)).andThen K)) {t : State}
    (ht : t ∈ (tr.history.endings k m).results.states b.children.length) :
    Keyed.Ordered t.info.entries ∧ t.info.get? key = s.info.get? key := by
  obtain ⟨i, hi, d, hd, ht⟩ := Results.mem_states.mp ht
  obtain ⟨⟨place, o⟩, hended', ho⟩ := Option.map_eq_some_iff.mp hd
  obtain rfl : o = .ok d := ho
  rw [next_eq hne rfl, FanOut.start, FanOut.startAll_andThen] at running
  have hlength : (b.children.zip (List.replicate b.children.length (Data.one s))).length =
      b.children.length := by
    rw [List.length_zip, List.length_replicate, Nat.min_self]
  have hi' : i < (b.children.zip (List.replicate b.children.length (Data.one s))).length := by
    rwa [hlength]
  obtain ⟨c, starts⟩ :=
    starts_of_startAll (fun _ _ h => (step_of_time htime h).2) running hi'
  have hspawn := spawn_of_startAll running hi' starts
  simp only [List.getElem_zip, List.getElem_replicate] at hspawn
  have hchild : tr.history.ended? k c.id = some (place, .ok d) := by
    rw [starts.size.1]
    exact hended'
  obtain ⟨j, -, -, control⟩ := begins_of_ended hspawn (Option.isSome_iff_exists.mpr ⟨_, hchild⟩)
  -- the child has executed its runnable, and recorded the outcome
  obtain ⟨es, m', run⟩ := (Trace.runs control hchild).resolve_right (by simp)
  obtain ⟨es₀, m₁, o₁, es₁, -, first, last⟩ := History.Runs.of_andThen run
  obtain ⟨es₂, -, -, -, last⟩ := History.runs_ask_now rfl last
  obtain ⟨-, -, rfl⟩ := History.runs_done_iff.mp last
  exact keeps _ (List.getElem_mem hi) _ s _ _ _ _ _ d first ordered t ht

/-- At a moment a task begins with the branches on a state. -/
def Begins (b : Branches) (ctx : Context) (tr : Trace) (task : TaskId) (m : Nat) (s : State) : Prop :=
  ∃ K, (tr.machine m).control = .running task ((b.next ctx (.one s)).andThen K)

/-- Whenever a task begins with the branches, their children end or the context is stopped; and if it is
stopped by then, the grace period is over at some instant. -/
def Close (b : Branches) (ctx : Context) (tr : Trace) (task : TaskId) (first : Nat) : Prop :=
  ∀ m s, first ≤ m → b.Begins ctx tr task m s → ∃ k, m ≤ k ∧
    ((∀ i < b.children.length, (tr.history.endings k m i).isSome) ∨
      (tr.history.world k).isStopped ctx.token = true) ∧
    ((tr.history.world k).isStopped ctx.token = true →
      tr.history.clock k + (b.rules ctx.config).grace.nanos < Instant.limit)

/-- So they come to an outcome. -/
theorem Close.completes (close : b.Close ctx tr task first) (hne : b.children ≠ [])
    (hpolicy : (b.rules ctx.config).policy = .bestEffort)
    (htime : ∀ instant, ∃ k, instant ≤ tr.history.clock k)
    (heeds : tr.Heeds ctx.token task first) (hm : first ≤ m)
    (running : (tr.machine m).control = .running task ((b.next ctx (.one s)).andThen K)) :
    ∃ es m' o, tr.history.Runs task m (b.next ctx (.one s)) es m' o ∧
      (tr.machine m').control = .running task (K o) := by
  obtain ⟨k, hmk, closed, hgrace⟩ := close m s hm ⟨K, running⟩
  have closes : tr.history.Closes (· = ctx.token) ctx.token (b.rules ctx.config).policy.Refuses
      (tr.history.startedAt m b.children.length) k :=
    closed.imp History.all_startedAt.mpr fun hstopped => .inr ⟨rfl, hstopped⟩
  have graceful : tr.history.Graceful ctx.token (b.rules ctx.config).grace
      (b.rules ctx.config).policy.Refuses (tr.history.startedAt m b.children.length)
      (tr.history.clock k) := by
    by_cases hlater : (tr.history.world k).isStopped ctx.token = true
    · exact .of_lt (hgrace hlater)
    · refine .of_awake (fun j hleft => ?_) ?_
      · -- nothing has been stopped by the time at which all have ended
        obtain ⟨i, hi, hnone⟩ := hleft
        have hlt := History.lt_of_ended? hnone (closed.resolve_right hlater i hi)
        exact Bool.eq_false_iff.mpr fun hstopped =>
          hlater ((tr.history.later_of_le (Nat.le_of_lt hlt)).stopped _ hstopped)
      · rintro ⟨_, _, _, _, _, _, hrefuses⟩
        exact absurd (hpolicy.symm.trans hrefuses.1) nofun
  have hheeds : ∀ token, token = ctx.token → tr.Heeds token task m :=
    fun _ heq => heq ▸ heeds.of_le hm
  exact Trace.completes htime hheeds running
    (not_stuck_next hne rfl htime closes (tr.history.clock_mono hmk) (Nat.le_refl _) graceful)

/-- Iterations of a loop over branches that have come to a state, with what the children had come to in
each of them when the branches looked last. -/
inductive Iterations (b : Branches) (ctx : Context) (tr : Trace) (task : TaskId) :
    Nat → State → List Results → Nat → State → Prop
  | nil {first last : Nat} (le : first ≤ last) (s : State) : Iterations b ctx tr task first s [] last s
  | cons {first m e last : Nat} {s merged s' : State} {rs : List Results} (le : first ≤ m)
    (looks : m ≤ e) (begins : b.Begins ctx tr task m s)
    (merges : mergeSamples ((tr.history.endings e m).results.states b.children.length) = .ok merged)
    (rest : Iterations b ctx tr task e (merged.recordFailures ((tr.history.endings e m).results.markers
      b.children.length (Runnable.nameAt b.children))) rs last s') :
    Iterations b ctx tr task first s ((tr.history.endings e m).results :: rs) last s'

/-- An iteration after which there is no state. -/
structure Loses (b : Branches) (ctx : Context) (tr : Trace) (task : TaskId) (first : Nat) (s : State)
    (m e : Nat) : Prop where
  le : first ≤ m
  looks : m ≤ e
  begins : b.Begins ctx tr task m s
  /-- Without a stop every child has ended by the last look. -/
  all : (∀ k, (tr.history.world k).isStopped ctx.token = false) →
    ∀ i < b.children.length, (tr.history.endings e m i).isSome
  lost : (tr.history.endings e m).results.states b.children.length = []

theorem Iterations.of_le {rs : List Results} (iterations : b.Iterations ctx tr task k s rs final s')
    (hmk : m ≤ k) : b.Iterations ctx tr task m s rs final s' := by
  cases iterations with
  | nil le => exact .nil (Nat.le_trans hmk le) s
  | cons le looks begins merges rest => exact .cons (Nat.le_trans hmk le) looks begins merges rest

/-- The list of failures is what the iterations have recorded. -/
theorem Iterations.lists {rs : List Results} (hne : b.children ≠ [])
    (keeps : ∀ r ∈ b.children, r.Keeps "failures")
    (htime : ∀ instant, ∃ k, instant ≤ tr.history.clock k)
    (iterations : b.Iterations ctx tr task m s rs k s') {items : List Json}
    (lists : s.info.Lists "failures" items) :
    s'.info.Lists "failures" (b.recorded rs items) := by
  induction iterations generalizing items with
  | nil => exact lists
  | cons le looks begins merges rest ih =>
    refine ih (State.lists_recordFailures (State.lists_mergeSamples merges fun t ht => ?_) _)
    obtain ⟨K, running⟩ := begins
    obtain ⟨ordered, hsame⟩ := keeps_of_ended hne keeps lists.ordered htime running ht
    exact ⟨ordered, hsame.trans lists.entry⟩

end Trace

end Branches

/-! ### The loop -/

namespace Loop

open Branches Trace

variable {b : Branches} {l : Loop} {ctx : Context} {s s' : State} {tr : Trace} {task : TaskId}
  {first m m' : Nat} {K : Outcome → Task} {rs : List Results} {o : Outcome}

/-- At no moment does the clock show that the budget of the loop is used up. -/
def InTime (l : Loop) (tr : Trace) : Prop :=
  ∀ j k, l.criteria.usedUp (tr.history.world j).stopwatch.next.reading
    (tr.history.world k).stopwatch.next.reading = false

/-- How a loop over branches ends that has a number of rounds left: after some iterations it returns the
state to which they have come, unless there is an iteration after which there is no state. -/
structure Records (l : Loop) (b : Branches) (ctx : Context) (tr : Trace) (task : TaskId) (first : Nat)
    (rounds : Nat) (s : State) (rs : List Results) (s' : State) (o : Outcome) : Prop where
  length_le : rs.length ≤ rounds
  outcome : ∃ last, b.Iterations ctx tr task first s rs last s' ∧ (o = .ok (.one s') ∨
    (∃ error, o = .error error) ∧ ∃ m e, b.Loses ctx tr task last s' m e)
  /-- There are as many iterations as the loop has rounds, if nothing ends it before. -/
  all : (∀ k, (tr.history.world k).isStopped ctx.token = false) → l.InTime tr →
    l.criteria.terminate = none → o = .ok (.one s') → rs.length = rounds

/-- A loop that ends at once returns what it holds, with no rounds left if nothing else has ended it. -/
theorem Records.nil {rounds : Nat} (hdone : (∀ k, (tr.history.world k).isStopped ctx.token = false) →
      l.InTime tr → l.criteria.terminate = none → rounds = 0) :
    l.Records b ctx tr task first rounds s [] s (.ok (.one s)) where
  length_le := Nat.zero_le rounds
  outcome := ⟨first, .nil (Nat.le_refl first) s, .inl rfl⟩
  all unstopped inTime hnone _ := (hdone unstopped inTime hnone).symm

/-- One more iteration before. -/
theorem Records.cons {rounds e : Nat} {merged : State} (hm : first ≤ m) (hme : m ≤ e) (hem : e ≤ m')
    (begins : b.Begins ctx tr task m s)
    (merges : mergeSamples ((tr.history.endings e m).results.states b.children.length) = .ok merged)
    (records : l.Records b ctx tr task m' rounds (merged.recordFailures
      ((tr.history.endings e m).results.markers b.children.length (Runnable.nameAt b.children)))
      rs s' o) :
    l.Records b ctx tr task first (rounds + 1) s ((tr.history.endings e m).results :: rs) s' o where
  length_le := Nat.succ_le_succ records.length_le
  outcome := by
    obtain ⟨last, iterations, ho⟩ := records.outcome
    exact ⟨last, .cons hm hme begins merges (iterations.of_le hem), ho⟩
  all unstopped inTime hnone ho := congrArg (· + 1) (records.all unstopped inTime hnone ho)

section Running

variable (htime : ∀ instant, ∃ k, instant ≤ tr.history.clock k)
include htime

variable (close : b.Close ctx tr task first) (heeds : tr.Heeds ctx.token task first)
include close heeds

end Running

end Loop

/-- The positions in the markers of the output of a trial, and the number of reports. -/
def Trial.failures (t : Trial) :
    Except RunError (Option (Except RunError (List (Option Int))) × Nat) :=
  t.carryOut.map fun (ending, session) =>
    (ending.map fun e => (e.outcome "").map fun d => d.states.flatMap fun s =>
        (Info.asItems (s.info.get? "failures")).map fun marker =>
          (marker.field? "index").bind Json.int?,
      session.world.log.length)

end Orchestra
