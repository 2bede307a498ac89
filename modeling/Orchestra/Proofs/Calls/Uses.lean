import Orchestra.Proofs.Composites
import Orchestra.Proofs.FanOut.Race

/-!
# What composites use

A composite executes some of its parts in the task in which it runs itself, starts runs of others, and asks
for nothing else that is recorded. What it does between two such calls is its own affair, so a fact about
calls that sequencing keeps holds of a pipeline as soon as it holds of the calls.
-/

namespace Orchestra

/-- Whether a request records a call. -/
def Request.records : Request → Bool
  | .record .. => true
  | _ => false

/-- Whether a request neither records a call nor offers a state. -/
def Request.isPlain : Request → Bool
  | .record .. | .offer .. => false
  | _ => true

theorem Request.records_of_isPlain {r : Request} (h : r.isPlain = true) : r.records = false := by
  cases r with
  | record | offer => contradiction
  | _ => rfl

/-- A program that executes some parts and starts runs of them, and records and offers nothing else. -/
inductive Task.Uses (part : Runnable → Prop) : Task → Prop
  | done (o : Outcome) : Uses part (.done o)
  | panic (p : Payload) : Uses part (.panic p)
  | endless : Uses part .endless
  | ask {r : Request} {next : r.Answer → Task} (plain : r.isPlain = true)
    (rest : ∀ a, Uses part (next a)) : Uses part (.ask r next)
  | execute (ctx : Context) {r : Runnable} (input : Data) {rest : Outcome → Task} (hr : part r)
    (hrest : ∀ o, Uses part (rest o)) : Uses part ((ctx.execute r input).andThen rest)
  | start (ctx : Context) {r : Runnable} (input : Data) (limit : Option LimitId)
    {next : Child → Task} (hr : part r) (hnext : ∀ c, Uses part (next c)) :
    Uses part (ctx.start r input limit next)

/-- A runnable whose programs use some parts. -/
def Runnable.Uses (r : Runnable) (part : Runnable → Prop) : Prop :=
  ∀ (ctx : Context) input, (r.next ctx input).Uses part

variable {part : Runnable → Prop} {ctx : Context}

namespace Task

theorem uses_reporting {entry : Option LogEntry} {next : Task} (h : next.Uses part) :
    (reporting entry next).Uses part := by
  cases entry with
  | none => exact h
  | some e => exact .ask rfl fun _ => h

end Task

/-! ### Fan-outs -/

namespace FanOut

variable {f : FanOut}

theorem uses_startAll {limit : Option LimitId} {jobs : List (Runnable × Data)}
    {next : List Child → Task} (hjobs : ∀ job ∈ jobs, part job.1)
    (hnext : ∀ children, (next children).Uses part) :
    (startAll ctx limit jobs next).Uses part := by
  induction jobs generalizing next with
  | nil => exact hnext []
  | cons job rest ih =>
    obtain ⟨hjob, hrest⟩ := List.forall_mem_cons.mp hjobs
    exact .start ctx job.2 limit hjob fun c => ih hrest fun children => hnext (c :: children)

theorem uses_takeAll {patience : Patience} {count : Nat} {taken : List Completion}
    {next : FanOut → List Completion → Task} (hnext : ∀ f taken, (next f taken).Uses part) :
    (History.takeAll patience count f taken next).Uses part := by
  induction count generalizing f taken with
  | zero => exact hnext f taken
  | succ count ih =>
    refine .ask rfl fun a => ?_
    cases a with
    | none => exact hnext f taken
    | some c => exact ih

theorem uses_collectWithin {grace : Duration} {next : FanOut → List Completion → Task}
    (hnext : ∀ f taken, (next f taken).Uses part) : (f.collectWithin grace next).Uses part := by
  refine .ask rfl fun now => ?_
  split
  · rw [History.collectUntil_eq]
    exact uses_takeAll hnext
  · exact .panic _

theorem uses_abandon {owner : String} {next : Task} (h : next.Uses part) :
    (f.abandon owner next).Uses part := by
  rw [History.abandon_eq]
  exact Task.uses_reporting h

theorem uses_raise {owner : String} {grace : Duration} {e : RunError} :
    (f.raise owner grace e).Uses part :=
  .ask rfl fun _ => uses_collectWithin fun _ _ => uses_abandon (.done _)

theorem uses_acceptLate {rules : Rules} {completions : List Completion} {tally : Tally}
    {next : Tally → Task} (hnext : ∀ t, (next t).Uses part) :
    (acceptLate rules f completions tally next).Uses part := by
  induction completions generalizing tally with
  | nil => exact hnext tally
  | cons c rest ih => exact Task.uses_reporting ih

theorem uses_conclude {tally : Tally} {next : Gathered → Task} (hnext : ∀ g, (next g).Uses part) :
    (conclude tally next).Uses part := by
  unfold conclude
  split
  · exact hnext _
  · exact .done _

theorem uses_gather {rules : Rules} {next : Gathered → Task} (hnext : ∀ g, (next g).Uses part) :
    (f.gather ctx rules next).Uses part := by
  have hgather (count : Nat) (f : FanOut) (tally : Tally) :
      (gatherNext ctx rules next count f tally).Uses part := by
    induction count generalizing f tally with
    | zero => exact uses_conclude hnext
    | succ count ih =>
      refine .ask rfl fun a => ?_
      cases a with
      | none =>
        refine .ask rfl fun _ => uses_collectWithin fun _ _ => uses_acceptLate fun _ => ?_
        exact uses_abandon (uses_conclude hnext)
      | some c =>
        dsimp only
        split
        · exact uses_raise
        · exact Task.uses_reporting (ih _ _)
  exact hgather _ f _

end FanOut

namespace Race

variable {f : FanOut} {rules : FanOut.Rules} {l : RaceLedger}

theorem uses_observeAll {onError : RunError → Task} {completions : List Completion}
    {next : RaceLedger → Task} (herror : ∀ e, (onError e).Uses part)
    (hnext : ∀ l, (next l).Uses part) :
    (observeAll rules f onError completions l next).Uses part := by
  induction completions generalizing l with
  | nil => exact hnext l
  | cons c rest ih =>
    unfold observeAll
    split
    · exact herror _
    · exact Task.uses_reporting ih

theorem uses_decide {next : FanOut → RaceLedger → Task} {count : Nat}
    (hnext : ∀ f l, (next f l).Uses part) : (decide ctx rules next count f l).Uses part := by
  induction count generalizing f l with
  | zero => exact hnext f l
  | succ count ih =>
    refine .ask rfl fun a => ?_
    cases a with
    | none => exact hnext f l
    | some first =>
      dsimp only
      rw [History.takeFinished_eq]
      refine FanOut.uses_takeAll fun f batch => ?_
      refine uses_observeAll (fun e => FanOut.uses_raise) fun l => ?_
      split
      · exact hnext f l
      · exact ih

theorem uses_settle {next : RaceLedger → Task} (hnext : ∀ l, (next l).Uses part) :
    (settle rules next f l).Uses part := by
  unfold settle
  split
  · exact hnext l
  · refine .ask rfl fun _ => FanOut.uses_collectWithin fun f _ => ?_
    refine uses_observeAll (fun e => ?_) fun l => FanOut.uses_abandon (hnext l)
    exact FanOut.uses_abandon (.done _)

end Race

/-! ### Composites -/

theorem Script.CallsOnly.uses {s : Script} (h : s.CallsOnly part) : (s.task ctx).Uses part := by
  induction s with
  | done o => exact .done o
  | endless => exact .endless
  | look next ih => exact .ask rfl fun stopped => ih stopped (h stopped)
  | time next ih => exact .ask rfl fun reading => ih reading (h reading)
  | call r input next ih => exact .execute ctx input h.1 fun o => ih o (h.2 o)
  | note => exact h.elim

/-- What calls its parts in sequence executes them. -/
theorem Runnable.Sequences.uses {r : Runnable} (h : r.Sequences part) : r.Uses part := by
  intro ctx input
  obtain ⟨s, calls, task⟩ := h ctx input
  exact task ▸ calls.uses

theorem Task.FansOut.uses {t : Task} (h : t.FansOut ctx part) : t.Uses part := by
  induction h with
  | done o => exact .done o
  | panic p => exact .panic p
  | newLimit _ _ ih => exact .ask rfl ih
  | gather limit hjobs =>
    exact FanOut.uses_startAll hjobs fun _ => FanOut.uses_gather fun _ => .done _
  | race hjobs =>
    refine FanOut.uses_startAll hjobs fun _ => Race.uses_decide fun f l => ?_
    exact Race.uses_settle fun _ => .done _

/-- What starts its parts side by side starts runs of them. -/
theorem Runnable.FansOut.uses {r : Runnable} (h : r.FansOut part) : r.Uses part :=
  fun ctx input => (h ctx input).uses

/-- A leaf of the library asks once at most: it records nothing, and offers to its tracker only. -/
inductive Task.AsksOnce (trackers : TrackerId → Prop) : Task → Prop
  | done (o : Outcome) : AsksOnce trackers (.done o)
  | ask {r : Request} {next : r.Answer → Task} (unrecorded : r.records = false)
    (among : ∀ tracker key s, r = .offer tracker key s → trackers tracker)
    (ends : ∀ a, ∃ o, next a = .done o) : AsksOnce trackers (.ask r next)

theorem Runnable.OfLibrary.asksOnce {trackers : TrackerId → Prop} {r : Runnable}
    (h : r.OfLibrary trackers) (input : Data) : (r.next ctx input).AsksOnce trackers := by
  cases h with
  | identity | duplicate | constant | mergeStates | select => exact .done _
  | sleep | report => exact .ask rfl nofun fun _ => ⟨_, rfl⟩
  | @track key outputBest tracker among =>
    unfold Leaf.track
    dsimp only
    split
    · exact .done _
    · refine .ask rfl (fun tracker' key' s heq => ?_) fun _ => ⟨_, rfl⟩
      cases heq
      exact among

/-! ### Pipelines -/

/-- What holds of the leaves, and of whatever uses parts of which it holds, holds of a pipeline. -/
theorem Runnable.Composed.of_uses {parts : Parts} {P : Runnable → Prop}
    (leaf : ∀ r, parts.leaf r → P r)
    (composite : ∀ (r : Runnable) part, r.Uses part → (∀ x, part x → x.IsPartOf r) →
      (∀ x, part x → P x) → P r)
    {r : Runnable} (composed : r.Composed parts) : P r := by
  exact composed.of_parts leaf (fun r part h => composite r part h.uses)
    fun r part h => composite r part h.uses

end Orchestra
