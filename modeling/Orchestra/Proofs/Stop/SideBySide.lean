import Orchestra.FanOut.Branches
import Orchestra.FanOut.Map
import Orchestra.Proofs.FanOut.Race
import Orchestra.Proofs.Stop.Sequence

/-!
# Parts side by side

A fan-out combines the outputs of those children that finish, and a stop may leave any of them out.
So it comes to data of a class if what it makes of every choice of outputs belongs to this class. Its
failures are those of its children, or that all of them have failed.
-/

namespace Orchestra

variable {rely : Rely} {expected : RunError → Prop} {config : Config} {P P' Q Q' : Data → Prop}
variable {ctx : Context} {token : TokenId} {known : Known} {post : Outcome → Prop}

/-! ### Starting and taking -/

namespace FanOut

variable {f : FanOut}

/-- The outcomes of the pending children are known to satisfy a condition. -/
def Knows (known : Known) (post : Outcome → Prop) (f : FanOut) : Prop :=
  ∀ p ∈ f.pending, known p.id post

theorem meets_startAll {limit : Option LimitId} {jobs : List (Runnable × Data)}
    {next : List Child → Task} {post' : Outcome → Prop}
    (hjobs : ∀ job ∈ jobs, ∀ token, (ctx.run job.1 job.2 limit token).Meets rely token post .nothing)
    (hnext : ∀ children known', (∀ i p, known i p → known' i p) →
      (∀ c ∈ children, known' c.id post) → (next children).Meets rely token post' known') :
    (startAll ctx limit jobs next).Meets rely token post' known := by
  induction jobs generalizing known next with
  | nil => exact hnext [] known (fun _ _ => id) nofun
  | cons job rest ih =>
    obtain ⟨hjob, hrest⟩ := List.forall_mem_cons.mp hjobs
    refine ⟨post, fun token' => (hjob token').always, fun id token' => ?_⟩
    refine ih hrest fun children known' hknown hchildren => ?_
    refine hnext _ known' (fun i p hp => hknown i p (.inl hp)) ?_
    exact List.forall_mem_cons.mpr ⟨hknown id post (.inr ⟨rfl, rfl⟩), hchildren⟩

/-- The outcomes of the children that have been started satisfy what their runs meet. -/
theorem meets_start {limit : Option LimitId} {jobs : List (Runnable × Data)}
    {next : FanOut → Task} {post' : Outcome → Prop}
    (hjobs : ∀ job ∈ jobs, ∀ token, (ctx.run job.1 job.2 limit token).Meets rely token post .nothing)
    (hnext : ∀ f known', f.Knows known' post → (next f).Meets rely token post' known') :
    (start ctx limit jobs next).Meets rely token post' known := by
  refine meets_startAll hjobs fun children known' _ hchildren => hnext _ known' fun p hp => ?_
  obtain ⟨i, hi, rfl⟩ := List.mem_mapIdx.mp hp
  exact hchildren _ (List.getElem_mem hi)

/-- Taking a completion leaves what is known of the others. -/
theorem Knows.take (h : f.Knows known post) (index : Nat) : (f.take index).Knows known post :=
  fun p hp => h p (List.mem_of_mem_filter hp)

/-- A completion that is taken satisfies what is known of its child. -/
theorem Knows.completion (h : f.Knows known post) {patience : Patience} {c : Completion}
    (justified : (Request.nextChild f.pending patience).Justifies known (some c)) :
    post c.outcome := by
  obtain ⟨p, hp, -, hposts⟩ := justified
  exact hposts post (h p hp)

variable {post' : Outcome → Prop}

theorem meets_takeAll {patience : Patience} {count : Nat} {taken : List Completion}
    {next : FanOut → List Completion → Task} (hf : f.Knows known post)
    (heeds : ∀ pending, (Request.nextChild pending patience).Heeds token)
    (htaken : ∀ c ∈ taken, post c.outcome)
    (hnext : ∀ f taken, f.Knows known post → (∀ c ∈ taken, post c.outcome) →
      (next f taken).Meets rely token post' known) :
    (History.takeAll patience count f taken next).Meets rely token post' known := by
  induction count generalizing f taken with
  | zero => exact hnext f taken hf htaken
  | succ count ih =>
    refine Task.meets_ask (heeds f.pending) rfl fun a justified => ?_
    cases a with
    | none => exact hnext f taken hf htaken
    | some c =>
      refine ih (hf.take c.index) (List.forall_mem_append.mpr ⟨htaken, ?_⟩)
      exact List.forall_mem_singleton.mpr (hf.completion justified)

/-- Taking within a grace period may panic, where the period is not afforded. -/
theorem meets_collectWithin {grace : Duration} {next : FanOut → List Completion → Task}
    (hgrace : rely.Affords (fun e => post' (.error e)) grace) (hf : f.Knows known post)
    (hnext : ∀ f taken, f.Knows known post → (∀ c ∈ taken, post c.outcome) →
      (next f taken).Meets rely token post' known) :
    (f.collectWithin grace next).Meets rely token post' known := by
  refine ⟨rely.heeded token .now trivial rfl, fun now hnow => ?_⟩
  dsimp only
  split
  · rw [History.collectUntil_eq]
    exact meets_takeAll hf (fun _ => trivial) nofun hnext
  · next hnone =>
    refine fun name => (hgrace now hnow.1).resolve_left (fun hlt => ?_) name
    rw [Instant.after?_eq_some.mpr ⟨hlt, rfl⟩] at hnone
    contradiction

theorem meets_reporting {entry : Option LogEntry} {next : Task}
    (h : next.Meets rely token post known) :
    (Task.reporting entry next).Meets rely token post known := by
  cases entry with
  | none => exact h
  | some e => exact Task.meets_ask trivial rfl fun _ _ => h

theorem meets_abandon {owner : String} {next : Task} (h : next.Meets rely token post known) :
    (f.abandon owner next).Meets rely token post known := by
  rw [History.abandon_eq]
  exact meets_reporting h

/-- A fan-out that raises an error fails with it. -/
theorem meets_raise {owner : String} {grace : Duration} {e : RunError}
    (hgrace : rely.Affords (fun e => post' (.error e)) grace) (hf : f.Knows known post)
    (h : post' (.error e)) : (f.raise owner grace e).Meets rely token post' known :=
  Task.meets_ask trivial rfl fun _ _ => meets_collectWithin hgrace hf fun _ _ _ _ => meets_abandon h

end FanOut

/-- A panic that is expected is an outcome within the bounds. -/
theorem Rely.Affords.within {span : Duration} (h : rely.Affords expected span) :
    rely.Affords (fun e => Outcome.Within expected Q (.error e)) span :=
  fun now hnow => (h now hnow).imp_right fun hpanic name => .inr (hpanic name)

/-! ### Gathering -/

/-- The outputs in a tally belong to a class, and its failures are expected. -/
structure Tally.Within (expected : RunError → Prop) (Q : Data → Prop) (t : Tally) : Prop where
  outputs : ∀ d, some d ∈ t.outputs → Q d
  failures : ∀ x ∈ t.failures, expected x.2

namespace Tally

variable {t : Tally}

theorem within_empty {children : Nat} : (empty children).Within expected Q where
  outputs d hd := by simp [empty] at hd
  failures := nofun

/-- A completion leaves a tally within its bounds, or is refused with an expected error. -/
theorem Within.accept (h : t.Within expected Q) (policy : FailurePolicy) (name : Nat → String)
    {c : Completion} (hc : Outcome.Within expected Q c.outcome) :
    match t.accept policy name c with
    | .ok t' => t'.Within expected Q
    | .error e => expected e := by
  unfold Tally.accept
  cases houtcome : c.outcome with
  | ok d =>
    rw [houtcome] at hc
    refine ⟨fun d' hd' => ?_, h.failures⟩
    rcases List.mem_or_eq_of_mem_set hd' with hmem | heq
    · exact h.outputs d' hmem
    · exact Option.some.inj heq ▸ hc
  | error e =>
    rw [houtcome] at hc
    dsimp only
    by_cases hcancelled : e.isCancelled = true
    · rw [if_pos hcancelled]
      exact h
    · have he : expected e := hc.resolve_left fun heq => hcancelled (heq ▸ rfl)
      rw [if_neg hcancelled]
      cases policy with
      | failFast => exact he
      | bestEffort =>
        exact ⟨h.outputs, List.forall_mem_append.mpr
          ⟨h.failures, List.forall_mem_singleton.mpr he⟩⟩

end Tally

/-- A failure that is expected of the children may be reported of all of them. -/
def Escalates (expected : RunError → Prop) : Prop :=
  ∀ count first, expected first → expected (.allFailed count first)

namespace FanOut

variable {f : FanOut} {rules : Rules} {t : Tally} {post' : Outcome → Prop}

/-- Completions that come late are recorded. -/
theorem meets_acceptLate {completions : List Completion} {next : Tally → Task}
    (ht : t.Within expected Q) (hall : ∀ c ∈ completions, Outcome.Within expected Q c.outcome)
    (hnext : ∀ t : Tally, t.Within expected Q → (next t).Meets rely token post' known) :
    (acceptLate rules f completions t next).Meets rely token post' known := by
  induction completions generalizing t with
  | nil => exact hnext t ht
  | cons c rest ih =>
    obtain ⟨hc, hrest⟩ := List.forall_mem_cons.mp hall
    refine meets_reporting (ih ?_ hrest)
    have haccepted := ht.accept .bestEffort f.name hc
    split
    · next t' ht' =>
      rw [ht'] at haccepted
      exact haccepted
    · exact ht

/-- With some output there is something to go on with, and every output belongs to its class. -/
theorem meets_conclude {next : Gathered → Task} (hescalates : Escalates expected)
    (ht : t.Within expected Q)
    (hnext : ∀ g : Gathered, (∃ d, some d ∈ g.outputs) → (∀ d, some d ∈ g.outputs → Q d) →
      (next g).Meets rely token (Outcome.Within expected Q') known) :
    (conclude t next).Meets rely token (Outcome.Within expected Q') known := by
  unfold conclude Tally.finish
  by_cases hsome : t.outputs.any Option.isSome = true
  · rw [if_pos hsome]
    obtain ⟨x, hx, hxsome⟩ := List.any_eq_true.mp hsome
    obtain ⟨d, rfl⟩ := Option.isSome_iff_exists.mp hxsome
    exact hnext _ ⟨d, hx⟩ ht.outputs
  · rw [if_neg hsome]
    cases hfailures : t.failures with
    | nil => exact .inl rfl
    | cons x rest =>
      refine .inr (hescalates _ _ (ht.failures x ?_))
      rw [hfailures]
      exact List.mem_cons_self

theorem meets_gatherStopped {next : Gathered → Task} (hescalates : Escalates expected)
    (hgrace : rely.Affords expected rules.grace)
    (hf : f.Knows known (Outcome.Within expected Q)) (ht : t.Within expected Q)
    (hnext : ∀ g : Gathered, (∃ d, some d ∈ g.outputs) → (∀ d, some d ∈ g.outputs → Q d) →
      (next g).Meets rely token (Outcome.Within expected Q') known) :
    (f.gatherStopped rules t next).Meets rely token (Outcome.Within expected Q') known := by
  refine Task.meets_ask trivial rfl fun _ _ => ?_
  refine meets_collectWithin hgrace.within hf fun f' taken _ htaken => ?_
  refine meets_acceptLate ht htaken fun t' ht' => ?_
  exact meets_abandon (meets_conclude hescalates ht' hnext)

/-- Gathering goes on with at least one output, unless it fails. -/
theorem meets_gather {next : Gathered → Task} (hescalates : Escalates expected)
    (hgrace : rely.Affords expected rules.grace)
    (hf : f.Knows known (Outcome.Within expected Q))
    (hnext : ∀ g : Gathered, (∃ d, some d ∈ g.outputs) → (∀ d, some d ∈ g.outputs → Q d) →
      (next g).Meets rely ctx.token (Outcome.Within expected Q') known) :
    (f.gather ctx rules next).Meets rely ctx.token (Outcome.Within expected Q') known := by
  have hgather (count : Nat) (f : FanOut) (t : Tally)
      (hf : f.Knows known (Outcome.Within expected Q)) (ht : t.Within expected Q) :
      (gatherNext ctx rules next count f t).Meets rely ctx.token (Outcome.Within expected Q')
        known := by
    induction count generalizing f t with
    | zero => exact meets_conclude hescalates ht hnext
    | succ count ih =>
      refine Task.meets_ask rfl rfl fun a justified => ?_
      cases a with
      | none => exact meets_gatherStopped hescalates hgrace hf ht hnext
      | some c =>
        have haccepted := ht.accept rules.policy (f.take c.index).name (hf.completion justified)
        dsimp only
        split
        · next e he =>
          rw [he] at haccepted
          exact meets_raise hgrace.within (hf.take c.index) (.inr haccepted)
        · next t' ht' =>
          rw [ht'] at haccepted
          exact meets_reporting (ih _ t' (hf.take c.index) haccepted)
  exact hgather _ f _ hf Tally.within_empty

end FanOut

/-! ### Inputs and outputs -/

/-- Each child of a fan-out gets an input of its class, or the fan-out refuses the input with an
expected error. -/
def FanOut.Feeds (expected : RunError → Prop) (owner : String) (children : Nat) (perChild : Bool)
    (P : Data → Prop) (C : Nat → Data → Prop) : Prop :=
  ∀ d, P d → match distribute owner children perChild d with
    | .ok inputs => ∀ i d', inputs[i]? = some d' → C i d'
    | .error e => expected e

/-- Whatever the outputs of a class are that a fan-in gets, it makes data of another class of them, or
fails with an expected error. -/
def FanIn.Accepts (expected : RunError → Prop) (Q Q' : Data → Prop) (fanIn : FanIn) : Prop :=
  ∀ outputs ≠ [], (∀ d ∈ outputs, Q d) → ∀ markers,
    Outcome.Within expected Q' (fanIn.apply (outputs.flatMap Data.states) markers)

/-- A gathering that has an output combines a choice of outputs. -/
theorem FanIn.Accepts.gathered {fanIn : FanIn} (h : fanIn.Accepts expected Q Q') {g : Gathered}
    (hsome : ∃ d, some d ∈ g.outputs) (hall : ∀ d, some d ∈ g.outputs → Q d) :
    Outcome.Within expected Q' (fanIn.apply g.states g.markers) := by
  rw [g.states_eq]
  refine h _ ?_ (fun d hd => hall d (Gathered.mem_outputs.mp hd)) _
  obtain ⟨d, hd⟩ := hsome
  exact List.ne_nil_of_mem (Gathered.mem_outputs.mpr hd)

/-- The runs of the children of a fan-out meet what the children do. -/
theorem FanOut.meets_jobs {children : List Runnable} {inputs : List Data} {C : Nat → Data → Prop}
    (hctx : ctx.config = config) (hinputs : ∀ i d, inputs[i]? = some d → C i d)
    (hchildren : ∀ i (r : Runnable), children[i]? = some r → r.Meets rely expected config (C i) Q) :
    ∀ job ∈ children.zip inputs, ∀ token,
      (ctx.run job.1 job.2 none token).Meets rely token (Outcome.Within expected Q) .nothing := by
  intro job hjob token
  obtain ⟨i, hi⟩ := List.mem_iff_getElem?.mp hjob
  obtain ⟨hr, hd⟩ := List.getElem?_zip_eq_some.mp hi
  exact Context.meets_run (hchildren i job.1 hr { ctx with token } hctx job.2 (hinputs i _ hd))
    (.inl rfl)

/-- Branches whose children yield data of one class yield what the fan-in makes of any choice of
it. -/
theorem Branches.meets {b : Branches} {C : Nat → Data → Prop} (hescalates : Escalates expected)
    (hgrace : rely.Affords expected (b.rules config).grace)
    (hempty : b.children = [] → expected (.invalidInput b.name "no branches to run"))
    (hfeeds : FanOut.Feeds expected b.name b.children.length (!b.singleInput) P C)
    (hchildren : ∀ i (r : Runnable), b.children[i]? = some r → r.Meets rely expected config (C i) Q)
    (hfanIn : b.fanIn.Accepts expected Q Q') : b.runnable.Meets rely expected config P Q' := by
  intro ctx hctx input hinput
  have hfed := hfeeds input hinput
  unfold runnable next
  dsimp only
  split
  · next hnil => exact .inr (hempty (List.isEmpty_iff.mp hnil))
  split
  · next e he =>
    rw [he] at hfed
    exact .inr hfed
  · next inputs hinputs =>
    rw [hinputs] at hfed
    refine FanOut.meets_start (FanOut.meets_jobs hctx hfed hchildren) fun f known' hf => ?_
    exact FanOut.meets_gather hescalates (hctx ▸ hgrace) hf fun g hsome hall =>
      hfanIn.gathered hsome hall

namespace Map

variable {m : Map} {S T : State → Prop} {worker : String}

/-- Outputs that are single states are put together, and any other is refused. -/
theorem within_singleStates {outputs : List Data}
    (h : ∀ d ∈ outputs, Data.IsState expected worker T d) :
    match singleStates worker outputs with
    | .ok states => (∀ s ∈ states, T s) ∧ states.length = outputs.length
    | .error e => expected e := by
  induction outputs with
  | nil => exact ⟨nofun, rfl⟩
  | cons d rest ih =>
    obtain ⟨hd, hrest⟩ := List.forall_mem_cons.mp h
    have hih := ih hrest
    unfold Data.IsState at hd
    unfold singleStates
    split at hd
    · next s hs =>
      rw [hs]
      dsimp only
      cases hsingle : singleStates worker rest with
      | error e =>
        rw [hsingle] at hih
        exact hih
      | ok states =>
        rw [hsingle] at hih
        exact ⟨List.forall_mem_cons.mpr ⟨hd, hih.1⟩, congrArg Nat.succ hih.2⟩
    · next e he =>
      rw [he]
      exact hd

theorem within_result {g : Gathered} (hsome : ∃ d, some d ∈ g.outputs)
    (hall : ∀ d, some d ∈ g.outputs → Data.IsState expected worker T d)
    (hstates : ∀ states ≠ [], (∀ s ∈ states, T s) → ∀ markers, Q (.many ⟨states, markers⟩)) :
    Outcome.Within expected Q (result worker g) := by
  have hsingle := within_singleStates fun d hd => hall d (Gathered.mem_outputs.mp hd)
  unfold result
  cases hresult : singleStates worker (g.outputs.filterMap id) with
  | error e =>
    rw [hresult] at hsingle
    exact .inr hsingle
  | ok states =>
    rw [hresult] at hsingle
    refine hstates states (List.ne_nil_of_length_pos ?_) hsingle.1 _
    obtain ⟨d, hd⟩ := hsome
    rw [hsingle.2]
    exact List.length_pos_of_mem (Gathered.mem_outputs.mpr hd)

/-- A map over a worker that yields single states of a class yields any nonempty list of them. Without
a limit that can hold the bound it panics. -/
theorem meets {L : List State → Prop} (hescalates : Escalates expected)
    (hgrace : rely.Affords expected (m.rules config).grace)
    (hbound : ∀ permits, m.bound config = some permits → permits ≤ maxPermits ∨
      ∀ name, expected (.panicked name tooManyPermits))
    (hitems : ∀ items, L items → ∀ s ∈ items, S s) (hempty : L [] → Q (.ofList []))
    (hworker : m.worker.Meets rely expected config (fun d => ∃ s, d = .one s ∧ S s)
      (Data.IsState expected m.worker.name T))
    (hstates : ∀ states ≠ [], (∀ s ∈ states, T s) → ∀ markers, Q (.many ⟨states, markers⟩)) :
    m.runnable.Meets rely expected config (Data.IsList expected "Map" L) Q := by
  intro ctx hctx input hinput
  unfold Data.IsList at hinput
  unfold runnable
  dsimp only
  split
  · next states hlist =>
    rw [hlist] at hinput
    unfold mapStates
    split
    · next hnil => exact hempty (List.isEmpty_iff.mp hnil ▸ hinput)
    have hstart (limit : Option LimitId) : (FanOut.start ctx limit
        (states.items.map fun s => (m.worker, .one s)) fun f =>
          f.gather ctx (m.rules ctx.config) fun gathered =>
            .done (result m.worker.name gathered)).Meets rely ctx.token (Outcome.Within expected Q)
        .nothing := by
      have hjobs : ∀ job ∈ states.items.map fun s => (m.worker, Data.one s), ∀ token,
          (ctx.run job.1 job.2 limit token).Meets rely token
            (Outcome.Within expected (Data.IsState expected m.worker.name T)) .nothing := by
        intro job hjob token
        obtain ⟨s, hs, rfl⟩ := List.mem_map.mp hjob
        exact Context.meets_run
          (hworker { ctx with token } hctx _ ⟨s, rfl, hitems _ hinput s hs⟩) (.inl rfl)
      refine FanOut.meets_start hjobs fun f known' hf => ?_
      refine FanOut.meets_gather hescalates (hctx ▸ hgrace) hf fun g hsome hall => ?_
      exact within_result hsome hall hstates
    unfold withLimit
    split
    · exact hstart none
    · next permits hpermits =>
      rw [hctx] at hpermits
      split
      · exact Task.meets_ask trivial rfl fun l _ => hstart (some l)
      · next hlarge => exact fun name => .inr ((hbound permits hpermits).resolve_left hlarge name)
  · next e he =>
    rw [he] at hinput
    exact .inr hinput

end Map

/-! ### Races -/

/-- The outputs in a ledger belong to a class, and its first error is expected. -/
structure RaceLedger.Within (expected : RunError → Prop) (Q : Data → Prop) (l : RaceLedger) :
    Prop where
  decisive : ∀ d, l.decisive = some d → Q d
  late : ∀ x ∈ l.late, Q x.2
  firstError : ∀ e, l.firstError = some e → expected e

namespace RaceLedger

variable {l : RaceLedger}

theorem within_empty : empty.Within expected Q where
  decisive := nofun
  late := nofun
  firstError := nofun

/-- A completion leaves a ledger within its bounds, or is refused with an expected error. -/
theorem Within.observe (h : l.Within expected Q) (policy : FailurePolicy) (name : Nat → String)
    {c : Completion} (hc : Outcome.Within expected Q c.outcome) :
    match l.observe policy name c with
    | .ok l' => l'.Within expected Q
    | .error e => expected e := by
  unfold RaceLedger.observe
  cases houtcome : c.outcome with
  | ok d =>
    rw [houtcome] at hc
    dsimp only
    cases hdecisive : l.decisive with
    | none =>
      refine ⟨fun d' hd' => ?_, h.late, h.firstError⟩
      cases hd'
      exact hc
    | some d' =>
      refine ⟨fun x hx => h.decisive x (hdecisive.trans hx),
        List.forall_mem_append.mpr ⟨h.late, ?_⟩, h.firstError⟩
      exact List.forall_mem_singleton.mpr hc
  | error e =>
    rw [houtcome] at hc
    dsimp only
    by_cases hcancelled : e.isCancelled = true
    · rw [if_pos hcancelled]
      exact h
    have he : expected e := hc.resolve_left fun heq => hcancelled (heq ▸ rfl)
    rw [if_neg hcancelled]
    by_cases hraised : (l.decisive.isNone && policy = .failFast) = true
    · rw [if_pos hraised]
      exact he
    · rw [if_neg hraised]
      refine ⟨h.decisive, h.late, fun e' he' => ?_⟩
      cases hfirst : l.firstError with
      | none =>
        rw [hfirst] at he'
        cases he'
        exact he
      | some first =>
        rw [hfirst] at he'
        exact h.firstError e' (hfirst.trans he')

/-- The decisive output and the late ones are a choice of outputs. -/
theorem Within.finish {fanIn : FanIn} (h : l.Within expected Q) (hescalates : Escalates expected)
    (hfanIn : fanIn.Accepts expected Q Q') : Outcome.Within expected Q' (l.finish fanIn) := by
  unfold RaceLedger.finish
  cases hdecisive : l.decisive with
  | some d =>
    have hstates : d.states ++ l.lateStates =
        (d :: (l.late.mergeSort fun a b => a.1 ≤ b.1).map Prod.snd).flatMap Data.states := by
      rw [lateStates, List.flatMap_cons, List.flatMap_map]
    dsimp only
    rw [hstates]
    refine hfanIn _ (List.cons_ne_nil _ _) (List.forall_mem_cons.mpr ⟨h.decisive d hdecisive, ?_⟩) _
    intro d' hd'
    obtain ⟨x, hx, rfl⟩ := List.mem_map.mp hd'
    exact h.late x ((List.mergeSort_perm _ _).mem_iff.mp hx)
  | none =>
    cases hfirst : l.firstError with
    | none => exact .inl rfl
    | some first => exact .inr (hescalates _ _ (h.firstError first hfirst))

end RaceLedger

namespace Race

variable {r : Race} {f : FanOut} {rules : FanOut.Rules} {l : RaceLedger} {post' : Outcome → Prop}

theorem meets_observeAll {onError : RunError → Task} {completions : List Completion}
    {next : RaceLedger → Task} (hl : l.Within expected Q)
    (hall : ∀ c ∈ completions, Outcome.Within expected Q c.outcome)
    (herror : ∀ e, expected e → (onError e).Meets rely token post' known)
    (hnext : ∀ l : RaceLedger, l.Within expected Q → (next l).Meets rely token post' known) :
    (observeAll rules f onError completions l next).Meets rely token post' known := by
  induction completions generalizing l with
  | nil => exact hnext l hl
  | cons c rest ih =>
    obtain ⟨hc, hrest⟩ := List.forall_mem_cons.mp hall
    have hobserved := hl.observe rules.policy f.name hc
    unfold observeAll
    split
    · next e he =>
      rw [he] at hobserved
      exact herror e hobserved
    · next l' hl' =>
      rw [hl'] at hobserved
      exact FanOut.meets_reporting (ih hobserved hrest)

/-- A race that waits for a decision, or is stopped before, goes on with outputs of its children. -/
theorem meets_decide {next : FanOut → RaceLedger → Task} {count : Nat}
    (hgrace : rely.Affords expected rules.grace)
    (hf : f.Knows known (Outcome.Within expected Q)) (hl : l.Within expected Q)
    (hnext : ∀ (f : FanOut) (l : RaceLedger), f.Knows known (Outcome.Within expected Q) →
      l.Within expected Q → (next f l).Meets rely ctx.token (Outcome.Within expected Q') known) :
    (decide ctx rules next count f l).Meets rely ctx.token (Outcome.Within expected Q') known := by
  induction count generalizing f l with
  | zero => exact hnext f l hf hl
  | succ count ih =>
    refine Task.meets_ask rfl rfl fun a justified => ?_
    cases a with
    | none => exact hnext f l hf hl
    | some c =>
      dsimp only
      rw [History.takeFinished_eq]
      refine FanOut.meets_takeAll (hf.take c.index) (fun _ => trivial)
        (List.forall_mem_singleton.mpr (hf.completion justified)) fun f' batch hf' hbatch => ?_
      refine meets_observeAll hl (fun c hc => ?_)
        (fun e he => FanOut.meets_raise hgrace.within hf' (.inr he)) fun l' hl' => ?_
      · exact hbatch c ((List.mergeSort_perm _ _).mem_iff.mp hc)
      · split
        · exact hnext f' l' hf' hl'
        · exact ih hf' hl'

theorem meets_settle {next : RaceLedger → Task} (hgrace : rely.Affords expected rules.grace)
    (hf : f.Knows known (Outcome.Within expected Q)) (hl : l.Within expected Q)
    (hnext : ∀ l : RaceLedger, l.Within expected Q →
      (next l).Meets rely token (Outcome.Within expected Q') known) :
    (settle rules next f l).Meets rely token (Outcome.Within expected Q') known := by
  unfold settle
  split
  · exact hnext l hl
  · refine Task.meets_ask trivial rfl fun _ _ => ?_
    refine FanOut.meets_collectWithin hgrace.within hf fun f' taken _ htaken => ?_
    exact meets_observeAll hl htaken (fun e he => FanOut.meets_abandon (.inr he))
      fun l' hl' => FanOut.meets_abandon (hnext l' hl')

/-- A race between children that yield data of one class yields what the fan-in makes of any choice
of it. -/
theorem meets {C : Nat → Data → Prop} (hescalates : Escalates expected)
    (hgrace : rely.Affords expected (r.rules config).grace)
    (hempty : r.children = [] → expected (.invalidInput "RacingBranches" "no branches to race"))
    (hfeeds : FanOut.Feeds expected "RacingBranches" r.children.length true P C)
    (hchildren : ∀ i (c : Runnable), r.children[i]? = some c → c.Meets rely expected config (C i) Q)
    (hfanIn : r.fanIn.Accepts expected Q Q') : r.runnable.Meets rely expected config P Q' := by
  intro ctx hctx input hinput
  have hfed := hfeeds input hinput
  unfold runnable Race.next
  dsimp only
  split
  · next hnil => exact .inr (hempty (List.isEmpty_iff.mp hnil))
  rw [show (r.rules ctx.config).owner = "RacingBranches" from rfl]
  split
  · next e he =>
    rw [he] at hfed
    exact .inr hfed
  · next inputs hinputs =>
    rw [hinputs] at hfed
    refine FanOut.meets_start (FanOut.meets_jobs hctx hfed hchildren) fun f known' hf => ?_
    have hgrace' : rely.Affords expected (r.rules ctx.config).grace := hctx ▸ hgrace
    refine meets_decide hgrace' hf RaceLedger.within_empty fun f' l hf' hl => ?_
    exact meets_settle hgrace' hf' hl fun l' hl' => hl'.finish hescalates hfanIn

end Race

end Orchestra
