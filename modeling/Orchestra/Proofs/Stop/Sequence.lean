import Orchestra.Branch
import Orchestra.Loop
import Orchestra.Proofs.Stop.Ensures
import Orchestra.Reduce

/-!
# Parts in sequence

A part of a pipeline that gets data of one class comes to data of another under a rely, or
acknowledges a stop, or fails with an error that is expected of it. A part that runs other parts one
after the other may be stopped between any two of them, and then hands over what it holds. So what it
comes to is of a class only if everything that it may hold belongs to this class.
-/

namespace Orchestra

/-- An outcome that is data of a class, an acknowledged stop, or an expected error. -/
def Outcome.Within (expected : RunError → Prop) (Q : Data → Prop) : Outcome → Prop
  | .ok d => Q d
  | .error e => e = .cancelled ∨ expected e

/-- A larger class of outputs allows more. -/
theorem Outcome.Within.weaken {expected : RunError → Prop} {Q Q' : Data → Prop} {o : Outcome}
    (h : o.Within expected Q) (hQ : ∀ d, Q d → Q' d) : o.Within expected Q' := by
  cases o with
  | ok d => exact hQ d h
  | error e => exact h

/-- From data of one class a runnable comes to data of another, under a rely. -/
def Runnable.Meets (rely : Rely) (expected : RunError → Prop) (config : Config) (P : Data → Prop)
    (r : Runnable) (Q : Data → Prop) : Prop :=
  ∀ ctx : Context, ctx.config = config → ∀ input, P input →
    (r.next ctx input).Meets rely ctx.token (Outcome.Within expected Q) .nothing

variable {rely : Rely} {expected : RunError → Prop} {config : Config} {P P' Q Q' : Data → Prop}

/-- It does so from a smaller class, and to a larger one. -/
theorem Runnable.Meets.weaken {r : Runnable} (h : r.Meets rely expected config P' Q')
    (inputs : ∀ d, P d → P' d) (outputs : ∀ d, Q' d → Q d) : r.Meets rely expected config P Q :=
  fun ctx hctx d hd => (h ctx hctx d (inputs d hd)).weaken fun _ ho => ho.weaken outputs

namespace Context

variable {ctx : Context} {r : Runnable} {input : Data} {post : Outcome → Prop} {known : Known}

/-- Recording a call does not change its outcome. -/
theorem meets_execute (h : (r.next ctx input).Meets rely ctx.token post known) :
    (ctx.execute r input).Meets rely ctx.token post known :=
  h.andThen (fun _ _ => id) fun _ ho => Task.meets_ask trivial rfl fun _ _ => ho

/-- A run under a token of its own comes to what its runnable does, or acknowledges a stop. -/
theorem meets_run {limit : Option LimitId} {token : TokenId}
    (h : (r.next { ctx with token } input).Meets rely token post known)
    (hcancelled : post (.error .cancelled)) :
    (ctx.run r input limit token).Meets rely token post known := by
  have hrun : (({ ctx with token } : Context).execute r input).Meets rely token post known :=
    @meets_execute rely { ctx with token } r input post known h
  cases limit with
  | none => exact hrun
  | some l =>
    refine Task.meets_ask rfl rfl fun granted _ => ?_
    cases granted with
    | true => exact hrun
    | false => exact hcancelled

/-- A body goes on with its output, or its composite ends with an error or hands over what it
holds. -/
theorem meets_attempt {onOutput : Data → Task} {onStop : Task}
    (h : (r.next ctx input).Meets rely ctx.token (Outcome.Within expected Q) known)
    (houtput : ∀ d, Q d → (onOutput d).Meets rely ctx.token (Outcome.Within expected Q') .nothing)
    (hstop : onStop.Meets rely ctx.token (Outcome.Within expected Q') .nothing) :
    (ctx.attempt r input onOutput onStop).Meets rely ctx.token (Outcome.Within expected Q') known := by
  refine (meets_execute h).andThen (fun _ _ => id) fun o ho => ?_
  cases o with
  | ok d => exact houtput d ho
  | error e =>
    dsimp only
    split
    · refine Task.meets_ask trivial rfl fun stopped _ => ?_
      cases stopped with
      | true => exact hstop
      | false => exact ho
    · exact ho

end Context

namespace Branch

/-- A branch without components hands over its input. -/
theorem meets_nil (name : Option String) (h : ∀ d, P d → Q d) :
    (Branch.runnable ⟨[], name⟩).Meets rely expected config P Q :=
  fun _ _ input hinput => h input hinput

/-- A branch may be stopped before its first component, and goes on as the branch of the others. -/
theorem meets_cons {r : Runnable} {rest : List Runnable} {name name' : Option String}
    (h : ∀ d, P d → Q d) (hfirst : r.Meets rely expected config P P')
    (hrest : (Branch.runnable ⟨rest, name'⟩).Meets rely expected config P' Q) :
    (Branch.runnable ⟨r :: rest, name⟩).Meets rely expected config P Q := by
  intro ctx hctx input hinput
  refine Task.meets_ask trivial rfl fun stopped _ => ?_
  cases stopped with
  | true => exact h input hinput
  | false =>
    exact Context.meets_attempt (hfirst ctx hctx input hinput) (fun d hd => hrest ctx hctx d hd)
      (h input hinput)

end Branch

/-- Data that a part takes as a single state of a class, or refuses with an expected error. -/
def Data.IsState (expected : RunError → Prop) (name : String) (S : State → Prop) (d : Data) : Prop :=
  match d.toState name with
  | .ok s => S s
  | .error e => expected e

/-- Data that a part takes as a list of a class, or refuses with an expected error. -/
def Data.IsList (expected : RunError → Prop) (name : String) (L : List State → Prop) (d : Data) :
    Prop :=
  match d.toStates name with
  | .ok states => L states.items
  | .error e => expected e

/-- What a tracker holds after an offer was held before or has been offered. -/
theorem Tracker.value?_offer {α : Type} {t : Tracker α} {key : Double} {candidate a : α}
    (h : (t.offer key candidate).value? = some a) : t.value? = some a ∨ a = candidate := by
  unfold offer at h
  split at h
  · exact .inr (Option.some.inj h).symm
  · exact .inl h

namespace Reduce

variable {S T : State → Prop} {r : Reduce} {ctx : Context}

/-- From a state held and an item a combiner makes a state that may be held. -/
def Combines (rely : Rely) (expected : RunError → Prop) (config : Config) (S T : State → Prop) :
    Combiner → Prop
  | .function f => ∀ held item, S held → T item →
    (∀ s, f held item = .ok s → S s) ∧ ∀ e, f held item = .error e → expected e
  | .runnable body => body.Meets rely expected config
    (fun d => ∃ held item, d = .ofList [held, item] ∧ S held ∧ T item)
    (Data.IsState expected body.name S)

/-- The lists that a fold takes. -/
def Takes (expected : RunError → Prop) (S T : State → Prop) (r : Reduce) (items : List State) :
    Prop :=
  match r.initial, items with
  | some initial, _ => S initial ∧ ∀ s ∈ items, T s
  | none, first :: rest => S first ∧ ∀ s ∈ rest, T s
  | none, [] => expected (.emptyInput "Reduce")

theorem meets_combine (hctx : ctx.config = config) (h : Combines rely expected config S T r.combiner)
    {held item : State} (hheld : S held) (hitem : T item) {next : State → Task}
    (hnext : ∀ s, S s → (next s).Meets rely ctx.token (Outcome.Within expected Q) .nothing) :
    (r.combine ctx held item next).Meets rely ctx.token (Outcome.Within expected Q) .nothing := by
  unfold combine
  cases hcombiner : r.combiner with
  | function f =>
    rw [hcombiner] at h
    obtain ⟨hok, herror⟩ := h held item hheld hitem
    dsimp only
    split
    · next s hs => exact hnext s (hok s hs)
    · next e he => exact .inr (herror e he)
  | runnable body =>
    rw [hcombiner] at h
    have hbody := h ctx hctx _ ⟨held, item, rfl, hheld, hitem⟩
    refine (Context.meets_execute hbody).andThen (fun _ _ => id) fun o ho => ?_
    cases o with
    | error e => exact ho
    | ok d =>
      have hd : Data.IsState expected body.name S d := ho
      unfold Data.IsState at hd
      dsimp only
      split
      · next s hs =>
        rw [hs] at hd
        exact hnext s hd
      · next e he =>
        rw [he] at hd
        exact .inr hd

theorem meets_fold (hctx : ctx.config = config) (h : Combines rely expected config S T r.combiner)
    {items : List State} {held : State} (hheld : S held) (hitems : ∀ s ∈ items, T s) :
    (r.fold ctx items held).Meets rely ctx.token
      (Outcome.Within expected fun d => ∃ s, d = .one s ∧ S s) .nothing := by
  induction items generalizing held with
  | nil => exact ⟨held, rfl, hheld⟩
  | cons item rest ih =>
    obtain ⟨hitem, hrest⟩ := List.forall_mem_cons.mp hitems
    refine Task.meets_ask trivial rfl fun stopped _ => ?_
    cases stopped with
    | true => exact .inl rfl
    | false => exact meets_combine hctx h hheld hitem fun s hs => ih hs hrest

theorem meets_foldList (hctx : ctx.config = config)
    (h : Combines rely expected config S T r.combiner) {items : List State}
    (hitems : r.Takes expected S T items) :
    (r.foldList ctx items).Meets rely ctx.token
      (Outcome.Within expected fun d => ∃ s, d = .one s ∧ S s) .nothing := by
  unfold Takes at hitems
  unfold foldList
  cases hinitial : r.initial with
  | some initial =>
    rw [hinitial] at hitems
    exact meets_fold hctx h hitems.1 hitems.2
  | none =>
    rw [hinitial] at hitems
    cases items with
    | nil => exact .inr hitems
    | cons first rest => exact meets_fold hctx h hitems.1 hitems.2

/-- A fold yields a single state, and a stopped one nothing. -/
theorem meets (h : Combines rely expected config S T r.combiner) :
    r.runnable.Meets rely expected config (Data.IsList expected "Reduce" (r.Takes expected S T))
      fun d => ∃ s, d = .one s ∧ S s := by
  intro ctx hctx input hinput
  unfold Data.IsList at hinput
  unfold runnable
  dsimp only
  split
  · next states hstates =>
    rw [hstates] at hinput
    exact meets_foldList hctx h hinput
  · next e he =>
    rw [he] at hinput
    exact .inr hinput

end Reduce

namespace Loop

variable {l : Loop} {ctx : Context}

/-- A loop that ends hands over what it holds. -/
theorem meets_outOfRounds {result : Data} (h : Q result) :
    (l.outOfRounds result).Meets rely ctx.token (Outcome.Within expected Q) .nothing := by
  unfold outOfRounds
  split
  · exact h
  · trivial

/-- A loop may look at its clock. -/
theorem meets_timed {post : Outcome → Prop} {next : Nat → Task}
    (h : ∀ started, (next started).Meets rely ctx.token post .nothing) :
    (l.timed next).Meets rely ctx.token post .nothing := by
  unfold timed
  split
  · exact h 0
  · exact Task.meets_ask trivial rfl fun started _ => h started

/-- Before an iteration a loop may be out of time or stopped, and hands over what it holds. -/
theorem meets_guarded {started : Nat} {result : Data} (h : Q result) {iteration : Unit → Task}
    (hiteration : (iteration ()).Meets rely ctx.token (Outcome.Within expected Q) .nothing) :
    (l.guarded ctx started result iteration).Meets rely ctx.token (Outcome.Within expected Q)
      .nothing := by
  refine meets_timed fun reading => ?_
  split
  · exact h
  · refine Task.meets_ask trivial rfl fun stopped _ => ?_
    cases stopped with
    | true => exact h
    | false => exact hiteration

/-- A loop over a body that keeps a class keeps it. -/
theorem meets_last (h : l.body.Meets rely expected config P P) :
    l.last.Meets rely expected config P P := by
  intro ctx hctx input hinput
  have hrepeat (started rounds : Nat) (best : Tracker Data) (held : Data) (hheld : P held) :
      (l.repeatLast ctx started rounds best held).Meets rely ctx.token (Outcome.Within expected P)
        .nothing := by
    induction rounds generalizing best held with
    | zero => exact meets_outOfRounds hheld
    | succ rounds ih =>
      refine meets_guarded hheld ?_
      refine Context.meets_attempt (h ctx hctx held hheld) (fun output houtput => ?_) hheld
      dsimp only
      split
      · exact houtput
      · exact ih _ output houtput
  exact meets_timed fun started => hrepeat started l.rounds .empty input hinput

/-- A loop that collects its outputs may hand over any number of them, and requires each of them to
be a single state. -/
theorem meets_unwind {S : State → Prop}
    (h : l.body.Meets rely expected config (fun d => ∃ s, d = .one s ∧ S s)
      (Data.IsState expected l.body.name S)) :
    l.unwind.Meets rely expected config (Data.IsState expected "Unwind" S)
      fun d => ∃ history, d = .ofList history ∧ ∀ s ∈ history, S s := by
  intro ctx hctx input hinput
  have hrepeat (started rounds : Nat) (best : Tracker Data) (history : List State) (held : State)
      (hhistory : ∀ s ∈ history, S s) (hheld : S held) :
      (l.repeatCollecting ctx started rounds best history held).Meets rely ctx.token
        (Outcome.Within expected fun d => ∃ history, d = .ofList history ∧ ∀ s ∈ history, S s)
        .nothing := by
    induction rounds generalizing best history held with
    | zero => exact meets_outOfRounds ⟨history, rfl, hhistory⟩
    | succ rounds ih =>
      refine meets_guarded ⟨history, rfl, hhistory⟩ ?_
      refine Context.meets_attempt (h ctx hctx _ ⟨held, rfl, hheld⟩) (fun output houtput => ?_)
        ⟨history, rfl, hhistory⟩
      unfold Data.IsState at houtput
      dsimp only
      split
      · next e he =>
        rw [he] at houtput
        exact .inr houtput
      · next state hstate =>
        rw [hstate] at houtput
        have hhistory' : ∀ s ∈ history ++ [state], S s :=
          List.forall_mem_append.mpr ⟨hhistory, List.forall_mem_singleton.mpr houtput⟩
        split
        · exact ⟨_, rfl, hhistory'⟩
        · exact ih _ _ state hhistory' houtput
  unfold Data.IsState at hinput
  unfold unwind
  dsimp only
  split
  · next e he =>
    rw [he] at hinput
    exact .inr hinput
  · next state hstate =>
    rw [hstate] at hinput
    exact meets_timed fun started => hrepeat started l.rounds .empty [] state nofun hinput

/-- A loop that returns its best output over a body that keeps a class keeps it. -/
theorem meets_best (patience : Option Nat) (h : l.body.Meets rely expected config P P) :
    (l.best patience).Meets rely expected config P P := by
  intro ctx hctx input hinput
  have hbest {best : Tracker Data} {d : Data} (hd : P d) (h : ∀ d, best.value? = some d → P d) :
      P (best.value?.getD d) := by
    cases hvalue : best.value? with
    | none => exact hd
    | some d' => exact h d' hvalue
  have hrepeat (started rounds : Nat) (best : Tracker Data) (stale : Nat) (held : Data)
      (hvalue : ∀ d, best.value? = some d → P d) (hheld : P held) :
      (l.repeatBest ctx started patience rounds best stale held).Meets rely ctx.token
        (Outcome.Within expected P) .nothing := by
    induction rounds generalizing best stale held with
    | zero => exact meets_outOfRounds (hbest hheld hvalue)
    | succ rounds ih =>
      refine meets_guarded (hbest hheld hvalue) ?_
      refine Context.meets_attempt (h ctx hctx held hheld) (fun output houtput => ?_)
        (hbest hheld hvalue)
      have hvalue' : ∀ d, (l.observe best output).value? = some d → P d := fun d hd =>
        (Tracker.value?_offer hd).elim (hvalue d) fun heq => heq ▸ houtput
      dsimp only
      split
      · exact hbest houtput hvalue'
      · exact ih _ _ output hvalue' houtput
  exact meets_timed fun started => hrepeat started l.rounds .empty 0 input nofun hinput

/-- A loop that tries to improve its input hands over the input or an output. -/
theorem meets_improve (maxTries : Option Nat) (h : l.body.Meets rely expected config P Q)
    (hinput : ∀ d, P d → Q d) : (l.improve maxTries).Meets rely expected config P Q := by
  intro ctx hctx baseline hbaseline
  have hrepeat (started rounds tries : Nat) :
      (l.retry ctx started maxTries baseline rounds tries).Meets rely ctx.token
        (Outcome.Within expected Q) .nothing := by
    induction rounds generalizing tries with
    | zero => exact meets_outOfRounds (hinput baseline hbaseline)
    | succ rounds ih =>
      refine meets_guarded (hinput baseline hbaseline) ?_
      split
      · exact hinput baseline hbaseline
      · refine Context.meets_attempt (h ctx hctx baseline hbaseline) (fun output houtput => ?_)
          (hinput baseline hbaseline)
        split
        · exact houtput
        · split
          · exact hinput baseline hbaseline
          · exact ih _
  exact meets_timed fun started => hrepeat started l.rounds 0

end Loop

end Orchestra
