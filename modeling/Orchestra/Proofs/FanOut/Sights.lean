import Orchestra.Proofs.FanOut.Race

/-!
# What a fan-out sees of its children

A fan-out starts its children and takes their completions; whatever else it asks, the answer changes
at most how long it waits. So two fan-outs whose children have the same names, and which see the
same completions in the same order, come to the same value or the same error, however the two runs
differ in tokens, in owners and in time.
-/

namespace Orchestra

/-- What an answer shows of the children: the completion that a wait for them comes to, or that it
comes to none. -/
def Exchange.sight : Exchange → List (Option Completion)
  | ⟨_, .nextChild _ _, c⟩ => [c]
  | _ => []

/-- What the answers in a run show of the children, in order. -/
def sights (es : List Exchange) : List (Option Completion) :=
  es.flatMap Exchange.sight

/-- Nothing is seen of the children in the answer to such a request. -/
def Request.Blind (r : Request) : Prop :=
  ∀ moment answer, Exchange.sight ⟨moment, r, answer⟩ = []

theorem sights_cons_of_blind {r : Request} (blind : r.Blind) (moment : Nat) (a : r.Answer)
    (es : List Exchange) : sights (⟨moment, r, a⟩ :: es) = sights es := by
  rw [sights, List.flatMap_cons, blind, List.nil_append, sights]

/-- Two programs that come to outcomes in a relation in all runs that show them the same of their
children. -/
def Task.Matches (R : Outcome → Outcome → Prop) (t t' : Task) : Prop :=
  ∀ (h h' : History) (task task' : TaskId) (m m' k k' : Nat) (es es' : List Exchange)
    (o o' : Outcome), h.Runs task m t es k o → h'.Runs task' m' t' es' k' o' →
    sights es = sights es' → R o o'

namespace Task

variable {R : Outcome → Outcome → Prop} {t t' : Task}

theorem Matches.swap (matching : Matches (fun o o' => R o' o) t' t) : Matches R t t' :=
  fun h h' task task' m m' k k' es es' o o' run run' same =>
    matching h' h task' task m' m k' k es' es o' o run' run same.symm

theorem matches_done {o o' : Outcome} (related : R o o') : Matches R (.done o) (.done o') := by
  intro h h' task task' m m' k k' es es' _ _ run run' _
  obtain ⟨-, -, rfl⟩ := History.runs_done_iff.mp run
  obtain ⟨-, -, rfl⟩ := History.runs_done_iff.mp run'
  exact related

/-- Only one of them panics, and comes to no outcome. -/
theorem matches_panic_left {payload : Payload} : Matches R (.panic payload) t' := by
  intro h h' task task' m m' k k' es es' o o' run
  cases run

/-- Both see what they wait for. -/
theorem matches_wait {pending pending' : List Pending} {patience patience' : Patience}
    {next next' : Option Completion → Task} (rest : ∀ c, Matches R (next c) (next' c)) :
    Matches R (.ask (.nextChild pending patience) next)
      (.ask (.nextChild pending' patience') next') := by
  intro h h' task task' m m' k k' es es' o o' run run' same
  obtain ⟨_, c, es, rfl, -, run⟩ := History.runs_ask_iff.mp run
  obtain ⟨_, c', es', rfl, -, run'⟩ := History.runs_ask_iff.mp run'
  obtain ⟨hc, hes⟩ := List.cons.inj same
  subst hc
  exact rest c h h' task task' _ _ k k' es es' o o' run run' hes

/-- Only one of them asks, and sees nothing. -/
theorem matches_ask_left {r : Request} {next : r.Answer → Task} (blind : r.Blind)
    (rest : ∀ a, Matches R (next a) t') : Matches R (.ask r next) t' := by
  intro h h' task task' m m' k k' es es' o o' run run' same
  obtain ⟨_, a, es, rfl, -, run⟩ := History.runs_ask_iff.mp run
  rw [sights_cons_of_blind blind] at same
  exact rest a h h' task task' _ _ k k' es es' o o' run run' same

/-- Both ask and see nothing. -/
theorem matches_ask {r r' : Request} {next : r.Answer → Task} {next' : r'.Answer → Task}
    (blind : r.Blind) (blind' : r'.Blind) (rest : ∀ a a', Matches R (next a) (next' a')) :
    Matches R (.ask r next) (.ask r' next') :=
  matches_ask_left blind fun a => .swap <| matches_ask_left blind' fun a' => .swap <| rest a a'

/-- Only one of them starts a child. -/
theorem matches_spawn_left {name : String} {parent : TokenId} {body : TokenId → Task}
    {next : Child → Task} (rest : ∀ c, c.name = name → Matches R (next c) t') :
    Matches R (.spawn name parent body next) t' := by
  intro h h' task task' m m' k k' es es' o o' run run' same
  obtain ⟨-, -, run⟩ := History.runs_spawn_iff.mp run
  exact rest _ rfl h h' task task' _ _ k k' es es' o o' run run' same

theorem matches_reporting {entry entry' : Option LogEntry} (rest : Matches R t t') :
    Matches R (reporting entry t) (reporting entry' t') := by
  have left (entry : Option LogEntry) {R : Outcome → Outcome → Prop} {t t' : Task}
      (rest : Matches R t t') : Matches R (reporting entry t) t' := by
    cases entry with
    | none => exact rest
    | some e => exact matches_ask_left (fun _ _ => rfl) fun _ => rest
  exact left entry (.swap (left entry' (.swap rest)))

end Task

namespace FanOut

open Orchestra.Task

/-- The name under which a failure is recorded depends on the names of the children alone. -/
theorem name_eq (f : FanOut) :
    f.name = fun i => ((f.children.map Child.name)[i]?).getD "unknown" := by
  funext i
  rw [name, List.getElem?_map]
  cases f.children[i]? <;> rfl

/-- Two fan-outs whose children have the same names, and which wait for the children at the same
positions. -/
structure Like (f f' : FanOut) : Prop where
  names : f.children.map Child.name = f'.children.map Child.name
  waits : f.pending.map Pending.index = f'.pending.map Pending.index

namespace Like

variable {f f' : FanOut}

theorem size (like : f.Like f') : f.size = f'.size := by
  simpa [FanOut.size] using congrArg List.length like.names

theorem outstanding (like : f.Like f') : f.outstanding = f'.outstanding := by
  simpa [FanOut.outstanding] using congrArg List.length like.waits

theorem name (like : f.Like f') : f.name = f'.name := by
  rw [name_eq, name_eq, like.names]

theorem take (like : f.Like f') (index : Nat) : (f.take index).Like (f'.take index) where
  names := like.names
  waits := by
    have hfilter (g : FanOut) : (g.take index).pending.map Pending.index =
        (g.pending.map Pending.index).filter (· != index) := by
      rw [List.filter_map]
      rfl
    rw [hfilter, hfilter, like.waits]

/-- Before any completion is taken the names of the children are all that counts. -/
theorem ofChildren {children children' : List Child}
    (names : children.map Child.name = children'.map Child.name) :
    (FanOut.ofChildren children).Like (FanOut.ofChildren children') where
  names := names
  waits := by
    have hindex (children : List Child) :
        (FanOut.ofChildren children).pending.map Pending.index =
          List.range (children.map Child.name).length := by
      rw [List.length_map]
      refine List.ext_getElem (by simp [FanOut.ofChildren]) fun i _ _ => ?_
      simp [FanOut.ofChildren]
    rw [hindex, hindex, names]

end Like

variable {R : Outcome → Outcome → Prop} {f f' : FanOut} {ctx ctx' : Context} {rules rules' : Rules}

/-! ### Starting children and taking completions -/

theorem matches_startAll_left {limit : Option LimitId} {jobs : List (Runnable × Data)}
    {next : List Child → Task} {t' : Task}
    (rest : ∀ children, children.map Child.name = jobs.map (·.1.name) →
      Matches R (next children) t') : Matches R (startAll ctx limit jobs next) t' := by
  induction jobs generalizing next with
  | nil => exact rest [] rfl
  | cons job jobs ih =>
    refine matches_spawn_left fun c hc => ih fun children hchildren => rest (c :: children) ?_
    rw [List.map_cons, List.map_cons, hc, hchildren]

/-- Children of the same names are started. -/
theorem matches_start {limit limit' : Option LimitId} {jobs jobs' : List (Runnable × Data)}
    {next next' : FanOut → Task} (names : jobs.map (·.1.name) = jobs'.map (·.1.name))
    (rest : ∀ f f', f.Like f' → Matches R (next f) (next' f')) :
    Matches R (start ctx limit jobs next) (start ctx' limit' jobs' next') := by
  refine matches_startAll_left fun children hchildren =>
    .swap <| matches_startAll_left fun children' hchildren' => .swap <| rest _ _ (.ofChildren ?_)
  rw [hchildren, hchildren', names]

/-- The same completions are taken. -/
theorem matches_takeAll {patience patience' : Patience} {count : Nat} {taken : List Completion}
    {next next' : FanOut → List Completion → Task} (like : f.Like f')
    (rest : ∀ g g' taken, g.Like g' → Matches R (next g taken) (next' g' taken)) :
    Matches R (History.takeAll patience count f taken next)
      (History.takeAll patience' count f' taken next') := by
  induction count generalizing f f' taken with
  | zero => exact rest f f' taken like
  | succ count ih =>
    refine matches_wait fun c => ?_
    cases c with
    | none => exact rest f f' taken like
    | some c => exact ih (like.take c.index)

theorem matches_collectWithin {grace grace' : Duration}
    {next next' : FanOut → List Completion → Task} (like : f.Like f')
    (rest : ∀ g g' taken, g.Like g' → Matches R (next g taken) (next' g' taken)) :
    Matches R (f.collectWithin grace next) (f'.collectWithin grace' next') := by
  refine matches_ask (fun _ _ => rfl) (fun _ _ => rfl) fun now now' => ?_
  split
  · split
    · rw [History.collectUntil_eq, History.collectUntil_eq, like.outstanding]
      exact matches_takeAll like rest
    · exact .swap matches_panic_left
  · exact matches_panic_left

theorem matches_stopAll {t t' : Task} (rest : Matches R t t') :
    Matches R (f.stopAll t) (f'.stopAll t') :=
  matches_ask (fun _ _ => rfl) (fun _ _ => rfl) fun _ _ => rest

theorem matches_abandon {owner owner' : String} {t t' : Task} (rest : Matches R t t') :
    Matches R (f.abandon owner t) (f'.abandon owner' t') := by
  rw [History.abandon_eq, History.abandon_eq]
  exact matches_reporting rest

variable (errors : ∀ e, R (.error e) (.error e))
include errors

theorem matches_raise {owner owner' : String} {grace grace' : Duration} {e : RunError}
    (like : f.Like f') : Matches R (f.raise owner grace e) (f'.raise owner' grace' e) :=
  matches_stopAll <| matches_collectWithin like fun _ _ _ _ =>
    matches_abandon <| matches_done (errors e)

/-! ### Gathering -/

theorem matches_conclude {tally : Tally} {next next' : Gathered → Task}
    (rest : ∀ g, Matches R (next g) (next' g)) :
    Matches R (conclude tally next) (conclude tally next') := by
  unfold conclude
  split
  · exact rest _
  · exact matches_done (errors _)

omit errors in
theorem matches_acceptLate {completions : List Completion} {tally : Tally}
    {next next' : Tally → Task} (like : f.Like f')
    (rest : ∀ tally, Matches R (next tally) (next' tally)) :
    Matches R (acceptLate rules f completions tally next)
      (acceptLate rules' f' completions tally next') := by
  induction completions generalizing tally with
  | nil => exact rest tally
  | cons c completions ih =>
    rw [acceptLate, acceptLate, like.name]
    exact matches_reporting ih

theorem matches_gatherStopped {tally : Tally} {next next' : Gathered → Task} (like : f.Like f')
    (rest : ∀ g, Matches R (next g) (next' g)) :
    Matches R (gatherStopped rules f tally next) (gatherStopped rules' f' tally next') :=
  matches_stopAll <| matches_collectWithin like fun _ _ _ like =>
    matches_acceptLate like fun _ => matches_abandon <| matches_conclude errors rest

/-- Under one policy the same completions are accounted for in the same way. -/
theorem matches_gather {next next' : Gathered → Task} (policy : rules.policy = rules'.policy)
    (like : f.Like f') (rest : ∀ g, Matches R (next g) (next' g)) :
    Matches R (f.gather ctx rules next) (f'.gather ctx' rules' next') := by
  have hnext (count : Nat) {f f' : FanOut} (like : f.Like f') (tally : Tally) :
      Matches R (gatherNext ctx rules next count f tally)
        (gatherNext ctx' rules' next' count f' tally) := by
    induction count generalizing f f' tally with
    | zero => exact matches_conclude errors rest
    | succ count ih =>
      refine matches_wait fun c => ?_
      cases c with
      | none => exact matches_gatherStopped errors like rest
      | some c =>
        have hname : (f.take c.index).name = (f'.take c.index).name := (like.take c.index).name
        dsimp only
        rw [hname, ← policy]
        split
        · exact matches_raise errors (like.take c.index)
        · exact matches_reporting (ih (like.take c.index) _)
  rw [gather, gather, like.outstanding, like.size]
  exact hnext _ like _

end FanOut

/-! ### Racing -/

namespace Race

open Orchestra.Task FanOut

variable {R : Outcome → Outcome → Prop} {f f' : FanOut} {ctx ctx' : Context} {rules rules' : Rules}

theorem matches_observeAll {onError onError' : RunError → Task} {completions : List Completion}
    {l : RaceLedger} {next next' : RaceLedger → Task} (policy : rules.policy = rules'.policy)
    (like : f.Like f') (failed : ∀ e, Matches R (onError e) (onError' e))
    (rest : ∀ l, Matches R (next l) (next' l)) :
    Matches R (observeAll rules f onError completions l next)
      (observeAll rules' f' onError' completions l next') := by
  induction completions generalizing l with
  | nil => exact rest l
  | cons c completions ih =>
    rw [observeAll, observeAll, like.name, policy]
    split
    · exact failed _
    · exact matches_reporting ih

variable (errors : ∀ e, R (.error e) (.error e))
include errors

theorem matches_decide {count : Nat} {l : RaceLedger} {next next' : FanOut → RaceLedger → Task}
    (policy : rules.policy = rules'.policy) (like : f.Like f')
    (rest : ∀ g g' l, g.Like g' → Matches R (next g l) (next' g' l)) :
    Matches R (decide ctx rules next count f l) (decide ctx' rules' next' count f' l) := by
  induction count generalizing f f' l with
  | zero => exact rest f f' l like
  | succ count ih =>
    refine matches_wait fun c => ?_
    cases c with
    | none => exact rest f f' l like
    | some first =>
      dsimp only
      rw [History.takeFinished_eq, History.takeFinished_eq, (like.take first.index).outstanding]
      refine matches_takeAll (like.take first.index) fun g g' batch like =>
        matches_observeAll policy like (fun e => matches_raise errors like) fun l => ?_
      split
      · exact rest g g' l like
      · exact ih like

theorem matches_settle {l : RaceLedger} {next next' : RaceLedger → Task}
    (policy : rules.policy = rules'.policy) (like : f.Like f')
    (rest : ∀ l, Matches R (next l) (next' l)) :
    Matches R (settle rules next f l) (settle rules' next' f' l) := by
  rw [settle, settle, like.outstanding]
  split
  · exact rest l
  · refine matches_stopAll <| matches_collectWithin like fun g g' taken like =>
      matches_observeAll policy like (fun e => ?_) fun l => matches_abandon (rest l)
    exact matches_abandon <| matches_done (errors e)

end Race

end Orchestra
