import Orchestra.Proofs.Composites
import Orchestra.Proofs.FanOut.Race
import Orchestra.Proofs.World.Awake

/-!
# Whom composites stop

The program of a task spares its caller if it stops no token but those of children that it has
started before, and if the programs of these children do the same with their own. A stopped child is
thus always one of the task itself: never the token that it runs under, nor that of a sibling, nor
that of a child further down. Fan-outs stop the tokens of all their children, and nobody else; what
runs its parts one after the other stops nobody by itself.
-/

namespace Orchestra

/-- A task stops no token but its own ones, which are the given ones and those of the children that it
has started. Each child begins with none. -/
def Task.StopsOnly : Task → (TokenId → Prop) → Prop
  | .done _, _ => True
  | .panic _, _ => True
  | .endless, _ => True
  | .ask r next, own => (∀ token ∈ r.stops, own token) ∧ ∀ a, (next a).StopsOnly own
  | .spawn name _ body next, own =>
    (∀ token, (body token).StopsOnly fun _ => False) ∧
      ∀ id token, (next ⟨id, token, name⟩).StopsOnly fun x => own x ∨ x = token

/-- No token. -/
abbrev noToken : TokenId → Prop := fun _ => False

/-- A part none of whose executions stops the token of its context, or anybody else whom it has not
started. -/
def Runnable.Spares (r : Runnable) : Prop :=
  ∀ (ctx : Context) input, (r.next ctx input).StopsOnly noToken

variable {ctx : Context} {own own' : TokenId → Prop}

namespace Task

variable {t : Task}

theorem StopsOnly.mono (h : t.StopsOnly own) (hown : ∀ x, own x → own' x) : t.StopsOnly own' := by
  induction t generalizing own own' with
  | done | panic | endless => trivial
  | ask r next ih => exact ⟨fun x hx => hown x (h.1 x hx), fun a => ih a (h.2 a) hown⟩
  | spawn name parent body next _ ih =>
    exact ⟨h.1, fun id token => ih _ (h.2 id token) fun x => Or.imp_left (hown x)⟩

/-- Whatever stops nobody may do so with children of its own. -/
theorem StopsOnly.of_none (h : t.StopsOnly noToken) : t.StopsOnly own :=
  h.mono fun _ => False.elim

theorem StopsOnly.andThen {f : Outcome → Task} (h : t.StopsOnly own) (hf : ∀ o, (f o).StopsOnly own) :
    (t.andThen f).StopsOnly own := by
  induction t generalizing own with
  | done o => exact hf o
  | panic | endless => trivial
  | ask r next ih => exact ⟨h.1, fun a => ih a (h.2 a) hf⟩
  | spawn name parent body next _ ih =>
    exact ⟨h.1, fun id token => ih _ (h.2 id token) fun o => (hf o).mono fun _ => .inl⟩

theorem stopsOnly_reporting {entry : Option LogEntry} {next : Task} (h : next.StopsOnly own) :
    (reporting entry next).StopsOnly own := by
  cases entry with
  | none => exact h
  | some e => exact ⟨nofun, fun _ => h⟩

end Task

/-! ### Executions -/

namespace Context

variable {r : Runnable} {input : Data}

theorem stopsOnly_execute (h : r.Spares) : (ctx.execute r input).StopsOnly own :=
  (h ctx input).of_none.andThen fun _ => ⟨nofun, fun _ => trivial⟩

theorem stopsOnly_run (h : r.Spares) (limit : Option LimitId) (token : TokenId) :
    (ctx.run r input limit token).StopsOnly own := by
  have hexecute : (execute { ctx with token } r input).StopsOnly own := stopsOnly_execute h
  cases limit with
  | none => exact hexecute
  | some l =>
    refine ⟨nofun, fun granted => ?_⟩
    cases granted with
    | true => exact hexecute
    | false => trivial

end Context

/-! ### Fan-outs -/

namespace FanOut

variable {f : FanOut}

theorem stopsOnly_startAll {limit : Option LimitId} {jobs : List (Runnable × Data)}
    {next : List Child → Task} (hjobs : ∀ job ∈ jobs, job.1.Spares)
    (hnext : ∀ children, (next children).StopsOnly fun x => own x ∨ x ∈ children.map Child.token) :
    (startAll ctx limit jobs next).StopsOnly own := by
  induction jobs generalizing next own with
  | nil => exact (hnext []).mono fun x hx => hx.resolve_right List.not_mem_nil
  | cons job rest ih =>
    obtain ⟨hjob, hrest⟩ := List.forall_mem_cons.mp hjobs
    refine ⟨fun token => Context.stopsOnly_run hjob limit token, fun id token => ?_⟩
    refine ih hrest fun children => (hnext _).mono fun x hx => ?_
    rw [List.map_cons, List.mem_cons] at hx
    exact or_assoc.mpr hx

/-- A fan-out that has been started has the tokens of all its children. -/
theorem stopsOnly_start {limit : Option LimitId} {jobs : List (Runnable × Data)}
    {next : FanOut → Task} (hjobs : ∀ job ∈ jobs, job.1.Spares)
    (hnext : ∀ f : FanOut, (next f).StopsOnly (· ∈ f.tokens)) :
    (start ctx limit jobs next).StopsOnly noToken :=
  stopsOnly_startAll hjobs fun children => (hnext (ofChildren children)).mono fun _ => .inr

/-- Taking completions stops nobody, and leaves the fan-out its tokens. -/
theorem stopsOnly_takeAll {patience : Patience} {count : Nat} {taken : List Completion}
    {next : FanOut → List Completion → Task}
    (hnext : ∀ f' taken, f'.tokens = f.tokens → (next f' taken).StopsOnly own) :
    (History.takeAll patience count f taken next).StopsOnly own := by
  induction count generalizing f taken with
  | zero => exact hnext f taken rfl
  | succ count ih =>
    refine ⟨nofun, fun a => ?_⟩
    cases a with
    | none => exact hnext f taken rfl
    | some c => exact ih fun f' taken htokens => hnext f' taken htokens

theorem stopsOnly_collectWithin {grace : Duration} {next : FanOut → List Completion → Task}
    (hnext : ∀ f' taken, f'.tokens = f.tokens → (next f' taken).StopsOnly own) :
    (f.collectWithin grace next).StopsOnly own := by
  refine ⟨nofun, fun now => ?_⟩
  dsimp only
  split
  · rw [History.collectUntil_eq]
    exact stopsOnly_takeAll hnext
  · trivial

theorem stopsOnly_abandon {owner : String} {next : Task} (h : next.StopsOnly own) :
    (f.abandon owner next).StopsOnly own := by
  rw [History.abandon_eq]
  exact Task.stopsOnly_reporting h

/-- A failed fan-out stops its children. -/
theorem stopsOnly_raise {owner : String} {grace : Duration} {e : RunError}
    (hown : ∀ x ∈ f.tokens, own x) : (f.raise owner grace e).StopsOnly own :=
  ⟨hown, fun _ => stopsOnly_collectWithin fun _ _ _ => stopsOnly_abandon trivial⟩

theorem stopsOnly_acceptLate {rules : Rules} {completions : List Completion} {tally : Tally}
    {next : Tally → Task} (hnext : ∀ t, (next t).StopsOnly own) :
    (acceptLate rules f completions tally next).StopsOnly own := by
  induction completions generalizing tally with
  | nil => exact hnext tally
  | cons c rest ih => exact Task.stopsOnly_reporting ih

theorem stopsOnly_conclude {tally : Tally} {next : Gathered → Task}
    (hnext : ∀ g, (next g).StopsOnly own) : (conclude tally next).StopsOnly own := by
  unfold conclude
  split
  · exact hnext _
  · trivial

/-- A gathering that is stopped, or fails, stops its children. -/
theorem stopsOnly_gather {rules : Rules} {next : Gathered → Task} (hown : ∀ x ∈ f.tokens, own x)
    (hnext : ∀ g, (next g).StopsOnly own) : (f.gather ctx rules next).StopsOnly own := by
  have hgather (count : Nat) (f : FanOut) (tally : Tally) (hown : ∀ x ∈ f.tokens, own x) :
      (gatherNext ctx rules next count f tally).StopsOnly own := by
    induction count generalizing f tally with
    | zero => exact stopsOnly_conclude hnext
    | succ count ih =>
      refine ⟨nofun, fun a => ?_⟩
      cases a with
      | none =>
        refine ⟨hown, fun _ => stopsOnly_collectWithin fun _ _ _ => ?_⟩
        exact stopsOnly_acceptLate fun _ => stopsOnly_abandon (stopsOnly_conclude hnext)
      | some c =>
        dsimp only
        split
        · exact stopsOnly_raise hown
        · exact Task.stopsOnly_reporting (ih (f.take c.index) _ hown)
  exact hgather _ f _ hown

end FanOut

namespace Race

variable {f : FanOut} {rules : FanOut.Rules} {l : RaceLedger}

theorem stopsOnly_observeAll {onError : RunError → Task} {completions : List Completion}
    {next : RaceLedger → Task} (herror : ∀ e, (onError e).StopsOnly own)
    (hnext : ∀ l, (next l).StopsOnly own) :
    (observeAll rules f onError completions l next).StopsOnly own := by
  induction completions generalizing l with
  | nil => exact hnext l
  | cons c rest ih =>
    unfold observeAll
    split
    · exact herror _
    · exact Task.stopsOnly_reporting ih

/-- A race stops its contenders if a failure decides it, -/
theorem stopsOnly_decide {next : FanOut → RaceLedger → Task} {count : Nat}
    (hown : ∀ x ∈ f.tokens, own x)
    (hnext : ∀ (f : FanOut) l, (∀ x ∈ f.tokens, own x) → (next f l).StopsOnly own) :
    (decide ctx rules next count f l).StopsOnly own := by
  induction count generalizing f l with
  | zero => exact hnext f l hown
  | succ count ih =>
    refine ⟨nofun, fun a => ?_⟩
    cases a with
    | none => exact hnext f l hown
    | some first =>
      dsimp only
      rw [History.takeFinished_eq]
      refine FanOut.stopsOnly_takeAll fun f' batch htokens => ?_
      have hown' : ∀ x ∈ f'.tokens, own x := htokens ▸ hown
      refine stopsOnly_observeAll (fun e => FanOut.stopsOnly_raise hown') fun l => ?_
      split
      · exact hnext f' l hown'
      · exact ih hown'

/-- and those that are left when it is decided or stopped. -/
theorem stopsOnly_settle {next : RaceLedger → Task} (hown : ∀ x ∈ f.tokens, own x)
    (hnext : ∀ l, (next l).StopsOnly own) : (settle rules next f l).StopsOnly own := by
  unfold settle
  split
  · exact hnext l
  · refine ⟨hown, fun _ => FanOut.stopsOnly_collectWithin fun f' _ _ => ?_⟩
    refine stopsOnly_observeAll (fun e => ?_) fun l => FanOut.stopsOnly_abandon (hnext l)
    exact FanOut.stopsOnly_abandon trivial

end Race

/-! ### Composites -/

/-- A script stops nobody if none of the parts does that it calls. -/
theorem Script.CallsOnly.stopsOnly {s : Script} (h : s.CallsOnly Runnable.Spares) :
    (s.task ctx).StopsOnly own := by
  induction s with
  | done | endless => trivial
  | look next ih => exact ⟨nofun, fun stopped => ih stopped (h stopped)⟩
  | time next ih => exact ⟨nofun, fun reading => ih reading (h reading)⟩
  | call part input next ih =>
    exact (Context.stopsOnly_execute h.1).andThen fun o => ih o (h.2 o)
  | note => exact h.elim

/-- What calls its parts in sequence stops nobody by itself. -/
theorem Runnable.Sequences.spares {r : Runnable} {part : Runnable → Prop} (h : r.Sequences part)
    (hparts : ∀ x, part x → x.Spares) : r.Spares := by
  intro ctx input
  obtain ⟨s, calls, task⟩ := h ctx input
  exact task ▸ (calls.mono hparts).stopsOnly

/-- A loop calls its body only. -/
theorem LoopKind.spares {kind : LoopKind} {l : Loop} (h : l.body.Spares) : (kind.runnable l).Spares :=
  (kind.sequences l).spares fun _ hx => hx ▸ h

theorem Task.FansOut.stopsOnly {t : Task} (h : t.FansOut ctx Runnable.Spares) :
    t.StopsOnly noToken := by
  induction h with
  | done | panic => trivial
  | newLimit _ _ ih => exact ⟨nofun, ih⟩
  | gather limit hjobs =>
    exact FanOut.stopsOnly_start hjobs fun f => FanOut.stopsOnly_gather (fun _ => id) fun _ => trivial
  | race hjobs =>
    refine FanOut.stopsOnly_start hjobs fun f => Race.stopsOnly_decide (fun _ => id) ?_
    exact fun f l hown => Race.stopsOnly_settle hown fun _ => trivial

/-- What starts its parts side by side stops none but its own children. -/
theorem Runnable.FansOut.spares {r : Runnable} {part : Runnable → Prop} (h : r.FansOut part)
    (hparts : ∀ x, part x → x.Spares) : r.Spares :=
  fun ctx input => ((h ctx input).mono hparts).stopsOnly

/-- The leaves of the library stop nobody. -/
theorem Runnable.OfLibrary.spares {trackers : TrackerId → Prop} {r : Runnable}
    (h : r.OfLibrary trackers) : r.Spares := by
  intro ctx input
  cases h with
  | identity | duplicate | constant | mergeStates | select => trivial
  | sleep | report => exact ⟨nofun, fun _ => trivial⟩
  | track =>
    unfold Leaf.track
    dsimp only
    split
    · trivial
    · exact ⟨nofun, fun _ => trivial⟩

/-- Any fan-ins and folds, over the leaves of the library and any others that stop nobody but the
children that they have started themselves. -/
def Parts.sparing : Parts where
  leaf r := r.OfLibrary (fun _ => True) ∨ r.Spares
  fanIn _ := True
  combine _ := True
  initial _ := True

/-- A pipeline that is composed of them spares its caller. -/
theorem Runnable.Composed.spares {r : Runnable} (composed : r.Composed .sparing) : r.Spares := by
  refine composed.of_parts ?_ (fun _ _ h _ => h.spares) fun _ _ h _ => h.spares
  exact fun _ allowed => allowed.elim OfLibrary.spares id

end Orchestra
