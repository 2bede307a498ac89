import Orchestra.Proofs.Children.Accounts
import Orchestra.Proofs.Composites
import Orchestra.Proofs.FanOut.Race

/-!
# Fan-outs account for their children

A fan-out holds the tokens of all its children and waits for those whose completions it has not
taken. It ends on several ways: every completion is taken, a failure is raised, the context is
stopped, or a race is decided. On each of them either no child is left or every child is stopped. A
part that runs other parts one after the other goes on with the next one when the children of the
one before are accounted for.
-/

namespace Orchestra

/-- A part whose executions account for their children. -/
def Runnable.Accounts (r : Runnable) : Prop :=
  ∀ (ctx : Context) input, (r.next ctx input).Accounts ctx.token fun _ => False

/-- No child is open. -/
abbrev noneOpen : Child → Prop := fun _ => False

variable {ctx : Context} {token : TokenId}

/-! ### Starting and taking -/

namespace FanOut

variable {f : FanOut} {isOpen : Child → Prop}

/-- A fan-out whose children are those that are open: it holds their tokens, and waits for them. -/
structure Covers (f : FanOut) (isOpen : Child → Prop) : Prop where
  sorted : f.Sorted
  token : ∀ c, isOpen c → c.token ∈ f.tokens
  pending : ∀ c, isOpen c → ∃ p ∈ f.pending, p.id = c.id

/-- If nothing is pending, nothing is open. -/
theorem Covers.closed (h : f.Covers isOpen) (hnil : f.outstanding = 0) (c : Child) : ¬ isOpen c := by
  intro hc
  obtain ⟨p, hp, -⟩ := h.pending c hc
  rw [List.eq_nil_of_length_eq_zero hnil] at hp
  contradiction

/-- A completion that is taken closes its child. -/
theorem Covers.take (h : f.Covers isOpen) (patience : Patience) (c : Completion) :
    (f.take c.index).Covers fun child =>
      isOpen child ∧ ¬ (Request.nextChild f.pending patience).Closes child (some c) := by
  refine ⟨h.sorted.take _, fun child hchild => h.token child hchild.1, fun child hchild => ?_⟩
  obtain ⟨p, hp, hid⟩ := h.pending child hchild.1
  refine ⟨p, List.mem_filter.mpr ⟨hp, ?_⟩, hid⟩
  by_contra hindex
  have heq : p.index = c.index := by simpa using hindex
  refine hchild.2 ⟨⟨p, hp, heq⟩, fun q hq hqindex => ?_⟩
  rw [List.inj_on_of_nodup_map h.sorted.nodup_index hq hp (hqindex.trans heq.symm), hid]

/-- One child less is pending. -/
theorem Covers.outstanding_take (h : f.Covers isOpen) {patience : Patience} {c : Completion}
    (justified : (Request.nextChild f.pending patience).Justifies .nothing (some c)) :
    f.outstanding = (f.take c.index).outstanding + 1 := by
  obtain ⟨p, hp, hindex, -⟩ := justified
  rw [← hindex]
  exact (f.take_perm h.sorted hp).length_eq

theorem accounts_startAll {limit : Option LimitId} {jobs : List (Runnable × Data)}
    {next : List Child → Task}
    (hjobs : ∀ job ∈ jobs, ∀ token, (ctx.run job.1 job.2 limit token).Accounts token noneOpen)
    (hnext : ∀ children, (next children).Accounts ctx.token fun c => isOpen c ∨ c ∈ children) :
    (startAll ctx limit jobs next).Accounts ctx.token isOpen := by
  induction jobs generalizing next isOpen with
  | nil => exact (hnext []).fewer fun _ => .inl
  | cons job rest ih =>
    obtain ⟨hjob, hrest⟩ := List.forall_mem_cons.mp hjobs
    refine ⟨rfl, hjob, fun id token' => ih hrest fun children => ?_⟩
    refine (hnext _).fewer fun c hc => ?_
    rcases hc with (hopen | rfl) | hmem
    · exact .inl hopen
    · exact .inr List.mem_cons_self
    · exact .inr (List.mem_cons_of_mem _ hmem)

/-- A fan-out that has been started covers its children. -/
theorem covers_ofChildren (children : List Child) : (ofChildren children).Covers (· ∈ children) where
  sorted := by
    unfold Sorted ofChildren
    rw [List.pairwise_iff_getElem]
    intro i j hi hj hij
    rw [List.getElem_mapIdx, List.getElem_mapIdx]
    exact hij
  token c hc := List.mem_map_of_mem hc
  pending c hc := by
    obtain ⟨i, hi, rfl⟩ := List.getElem_of_mem hc
    exact ⟨⟨i, children[i].id⟩, List.mem_mapIdx.mpr ⟨i, hi, rfl⟩, rfl⟩

theorem accounts_start {limit : Option LimitId} {jobs : List (Runnable × Data)}
    {next : FanOut → Task}
    (hjobs : ∀ job ∈ jobs, ∀ token, (ctx.run job.1 job.2 limit token).Accounts token noneOpen)
    (hnext : ∀ f isOpen, f.Covers isOpen → (next f).Accounts ctx.token isOpen) :
    (start ctx limit jobs next).Accounts ctx.token noneOpen := by
  refine accounts_startAll hjobs fun children => ?_
  exact (hnext _ _ (covers_ofChildren children)).fewer fun c hc => hc.resolve_left id

theorem accounts_takeAll {patience : Patience} {count : Nat} {taken : List Completion}
    {next : FanOut → List Completion → Task} (h : f.Covers isOpen)
    (hnext : ∀ f taken isOpen', f.Covers isOpen' → (∀ c, isOpen' c → isOpen c) →
      (next f taken).Accounts token isOpen') :
    (History.takeAll patience count f taken next).Accounts token isOpen := by
  induction count generalizing f taken isOpen with
  | zero => exact hnext f taken isOpen h fun _ => id
  | succ count ih =>
    intro a _
    cases a with
    | none => exact (hnext f taken isOpen h fun _ => id).fewer fun _ => And.left
    | some c =>
      refine ih (h.take patience c) fun f taken isOpen' hf hopen => ?_
      exact hnext f taken isOpen' hf fun c hc => (hopen c hc).1

/-- A fan-out that has stopped its children has none to account for, whatever it does with those that
end. -/
theorem accounts_stopAll {grace : Duration} {next : FanOut → List Completion → Task}
    (h : f.Covers isOpen) (hnext : ∀ f taken, (next f taken).Accounts token noneOpen) :
    (f.stopAll (f.collectWithin grace next)).Accounts token isOpen := by
  have hnone : f.Covers noneOpen := ⟨h.sorted, nofun, nofun⟩
  have hcollect : (f.collectWithin grace next).Accounts token noneOpen := by
    refine Task.accounts_ask fun now _ => ?_
    split
    · rw [History.collectUntil_eq]
      exact accounts_takeAll hnone fun f taken _ _ hopen => (hnext f taken).fewer hopen
    · exact Task.accounts_panic _
  exact fun _ _ => hcollect.fewer fun c hc => hc.2 (h.token c hc.1)

theorem accounts_reporting {entry : Option LogEntry} {next : Task} (h : next.Accounts token isOpen) :
    (Task.reporting entry next).Accounts token isOpen := by
  cases entry with
  | none => exact h
  | some e => exact Task.accounts_ask fun _ _ => h

theorem accounts_abandon {owner : String} {next : Task} (h : next.Accounts token isOpen) :
    (f.abandon owner next).Accounts token isOpen := by
  rw [History.abandon_eq]
  exact accounts_reporting h

/-- A fan-out that raises an error stops its children. -/
theorem accounts_raise {owner : String} {grace : Duration} {e : RunError} (h : f.Covers isOpen) :
    (f.raise owner grace e).Accounts token isOpen :=
  accounts_stopAll h fun _ _ => accounts_abandon (Task.accounts_done _)

/-! ### Gathering -/

variable {rules : Rules} {next : Gathered → Task}

theorem accounts_acceptLate {completions : List Completion} {tally : Tally} {next : Tally → Task}
    (hnext : ∀ t, (next t).Accounts token isOpen) :
    (acceptLate rules f completions tally next).Accounts token isOpen := by
  induction completions generalizing tally with
  | nil => exact hnext tally
  | cons c rest ih => exact accounts_reporting ih

theorem accounts_conclude {tally : Tally} (hnext : ∀ g, (next g).Accounts token noneOpen) :
    (conclude tally next).Accounts token noneOpen := by
  unfold conclude
  split
  · exact hnext _
  · exact Task.accounts_done _

theorem accounts_gatherStopped {tally : Tally} (h : f.Covers isOpen)
    (hnext : ∀ g, (next g).Accounts token noneOpen) :
    (f.gatherStopped rules tally next).Accounts token isOpen :=
  accounts_stopAll h fun _ _ => accounts_acceptLate fun _ => accounts_abandon (accounts_conclude hnext)

/-- A gathering ends with all children accounted for. -/
theorem accounts_gather (h : f.Covers isOpen) (hnext : ∀ g, (next g).Accounts ctx.token noneOpen) :
    (f.gather ctx rules next).Accounts ctx.token isOpen := by
  have hgather (count : Nat) (f : FanOut) (tally : Tally) (isOpen : Child → Prop)
      (h : f.Covers isOpen) (hcount : f.outstanding = count) :
      (gatherNext ctx rules next count f tally).Accounts ctx.token isOpen := by
    induction count generalizing f tally isOpen with
    | zero => exact (accounts_conclude hnext).fewer (h.closed hcount)
    | succ count ih =>
      intro a justified
      cases a with
      | none => exact (accounts_gatherStopped h hnext).fewer fun _ => And.left
      | some c =>
        have htaken := h.take (.untilStopped ctx.token) c
        have hleft := h.outstanding_take justified
        dsimp only
        split
        · exact accounts_raise htaken
        · exact accounts_reporting (ih _ _ _ htaken (by omega))
  exact hgather _ f _ isOpen h rfl

end FanOut

/-! ### Races -/

namespace Race

variable {f : FanOut} {isOpen : Child → Prop} {rules : FanOut.Rules} {l : RaceLedger}

theorem accounts_observeAll {onError : RunError → Task} {completions : List Completion}
    {next : RaceLedger → Task} (herror : ∀ e, (onError e).Accounts token isOpen)
    (hnext : ∀ l, (next l).Accounts token isOpen) :
    (observeAll rules f onError completions l next).Accounts token isOpen := by
  induction completions generalizing l with
  | nil => exact hnext l
  | cons c rest ih =>
    unfold observeAll
    split
    · exact herror _
    · exact FanOut.accounts_reporting ih

/-- Whether a race is decided, or stopped before, its children are still covered. -/
theorem accounts_decide {next : FanOut → RaceLedger → Task} {count : Nat} (h : f.Covers isOpen)
    (hnext : ∀ f l isOpen, f.Covers isOpen → (next f l).Accounts ctx.token isOpen) :
    (decide ctx rules next count f l).Accounts ctx.token isOpen := by
  induction count generalizing f l isOpen with
  | zero => exact hnext f l isOpen h
  | succ count ih =>
    intro a _
    cases a with
    | none => exact (hnext f l isOpen h).fewer fun _ => And.left
    | some first =>
      dsimp only
      rw [History.takeFinished_eq]
      refine FanOut.accounts_takeAll (h.take _ first) fun f batch isOpen hf _ => ?_
      refine accounts_observeAll (fun e => FanOut.accounts_raise hf) fun l => ?_
      split
      · exact hnext f l isOpen hf
      · exact ih hf

/-- A race that is over has no child left, or stops those that are left. -/
theorem accounts_settle {next : RaceLedger → Task} (h : f.Covers isOpen)
    (hnext : ∀ l, (next l).Accounts token noneOpen) :
    (settle rules next f l).Accounts token isOpen := by
  unfold settle
  split
  · next hnil => exact (hnext l).fewer (h.closed hnil)
  · refine FanOut.accounts_stopAll h fun _ _ => accounts_observeAll (fun e => ?_) fun l => ?_
    · exact FanOut.accounts_abandon (Task.accounts_done _)
    · exact FanOut.accounts_abandon (hnext l)

end Race

/-! ### Executions -/

namespace Context

variable {r : Runnable} {input : Data}

theorem accounts_execute (h : r.Accounts) :
    (ctx.execute r input).Accounts ctx.token noneOpen :=
  (h ctx input).andThen fun o => Task.accounts_ask fun _ _ => Task.accounts_done o

theorem accounts_run (h : r.Accounts) (limit : Option LimitId) (token : TokenId) :
    (ctx.run r input limit token).Accounts token noneOpen := by
  have hexecute : (execute { ctx with token } r input).Accounts token noneOpen :=
    @accounts_execute { ctx with token } r input h
  cases limit with
  | none => exact hexecute
  | some l =>
    refine Task.accounts_ask fun granted _ => ?_
    cases granted with
    | true => exact hexecute
    | false => exact Task.accounts_done _

end Context

/-- A script starts no child but those of the parts that it calls. -/
theorem Script.CallsOnly.accounts {s : Script} (h : s.CallsOnly Runnable.Accounts) :
    (s.task ctx).Accounts ctx.token noneOpen := by
  induction s with
  | done o => exact Task.accounts_done o
  | endless => trivial
  | look next ih => exact Task.accounts_ask fun stopped _ => ih stopped (h stopped)
  | time next ih => exact Task.accounts_ask fun reading _ => ih reading (h reading)
  | call part input next ih =>
    exact (Context.accounts_execute h.1).andThen fun o => ih o (h.2 o)
  | note => exact h.elim

/-- What calls its parts in sequence starts no child by itself. -/
theorem Runnable.Sequences.accounts {r : Runnable} {part : Runnable → Prop} (h : r.Sequences part)
    (hparts : ∀ x, part x → x.Accounts) : r.Accounts := by
  intro ctx input
  obtain ⟨s, calls, task⟩ := h ctx input
  exact task ▸ (calls.mono hparts).accounts

theorem Task.FansOut.accounts {t : Task} (h : t.FansOut ctx Runnable.Accounts) :
    t.Accounts ctx.token noneOpen := by
  induction h with
  | done o => exact Task.accounts_done o
  | panic p => exact Task.accounts_panic p
  | newLimit _ _ ih => exact Task.accounts_ask fun l _ => ih l
  | gather limit hjobs =>
    refine FanOut.accounts_start (fun job hjob => Context.accounts_run (hjobs job hjob) _) ?_
    exact fun f isOpen hf => FanOut.accounts_gather hf fun _ => Task.accounts_done _
  | race hjobs =>
    refine FanOut.accounts_start (fun job hjob => Context.accounts_run (hjobs job hjob) _) ?_
    refine fun f isOpen hf => Race.accounts_decide hf fun f l isOpen hf => ?_
    exact Race.accounts_settle hf fun _ => Task.accounts_done _

/-- What starts its parts side by side accounts for them. -/
theorem Runnable.FansOut.accounts {r : Runnable} {part : Runnable → Prop} (h : r.FansOut part)
    (hparts : ∀ x, part x → x.Accounts) : r.Accounts :=
  fun ctx input => ((h ctx input).mono hparts).accounts

/-- A part none of whose executions starts a child. -/
def Runnable.Childless (r : Runnable) : Prop :=
  ∀ (ctx : Context) input, (r.next ctx input).Childless

/-- The leaves of the library start nobody. -/
theorem Runnable.OfLibrary.childless {trackers : TrackerId → Prop} {r : Runnable}
    (h : r.OfLibrary trackers) : r.Childless := by
  intro ctx input
  cases h with
  | identity | duplicate | constant | mergeStates | select => trivial
  | sleep | report => exact fun _ => trivial
  | track =>
    unfold Leaf.track
    dsimp only
    split
    · trivial
    · exact fun _ => trivial

/-- Any fan-ins and folds, over the leaves of the library and any others that start nobody. -/
def Parts.childless : Parts where
  leaf r := r.OfLibrary (fun _ => True) ∨ r.Childless
  fanIn _ := True
  combine _ := True
  initial _ := True

/-- A pipeline that is composed of them accounts for its children. -/
theorem Runnable.Composed.accounts {r : Runnable} (composed : r.Composed .childless) :
    r.Accounts := by
  refine composed.of_parts ?_ (fun _ _ h _ => h.accounts) fun _ _ h _ => h.accounts
  exact fun _ allowed ctx input => (allowed.elim OfLibrary.childless id ctx input).accounts

end Orchestra
