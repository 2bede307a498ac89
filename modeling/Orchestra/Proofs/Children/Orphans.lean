import Orchestra.Proofs.Children.Parts
import Orchestra.Proofs.World.Alone

/-!
# No orphans

When a run has finished, everybody whom it has started, directly or through others, has ended or runs
under a stopped token. A child that its parent has left behind was stopped, and whoever it starts from
then on is started below a stopped token. So a stop of the finished run reaches nobody who still runs
and had not been stopped before.
-/

namespace Orchestra

namespace Trace

variable {tr : Trace} {task : TaskId} {token : TokenId} {isOpen : Child → Prop}

/-! ### One task -/

/-- What a running program has, and hands on with each answer and each child, a later program of the
same task has. -/
theorem kept {P : Task → Prop}
    (asks : ∀ r (next : r.Answer → Task) a, P (.ask r next) → r.Justifies .nothing a → P (next a))
    (spawns : ∀ name parent body next id token, P (.spawn name parent body next) →
      P (next ⟨id, token, name⟩))
    {m k : Nat} {t t' : Task} (running : (tr.machine m).control = .running task t)
    (hmk : m ≤ k) (running' : (tr.machine k).control = .running task t') (holds : P t) : P t' := by
  obtain ⟨-, hnone, hunwaiting⟩ := (tr.sound_at k).runs task t' running'
  have hsame {m : Nat} {t : Task} (running : (tr.machine m).control = .running task t)
      (hstill : tr.machine k = tr.machine m) : t' = t := by
    rw [hstill, running] at running'
    cases running'
    rfl
  induction t generalizing m with
  | done o =>
    by_cases hstill : tr.machine k = tr.machine m
    · exact hsame running hstill ▸ holds
    · obtain ⟨place, hended⟩ := of_done running hmk hstill
      cases hnone.symm.trans hended
  | panic payload =>
    by_cases hstill : tr.machine k = tr.machine m
    · exact hsame running hstill ▸ holds
    · obtain ⟨place, name, hended⟩ := of_panic running hmk hstill
      cases hnone.symm.trans hended
  | endless =>
    by_cases hstill : tr.machine k = tr.machine m
    · exact hsame running hstill ▸ holds
    · exact absurd running' ((lost_of_endless running hmk hstill).unrunning t')
  | ask r next ih =>
    by_cases hstill : tr.machine k = tr.machine m
    · exact hsame running hstill ▸ holds
    · obtain ⟨j, a, hjk, answers, running, -⟩ :=
        of_ask running hmk hstill fun hs => hunwaiting _ hs rfl
      exact ih a running hjk
        (asks r next a holds
          (answers.justifies (Known.holds_nothing tr.history _) (Nat.le_refl _)).2)
  | spawn name parent body next _ ih =>
    by_cases hstill : tr.machine k = tr.machine m
    · exact hsame running hstill ▸ holds
    · obtain ⟨hlt, -, running, -⟩ := of_spawn running hmk hstill
      exact ih _ running hlt (spawns name parent body next _ _ holds)

section Starts

variable {m i j k : Nat} {t : Task} {c : Child}

theorem Starts.running (starts : tr.Starts m task c) :
    ∃ t, (tr.machine m).control = .running task t := by
  obtain ⟨name, parent, body, next, running, -⟩ := starts
  exact ⟨_, running⟩

/-- A task that is over starts no child, -/
theorem not_starts_of_done {o : Outcome} (running : (tr.machine m).control = .running task (.done o))
    (hmi : m ≤ i) : ¬ tr.Starts i task c := by
  rintro ⟨name, parent, body, next, running', -⟩
  cases kept (P := (· = .done o)) nofun nofun running hmi running' rfl

theorem not_starts_of_panic {payload : Payload}
    (running : (tr.machine m).control = .running task (.panic payload)) (hmi : m ≤ i) :
    ¬ tr.Starts i task c := by
  rintro ⟨name, parent, body, next, running', -⟩
  cases kept (P := (· = .panic payload)) nofun nofun running hmi running' rfl

/-- and none while it waits for an answer. -/
theorem starts_after_answer {r : Request} {next : r.Answer → Task}
    (running : (tr.machine m).control = .running task (.ask r next))
    (hwaits : ∀ i, m < i → i ≤ j →
      (tr.history.world m).waiting task r next ∈ (tr.machine i).world.suspended)
    (hmi : m ≤ i) (starts : tr.Starts i task c) : j < i := by
  obtain ⟨name, parent, body, next', running', -⟩ := starts
  refine Nat.lt_of_not_le fun hij => ?_
  rcases Nat.eq_or_lt_of_le hmi with rfl | hlt
  · cases running.symm.trans running'
  · exact ((tr.sound_at i).runs task _ running').2.2 _ (hwaits i hlt hij) rfl

/-- When a task that accounts for its children has ended, each of them is settled, those that are
open and those that it has started since. -/
theorem settled_of_ended (running : (tr.machine m).control = .running task t)
    (accounts : t.Accounts token isOpen) (hended : (tr.history.ended? k task).isSome)
    (has : ∀ c, isOpen c → (tr.history.world m).tokens.Has c.token)
    (hc : isOpen c ∨ ∃ i, m ≤ i ∧ tr.Starts i task c) : tr.history.Settled k c := by
  induction t generalizing m isOpen with
  | done o =>
    rcases hc with hopen | ⟨i, hi, starts⟩
    · exact absurd hopen (accounts c)
    · exact absurd starts (not_starts_of_done running hi)
  | panic payload =>
    rcases hc with hopen | ⟨i, hi, starts⟩
    · exact absurd hopen (accounts c)
    · exact absurd starts (not_starts_of_panic running hi)
  | endless =>
    rw [of_endless running] at hended
    contradiction
  | ask r next ih =>
    obtain ⟨hmk, hmoved⟩ := moved_of_ended running hended
    obtain ⟨j, a, hjk, answers, running', hwaits⟩ := of_ask running hmk hmoved fun hs => by
      rw [show tr.history.ended? k task = none from ended?_of_waits hs] at hended
      contradiction
    by_cases hclosed : isOpen c ∧ r.Closes c a
    · exact (answers.settled hclosed.2 (has c hclosed.1)).later hjk
    have hgrows := (tr.history.later_of_le (Nat.le_succ_of_le answers.le)).tokens
    refine ih a running'
      (accounts a (answers.justifies (Known.holds_nothing tr.history _) (Nat.le_refl _)).2)
      (fun c hc => (has c hc.1).grow hgrows) ?_
    rcases hc with hopen | ⟨i, hi, starts⟩
    · exact .inl ⟨hopen, fun hcloses => hclosed ⟨hopen, hcloses⟩⟩
    · exact .inr ⟨i, starts_after_answer running hwaits hi starts, starts⟩
  | spawn name parent body next _ ih =>
    obtain ⟨hmk, hmoved⟩ := moved_of_ended running hended
    obtain ⟨-, hworld, running', -⟩ := of_spawn running hmk hmoved
    have hgrows := (tr.history.later_of_le (Nat.le_succ m)).tokens
    have started : ((tr.history.world m).spawn name parent body).2.Later
        (tr.history.world (m + 1)) := hworld ▸ .refl _
    refine ih _ running' (accounts.2.2 _ _) (fun c hc => ?_) ?_
    · rcases hc with hopen | rfl
      · exact (has c hopen).grow hgrows
      · exact History.has_spawn started
    · rcases hc with hopen | ⟨i, hi, starts⟩
      · exact .inl (.inl hopen)
      rcases Nat.eq_or_lt_of_le hi with rfl | hmi
      · obtain ⟨name', parent', body', next', running'', hspawn⟩ := starts
        cases running.symm.trans running''
        exact .inl (.inr (congrArg Prod.fst hspawn).symm)
      · exact .inr ⟨i, hmi, starts⟩

end Starts

/-- A task runs only after it has begun. -/
theorem begun_before {m i : Nat} {w : World} {program t : Task}
    (begun : w.begun program ∈ (tr.machine m).world.suspended) (hmi : m ≤ i)
    (running : (tr.machine i).control = .running w.tasks.size t) :
    ∃ j, j < i ∧ (tr.machine (j + 1)).control = .running w.tasks.size program := by
  obtain ⟨j, answer, w', -, hji, running', -⟩ := resumes begun hmi fun hs =>
    ((tr.sound_at i).runs _ t running).2.2 _ hs rfl
  exact ⟨j, hji, running'⟩

/-- A task of which a trace shows, from a moment on, that it accounts for its children. -/
structure Accounted (tr : Trace) (first : Nat) (task : TaskId) (token : TokenId) : Prop where
  has : (tr.history.world first).tokens.Has token
  accounts : ∀ {i t}, first ≤ i → (tr.machine i).control = .running task t →
    ∃ isOpen, t.Accounts token isOpen
  settled : ∀ {i k c}, first ≤ i → tr.Starts i task c → (tr.history.ended? k task).isSome →
    tr.history.Settled k c

/-- A task is one if it begins with a program that accounts for them. -/
theorem accounted {m : Nat} {w : World} {program : Task}
    (begun : w.begun program ∈ (tr.machine m).world.suspended)
    (has : (tr.history.world m).tokens.Has token) (accounts : program.Accounts token noneOpen) :
    tr.Accounted m w.tasks.size token := by
  constructor
  · exact has
  · intro i t hi running
    obtain ⟨j, hji, running'⟩ := begun_before begun hi running
    refine kept (P := fun t => ∃ isOpen, t.Accounts token isOpen) ?_ ?_ running' hji running
      ⟨noneOpen, accounts⟩
    · rintro r next a ⟨isOpen, h⟩ justified
      exact ⟨_, h a justified⟩
    · rintro name parent body next id token ⟨isOpen, h⟩
      exact ⟨_, h.2.2 id token⟩
  · intro i k c hi starts hended
    obtain ⟨t, running⟩ := starts.running
    obtain ⟨j, hji, running'⟩ := begun_before begun hi running
    exact settled_of_ended running' accounts hended nofun (.inr ⟨i, hji, starts⟩)

/-- A child that is started by such a task is one, and is stopped together with it. -/
theorem Accounted.child {first i : Nat} {c : Child} (accounted : tr.Accounted first task token)
    (hi : first ≤ i) (starts : tr.Starts i task c) :
    tr.Accounted (i + 1) c.id c.token ∧ ∀ k, i < k →
      (tr.history.world k).isStopped token = true →
        (tr.history.world k).isStopped c.token = true := by
  obtain ⟨name, parent, body, next, running, hspawn⟩ := starts
  obtain ⟨isOpen, rfl, hbody, -⟩ := accounted.accounts hi running
  have hworld : tr.history.world (i + 1) = ((tr.history.world i).spawn name parent body).2 :=
    (congrArg Prod.snd hspawn).symm
  obtain rfl : ((tr.history.world i).spawn name parent body).1 = c := congrArg Prod.fst hspawn
  have hbegun : (tr.history.world i).begun (body (tr.history.world i).tokens.size) ∈
      (tr.machine (i + 1)).world.suspended := by
    rw [show (tr.machine (i + 1)).world = _ from hworld, (World.spawn_keeps _ _ _ _).2.2]
    exact List.mem_append_right _ List.mem_cons_self
  refine ⟨Trace.accounted hbegun (History.has_spawn (hworld ▸ .refl _)) (hbody _),
    fun k hik hstopped => ?_⟩
  have hgrows := (tr.history.later_of_le (Nat.succ_le_of_lt hik)).tokens
  rw [hworld, World.tokens_spawn] at hgrows
  exact Tokens.isStopped_below hgrows
    (accounted.has.grow (tr.history.later_of_le hi).tokens).1 hstopped

/-- When the task has ended, all that it has started, directly or through others, is settled. -/
theorem Accounted.below {first i k : Nat} {c : Child} (accounted : tr.Accounted first task token)
    (hended : (tr.history.ended? k task).isSome) (below : tr.Below first task i c) (hik : i < k) :
    tr.history.Settled k c := by
  have hbelow : tr.Accounted (i + 1) c.id c.token ∧ (i < k → tr.history.Settled k c) := by
    clear hik
    induction below with
    | child le starts =>
      exact ⟨(accounted.child le starts).1, fun _ => accounted.settled le starts hended⟩
    | @deeper i j p c _ hij starts ih =>
      obtain ⟨hp, hsettled⟩ := ih
      obtain ⟨hc, hstopped⟩ := hp.child hij starts
      refine ⟨hc, fun hjk => ?_⟩
      rcases hsettled (Nat.lt_trans hij hjk) with hended | hpstopped
      · exact hp.settled hij starts hended
      · exact .inr (hstopped k hjk hpstopped)
  exact hbelow.2 hik

end Trace

/-- When a pipeline of the library's composites over leaves that start nobody has run, each child that
it has started itself has ended or is stopped. When the task that began with it, under a token of its
own or of a context, has ended, however it has, this is so of all that were started below it, and a
stop of its token then stops nobody who has not ended. -/
theorem Runnable.Composed.no_orphans {r : Runnable} (composed : r.Composed .childless) :
    (∀ (ctx : Context) (input : Data) (h : History) (task : TaskId) (m m' : Nat) (cs : List Child)
        (o : Outcome), h.Forks task m (r.next ctx input) cs m' o → ∀ c ∈ cs, h.Settled m' c) ∧
      ∀ (ctx : Context) (input : Data) (limit : Option LimitId) (token : TokenId) (tr : Trace)
        (w : World) (m k : Nat),
        w.begun (ctx.run r input limit token) ∈ (tr.history.world m).suspended →
        (tr.history.world m).tokens.Has token →
        (tr.history.ended? k w.tasks.size).isSome →
        ∀ i c, tr.Below m w.tasks.size i c → i < k →
          tr.history.Settled k c ∧ (tr.history.ended? k c.id = none →
            ((tr.history.world k).stop [token]).isStopped c.token =
              (tr.history.world k).isStopped c.token) := by
  constructor
  · intro ctx input h task m m' cs o forks c hc
    exact forks.settled (composed.accounts ctx input) nofun c (.inr hc)
  · intro ctx input limit token tr w m k begun has hended i c below hik
    have accounts : (ctx.run r input limit token).Accounts token noneOpen :=
      Context.accounts_run composed.accounts limit token
    have hsettled := (Trace.accounted begun has accounts).below hended below hik
    refine ⟨hsettled, fun hnone => ?_⟩
    have hstopped : (tr.history.world k).isStopped c.token = true :=
      hsettled.resolve_left (Option.not_isSome_iff_eq_none.mpr hnone)
    rw [hstopped]
    exact (World.steady_stop _ [token]).later.stopped c.token hstopped

/-- A child that runs on whether it is stopped or not. -/
def heedlessBranches : Branches :=
  ⟨[Leaf.stubborn (.ofMillis 200) .zero], .collect, none, none, false⟩

/-- A race that a delay wins against it. -/
def orphaning : Race :=
  ⟨[Leaf.sleep (.ofMillis 10), heedlessBranches.runnable], .collect, none, none⟩

theorem childless_stubborn (delay : Duration) (energy : Double) :
    (Leaf.stubborn delay energy).Childless := by
  intro ctx input _
  dsimp only
  split <;> trivial

theorem composed_orphaning : orphaning.runnable.Composed .childless := by
  have hbranches : heedlessBranches.runnable.Composed .childless :=
    .branches (List.forall_mem_singleton.mpr (.leaf (.inr (childless_stubborn (.ofMillis 200) .zero)))) trivial
  refine .race (List.forall_mem_cons.mpr ⟨.leaf (.inl (.sleep (.ofMillis 10))), ?_⟩) trivial
  exact List.forall_mem_singleton.mpr hbranches

/-- The race in a session of its own. -/
def orphaningTrace : Trace :=
  .fresh [Context.run ⟨0, .default, 0⟩ orphaning.runnable (.one .empty) none]

/-- When the race is over, the branches that have lost it still run, and so does their child. Both are
stopped, the child since its parent is. -/
theorem no_orphans_of_orphaning :
    let h := orphaningTrace.history
    (∃ cs m' o, h.Forks 0 2 (orphaning.runnable.next ⟨1, .default, 0⟩ (.one .empty)) cs m' o ∧
      ∀ c ∈ cs, h.Settled m' c) ∧
    (h.ended? 41 0).isSome ∧
    ∃ c c', orphaningTrace.Below 0 0 3 c ∧ orphaningTrace.Starts 10 c.id c' ∧
      h.ended? 41 c.id = none ∧ h.ended? 41 c'.id = none ∧
      (h.world 41).isStopped c.token = true ∧ (h.world 41).isStopped c'.token = true ∧
      ((h.world 41).stop [1]).isStopped c'.token = (h.world 41).isStopped c'.token := by
  intro h
  obtain ⟨hexecution, hrun⟩ := composed_orphaning.no_orphans
  have hended : (h.ended? 41 0).isSome := by with_unfolding_all rfl
  refine ⟨?_, hended, ?_⟩
  · have hrunning : (orphaningTrace.machine 2).control = .running 0
        (Context.execute ⟨1, .default, 0⟩ orphaning.runnable (.one .empty)) := by
      with_unfolding_all rfl
    have hresult : h.ended? 41 0 = some (11, .ok (.many ⟨[.empty], []⟩)) := by
      with_unfolding_all rfl
    obtain ⟨es, m', run⟩ := (Trace.runs hrunning hresult).resolve_right nofun
    obtain ⟨cs, forks⟩ := run.forks
    obtain ⟨cs₁, m₁, o₁, -, forks₁⟩ := forks.first
    exact ⟨cs₁, m₁, o₁, forks₁, hexecution _ _ h 0 2 m₁ cs₁ o₁ forks₁⟩
  · have hfirst : orphaningTrace.Below 0 0 3 ⟨2, 3, heedlessBranches.runnable.name⟩ :=
      .child (Nat.zero_le 3) ⟨_, _, _, _, by with_unfolding_all rfl, by with_unfolding_all rfl⟩
    have hsecond : orphaningTrace.Starts 10 2 ⟨3, 4, "Stubborn"⟩ :=
      ⟨_, _, _, _, by with_unfolding_all rfl, by with_unfolding_all rfl⟩
    have hnone : h.ended? 41 2 = none ∧ h.ended? 41 3 = none := by
      constructor <;> with_unfolding_all rfl
    have hbelow := hrun ⟨0, .default, 0⟩ (.one .empty) none 1 orphaningTrace
      (Session.ofConfig .default).world 0 41 List.mem_cons_self (Tokens.has_addBelow _ 0) hended
    obtain ⟨hsettled, -⟩ := hbelow 3 _ hfirst (by decide)
    obtain ⟨hsettled', hstop⟩ := hbelow 10 _ (.deeper hfirst (by decide) hsecond) (by decide)
    refine ⟨_, _, hfirst, hsecond, hnone.1, hnone.2, ?_, ?_, hstop hnone.2⟩
    · exact hsettled.resolve_left (Option.not_isSome_iff_eq_none.mpr hnone.1)
    · exact hsettled'.resolve_left (Option.not_isSome_iff_eq_none.mpr hnone.2)

end Orchestra
