import Orchestra.Proofs.Stop.Ensures

/-!
# Accounting for children

A task accounts for its children if it does not end before each of them has ended or has been
stopped, whatever the answers to its requests are. A child that it has started is open until the
task takes its completion or stops its token. The task starts its children below its own token, and
its children account for theirs.
-/

namespace Orchestra

/-- A request with this answer shows that a child has ended, or has stopped it. -/
def Request.Closes (child : Child) : (r : Request) → r.Answer → Prop
  | .stop tokens, _ => child.token ∈ tokens
  | .nextChild pending _, some c =>
    (∃ p ∈ pending, p.index = c.index) ∧ ∀ p ∈ pending, p.index = c.index → p.id = child.id
  | _, _ => False

namespace Task

/-- A task under a token accounts for the children that are open. -/
def Accounts : Task → TokenId → (Child → Prop) → Prop
  | done _, _, isOpen => ∀ c, ¬ isOpen c
  | panic _, _, isOpen => ∀ c, ¬ isOpen c
  | endless, _, _ => True
  | ask r next, token, isOpen =>
    ∀ a, r.Justifies .nothing a →
      (next a).Accounts token fun c => isOpen c ∧ ¬ r.Closes c a
  | spawn name parent body next, token, isOpen =>
    parent = token ∧ (∀ token', (body token').Accounts token' fun _ => False) ∧
      ∀ id token', (next ⟨id, token', name⟩).Accounts token fun c =>
        isOpen c ∨ c = ⟨id, token', name⟩

variable {t : Task} {token : TokenId} {isOpen isOpen' : Child → Prop}

/-- A task that accounts for some children accounts for fewer of them. -/
theorem Accounts.fewer (h : t.Accounts token isOpen) (hopen : ∀ c, isOpen' c → isOpen c) :
    t.Accounts token isOpen' := by
  induction t generalizing isOpen isOpen' with
  | done | panic => exact fun c hc => h c (hopen c hc)
  | endless => trivial
  | ask r next ih => exact fun a ha => ih a (h a ha) fun c => And.imp_left (hopen c)
  | spawn name parent body next _ ih =>
    obtain ⟨hparent, hbody, hnext⟩ := h
    exact ⟨hparent, hbody, fun id token' => ih _ (hnext id token') fun c => Or.imp_left (hopen c)⟩

/-- A task that is over accounts for no child. -/
theorem accounts_done (o : Outcome) : (done o).Accounts token fun _ => False :=
  fun _ => id

theorem accounts_panic (payload : Payload) : (panic payload).Accounts token fun _ => False :=
  fun _ => id

/-- No answer opens a child. -/
theorem accounts_ask {r : Request} {next : r.Answer → Task}
    (h : ∀ a, r.Justifies .nothing a → (next a).Accounts token isOpen) :
    (ask r next).Accounts token isOpen :=
  fun a ha => (h a ha).fewer fun _ => And.left

/-- A task goes on when all its children are accounted for. -/
theorem Accounts.andThen {f : Outcome → Task} (h : t.Accounts token isOpen)
    (hf : ∀ o, (f o).Accounts token fun _ => False) : (t.andThen f).Accounts token isOpen := by
  induction t generalizing isOpen with
  | done o => exact (hf o).fewer h
  | panic => exact h
  | endless => trivial
  | ask r next ih => exact fun a ha => ih a (h a ha)
  | spawn name parent body next _ ih =>
    obtain ⟨hparent, hbody, hnext⟩ := h
    exact ⟨hparent, hbody, fun id token' => ih _ (hnext id token')⟩

/-- A task that starts no child. -/
def Childless : Task → Prop
  | done _ => True
  | panic _ => True
  | endless => True
  | ask _ next => ∀ a, (next a).Childless
  | spawn .. => False

/-- It has none to account for. -/
theorem Childless.accounts (h : t.Childless) : t.Accounts token fun _ => False := by
  induction t with
  | done | panic => exact fun _ => id
  | endless => trivial
  | ask r next ih => exact accounts_ask fun a _ => ih a (h a)
  | spawn => exact h.elim

end Task

/-! ### In a history -/

namespace Tokens

variable {t t' : Tokens} {id : TokenId}

/-- A token that exists, which a stop of itself reaches. -/
def Has (t : Tokens) (id : TokenId) : Prop :=
  id < t.size ∧ id ∈ t.lineage id

theorem Has.grow (has : t.Has id) (h : t.Grows t') : t'.Has id := by
  constructor
  · exact Nat.lt_of_lt_of_le has.1 h.size
  · rw [h.lineage has.1]
    exact has.2

/-- A new token is one. -/
theorem has_addBelow (t : Tokens) (parent : TokenId) : (t.addBelow parent).Has t.size := by
  constructor
  · rw [size_addBelow]
    exact Nat.lt_succ_self _
  · rw [lineage_addBelow]
    exact List.mem_cons_self

/-- It is stopped together with the token that it was made below. -/
theorem isStopped_below {parent : TokenId} (h : (t.addBelow parent).Grows t')
    (hparent : parent < t.size) (hs : t'.isStopped parent = true) :
    t'.isStopped t.size = true := by
  have hlineage : t'.lineage t.size = t.size :: t'.lineage parent := by
    rw [h.lineage (has_addBelow t parent).1, lineage_addBelow,
      ((grows_addBelow t parent).trans h).lineage hparent]
  rw [isStopped, hlineage, List.any_cons]
  exact Bool.or_eq_true_iff.mpr (.inr hs)

theorem Has.isStopped_issueStop (has : t.Has id) : (t.issueStop id).isStopped id = true := by
  have hissued : (t.issueStop id).stopIssued id = true := by
    obtain ⟨token, htoken⟩ := Option.ne_none_iff_exists'.mp
      (mt (t.get?_eq_none_iff id).mp (Nat.not_le_of_lt has.1))
    rw [stopIssued, issueStop, Table.get?_modify, if_pos rfl, htoken]
    rfl
  have hmem := (has.grow (grows_issueStop t id)).2
  exact List.any_eq_true.mpr ⟨id, hmem, hissued⟩

end Tokens

/-- Of the tokens that are stopped one after the other each is stopped. -/
theorem World.isStopped_stop {w : World} {tokens : List TokenId} {token : TokenId}
    (htoken : token ∈ tokens) (has : w.tokens.Has token) :
    (w.stop tokens).isStopped token = true := by
  induction tokens generalizing w with
  | nil => contradiction
  | cons first rest ih =>
    rcases List.mem_cons.mp htoken with rfl | hrest
    · have hstopped : (w.stopOne token).isStopped token = true := by
        rw [isStopped, (same_stopOne w token).tokens]
        exact has.isStopped_issueStop
      exact (steady_stop (w.stopOne token) rest).later.stopped token hstopped
    · exact ih hrest (has.grow (steady_stopOne w first).tokens)

namespace History

variable {h : History} {task : TaskId}

/-- A child is settled if it has ended or its token is stopped. -/
def Settled (h : History) (m : Nat) (c : Child) : Prop :=
  (h.ended? m c.id).isSome ∨ (h.world m).isStopped c.token = true

theorem Settled.later {m k : Nat} {c : Child} (hc : h.Settled m c) (hmk : m ≤ k) :
    h.Settled k c := by
  have hlater := h.later_of_le hmk
  rcases hc with hended | hstopped
  · obtain ⟨e, he⟩ := Option.isSome_iff_exists.mp hended
    exact .inl (Option.isSome_iff_exists.mpr ⟨e, hlater.ended c.id e he⟩)
  · exact .inr (hlater.stopped c.token hstopped)

/-- A child that an answer closes is settled. -/
theorem Answers.settled {m k : Nat} {r : Request} {a : r.Answer} {c : Child}
    (answers : h.Answers task m r k a) (closes : r.Closes c a)
    (has : (h.world m).tokens.Has c.token) : h.Settled (k + 1) c := by
  cases r with
  | stop tokens =>
    obtain ⟨w, there, hlater⟩ := answers.answer
    cases there
    have has' := has.grow (h.later_of_le answers.le).tokens
    exact .inr (hlater.stopped c.token (World.isStopped_stop closes has'))
  | nextChild pending patience =>
    cases a with
    | none => exact closes.elim
    | some done =>
      obtain ⟨q, hq, hindex, place, hended⟩ :=
        World.exists_of_firstCompletion? answers.nextChild_some
      have hsettled : h.Settled k c := by
        rw [Settled, ← closes.2 q hq hindex, History.ended?, hended]
        exact .inl rfl
      exact hsettled.later (Nat.le_succ k)
  | _ => exact closes.elim

/-- A child has a token that exists from the moment on at which it is started. -/
theorem has_spawn {m : Nat} {name : String} {parent : TokenId} {body : TokenId → Task}
    (started : ((h.world m).spawn name parent body).2.Later (h.world (m + 1))) :
    (h.world (m + 1)).tokens.Has ((h.world m).spawn name parent body).1.token := by
  have has := Tokens.has_addBelow (h.world m).tokens parent
  rw [← World.tokens_spawn (h.world m) name parent body] at has
  exact has.grow started.tokens

/-- A task whose program at moment `m` is the given one comes to an outcome at moment `m'` and starts
the given children on the way. -/
inductive Forks (h : History) (task : TaskId) :
    Nat → Task → List Child → Nat → Outcome → Prop where
  | done (m : Nat) (o : Outcome) : Forks h task m (.done o) [] m o
  | ask {m k m' : Nat} {r : Request} {next : r.Answer → Task} {a : r.Answer} {cs : List Child}
      {o : Outcome} (answers : h.Answers task m r k a)
      (rest : Forks h task (k + 1) (next a) cs m' o) : Forks h task m (.ask r next) cs m' o
  | spawn {m m' : Nat} {name : String} {parent : TokenId} {body : TokenId → Task}
      {next : Child → Task} {cs : List Child} {o : Outcome}
      (started : ((h.world m).spawn name parent body).2.Later (h.world (m + 1)))
      (rest : Forks h task (m + 1) (next ((h.world m).spawn name parent body).1) cs m' o) :
      Forks h task m (.spawn name parent body next) (((h.world m).spawn name parent body).1 :: cs)
        m' o

/-- Every run starts some children. -/
theorem Runs.forks {m m' : Nat} {t : Task} {es : List Exchange} {o : Outcome}
    (run : h.Runs task m t es m' o) : ∃ cs, h.Forks task m t cs m' o := by
  induction run with
  | done m o => exact ⟨[], .done m o⟩
  | ask answers _ ih =>
    obtain ⟨cs, forks⟩ := ih
    exact ⟨cs, .ask answers forks⟩
  | spawn started _ _ ih =>
    obtain ⟨cs, forks⟩ := ih
    exact ⟨_, .spawn started forks⟩

theorem Forks.le {m m' : Nat} {t : Task} {cs : List Child} {o : Outcome}
    (forks : h.Forks task m t cs m' o) : m ≤ m' := by
  induction forks with
  | done => exact Nat.le_refl _
  | ask answers _ ih => exact Nat.le_trans answers.le (Nat.le_of_succ_le ih)
  | spawn _ _ ih => exact Nat.le_of_succ_le ih

/-- A run of a task that goes on after another has a run of the other in it. -/
theorem Forks.first {m m' : Nat} {t : Task} {f : Outcome → Task} {cs : List Child} {o : Outcome}
    (forks : h.Forks task m (t.andThen f) cs m' o) :
    ∃ cs₁ m₁ o₁, cs₁ <+: cs ∧ h.Forks task m t cs₁ m₁ o₁ := by
  induction t generalizing m cs with
  | done o₁ => exact ⟨[], m, o₁, List.nil_prefix, .done m o₁⟩
  | panic | endless => nomatch forks
  | ask r next ih =>
    cases forks with
    | ask answers rest =>
      obtain ⟨cs₁, m₁, o₁, hprefix, forks₁⟩ := ih _ rest
      exact ⟨cs₁, m₁, o₁, hprefix, .ask answers forks₁⟩
  | spawn name parent body next _ ih =>
    cases forks with
    | spawn started rest =>
      obtain ⟨cs₁, m₁, o₁, hprefix, forks₁⟩ := ih _ rest
      exact ⟨_, m₁, o₁, List.cons_prefix_cons.mpr ⟨rfl, hprefix⟩, .spawn started forks₁⟩

/-- At the end of a run that accounts for its children each of them is settled. -/
theorem Forks.settled {m m' : Nat} {t : Task} {cs : List Child} {o : Outcome} {token : TokenId}
    {isOpen : Child → Prop} (forks : h.Forks task m t cs m' o) (accounts : t.Accounts token isOpen)
    (has : ∀ c, isOpen c → (h.world m).tokens.Has c.token) (c : Child)
    (hc : isOpen c ∨ c ∈ cs) : h.Settled m' c := by
  induction forks generalizing isOpen with
  | done => exact absurd (hc.resolve_right List.not_mem_nil) (accounts c)
  | @ask m k m' r next a cs o answers rest ih =>
    have hgrows := (h.later_of_le (Nat.le_succ_of_le answers.le)).tokens
    by_cases hclosed : isOpen c ∧ r.Closes c a
    · exact (answers.settled hclosed.2 (has c hclosed.1)).later rest.le
    · refine ih (accounts a (answers.justifies (Known.holds_nothing h _) (Nat.le_refl _)).2)
        (fun c hc => (has c hc.1).grow hgrows) ?_
      exact hc.imp_left fun hopen => ⟨hopen, fun hcloses => hclosed ⟨hopen, hcloses⟩⟩
  | @spawn m m' name parent body next cs o started rest ih =>
    have hgrows := (h.later_of_le (Nat.le_succ m)).tokens
    refine ih (accounts.2.2 _ _) (fun c hc => ?_) ?_
    · rcases hc with hopen | rfl
      · exact (has c hopen).grow hgrows
      · exact has_spawn started
    · rcases hc with hopen | hmem
      · exact .inl (.inl hopen)
      · exact (List.mem_cons.mp hmem).imp_left .inr

end History

end Orchestra
