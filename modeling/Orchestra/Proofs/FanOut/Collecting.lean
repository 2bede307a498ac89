import Orchestra.FanOut.Gather
import Orchestra.Proofs.FanOut.Endings
import Orchestra.Proofs.World.History

/-!
# Taking completions in a history

The parts of which fan-outs are made, as they run in a history: requests that are answered at once,
the start of the children, and the loop that takes completions up to an instant. Each lemma splits
the run of a part with a continuation into the exchanges of the part and the run of the
continuation. What the loop has taken are the completions of the moment of its last look.
-/

namespace Orchestra

/-- Whether a gathering notices a stop of its context here: it waits for a child, none has ended that
it has not taken yet, and the token is stopped. -/
def Exchange.seesStop (token : TokenId) : Exchange → Bool
  | ⟨_, .nextChild _ (.untilStopped t), none⟩ => t = token
  | _ => false

/-- Whether a race ends a turn here: it looks for children that have ended as well, and finds no more
of them. -/
def Exchange.endsTurn : Exchange → Bool
  | ⟨_, .nextChild _ .none, none⟩ => true
  | _ => false

/-- In these exchanges no stop is noticed and no turn ends. -/
def Quiet (es : List Exchange) : Prop :=
  ∀ x ∈ es, (∀ token, x.seesStop token = false) ∧ x.endsTurn = false

theorem quiet_nil : Quiet [] := by
  intro x hx
  contradiction

theorem Quiet.cons {x : Exchange} {es : List Exchange} (hes : Quiet es)
    (hx : (∀ token, x.seesStop token = false) ∧ x.endsTurn = false) : Quiet (x :: es) :=
  List.forall_mem_cons.mpr ⟨hx, hes⟩

theorem Quiet.append {es es' : List Exchange} (h : Quiet es) (h' : Quiet es') :
    Quiet (es ++ es') :=
  List.forall_mem_append.mpr ⟨h, h'⟩

theorem Instant.after?_eq_some {instant due : Nat} {span : Duration} :
    Instant.after? instant span = some due ↔
      instant + span.nanos < Instant.limit ∧ instant + span.nanos = due := by
  unfold Instant.after?
  split
  · next hlt => exact Option.some_inj.trans (and_iff_right hlt).symm
  · next hge => exact iff_of_false nofun fun h => hge h.1

namespace History

variable {h : History} {heeded : TokenId → Prop} {task : TaskId} {m m' : Nat} {es : List Exchange}
  {o : Outcome}

/-! ### Requests that are answered at once -/

/-- A request that always has an answer is answered at the moment at which it is made. -/
theorem runs_ask_now {r : Request} {next : r.Answer → Task} {a : r.Answer} {w : World}
    (there : (h.world m).answer? task ((h.world m).deadline? r) r = some (a, w)) :
    h.Runs task m (.ask r next) es m' o →
      ∃ es', es = ⟨m, r, a⟩ :: es' ∧ h.clock (m + 1) = h.clock m ∧ w.Later (h.world (m + 1)) ∧
        h.Runs task (m + 1) (next a) es' m' o := by
  intro run
  obtain ⟨k, a', es', rfl, answers, rest⟩ := runs_ask_iff.mp run
  obtain ⟨rfl, rfl⟩ := answers.at_once there
  obtain ⟨w', hw', hlater⟩ := answers.answer
  rw [there] at hw'
  cases hw'
  exact ⟨es', rfl, answers.atOnce, hlater, rest⟩

/-- A report is a request of this kind, and made in the same way whatever follows. -/
theorem runs_reporting {entry : Option LogEntry} {next : Task}
    (run : h.Runs task m (Task.reporting entry next) es m' o) :
    ∃ m₁ es₀ es₁, es = es₀ ++ es₁ ∧ Quiet es₀ ∧ m ≤ m₁ ∧ h.clock m₁ = h.clock m ∧
      h.Runs task m₁ next es₁ m' o ∧
      (∀ e, entry = some e → ⟨m, .log e, ()⟩ ∈ es₀) ∧
      ∀ next', h.Runs task m₁ next' es₁ m' o →
        h.Runs task m (Task.reporting entry next') es m' o := by
  cases entry with
  | none =>
    exact ⟨m, [], es, rfl, quiet_nil, Nat.le_refl m, rfl, run, fun _ he => by contradiction,
      fun _ run' => run'⟩
  | some e =>
    obtain ⟨k, a, es', rfl, answers, rest⟩ := runs_ask_iff.mp run
    obtain ⟨rfl, rfl⟩ : k = m ∧ a = () := answers.at_once rfl
    refine ⟨k + 1, [⟨k, .log e, ()⟩], es', rfl, quiet_nil.cons ⟨fun _ => rfl, rfl⟩, Nat.le_succ k,
      answers.atOnce, rest, fun e' he' => ?_, fun _ run' => .ask answers run'⟩
    cases he'
    exact List.mem_singleton.mpr rfl

theorem not_stuck_reporting {entry : Option LogEntry} {next : Task}
    (rest : ∀ m₁, m ≤ m₁ → h.clock m₁ = h.clock m → ¬ h.Stuck heeded task m₁ next) :
    ¬ h.Stuck heeded task m (Task.reporting entry next) := by
  cases entry with
  | none => exact rest m (Nat.le_refl m) rfl
  | some e => exact not_stuck_ask_now rfl fun atOnce => rest (m + 1) (Nat.le_succ m) atOnce

/-! ### Waiting for children -/

/-- A completion that is taken is the first of those to be seen. -/
theorem Answers.nextChild_some {pending : List Pending} {patience : Patience} {k : Nat}
    {c : Completion} (answers : h.Answers task m (.nextChild pending patience) k (some c)) :
    (h.world k).firstCompletion? pending = some c := by
  obtain ⟨w, hw, -⟩ := answers.answer
  simp only [World.answer?] at hw
  split at hw
  · next c' hc =>
    cases hw
    exact hc
  · split at hw <;> cases hw

/-- Without a completion no pending child has ended, and there is none or patience is over. -/
theorem Answers.nextChild_none {pending : List Pending} {patience : Patience} {k : Nat}
    (answers : h.Answers task m (.nextChild pending patience) k none) :
    (∀ p ∈ pending, h.ended? k p.id = none) ∧
      (pending.isEmpty || (h.world k).patienceOver patience) = true := by
  obtain ⟨w, hw, -⟩ := answers.answer
  simp only [World.answer?] at hw
  split at hw
  · cases hw
  · next hc =>
    split at hw
    · next hover => exact ⟨World.firstCompletion?_eq_none.mp hc, hover⟩
    · contradiction

/-- No time passes between the ending of a child and the answer to whoever waits for it by then. -/
theorem Answers.clock_le_of_ended {pending : List Pending} {patience : Patience} {k j : Nat}
    {a : Option Completion} (answers : h.Answers task m (.nextChild pending patience) k a) {q : Pending}
    (hq : q ∈ pending) (hended : (h.ended? j q.id).isSome) :
    h.clock (k + 1) ≤ max (h.clock m) (h.clock j) := by
  have hthere (i : Nat) (hji : j ≤ i) :
      (h.world i).childEnded (.nextChild pending patience) = true := by
    cases hfirst : (h.world i).firstCompletion? pending with
    | some c => rw [World.childEnded, hfirst]; rfl
    | none =>
      have hlt := lt_of_ended? (World.firstCompletion?_eq_none.mp hfirst q hq) hended
      exact absurd hji (Nat.not_le_of_lt hlt)
  by_cases hkj : k < j
  · exact Nat.le_trans (h.clock_mono hkj) (Nat.le_max_right _ _)
  · have hle : j ≤ k := Nat.le_of_not_lt hkj
    rcases Nat.le_total m j with hmj | hjm
    · rw [answers.clock_eq hmj hle fun i hi _ => hthere i hi]
      exact Nat.le_max_right _ _
    · rw [answers.clock_eq (Nat.le_refl m) answers.le fun i hi _ => hthere i (Nat.le_trans hjm hi)]
      exact Nat.le_max_left _ _

/-- So whoever waits for children that have all ended waits no longer than for the last of them. -/
theorem Answers.clock_le_of_all_ended {pending : List Pending} {patience : Patience} {k j : Nat}
    {a : Option Completion} (answers : h.Answers task m (.nextChild pending patience) k a)
    (hended : ∀ q ∈ pending, (h.ended? j q.id).isSome) :
    h.clock (k + 1) ≤ max (h.clock m) (h.clock j) := by
  cases pending with
  | nil =>
    obtain ⟨rfl, -⟩ := answers.at_once rfl
    rw [answers.atOnce]
    exact Nat.le_max_left _ _
  | cons q rest => exact answers.clock_le_of_ended List.mem_cons_self (hended q List.mem_cons_self)

/-- Whoever waits for nobody, or for children of which one ends, is served. -/
theorem served_of_ended {pending : List Pending} (patience : Patience) {final : Nat}
    (hended : pending = [] ∨ ∃ p ∈ pending, (h.ended? final p.id).isSome) :
    h.Served heeded task (.nextChild pending patience) final := by
  intro m
  rcases hended with rfl | ⟨p, hp, hsome⟩
  · exact .inl rfl
  · refine .inr (.inl ?_)
    cases hfirst : (h.world (max m final)).firstCompletion? pending with
    | some c =>
      rw [World.childEnded, hfirst]
      rfl
    | none =>
      have hlt := lt_of_ended? (World.firstCompletion?_eq_none.mp hfirst p hp) hsome
      exact absurd (Nat.le_max_right m final) (Nat.not_le_of_lt hlt)

theorem served_of_all_ended {pending : List Pending} (patience : Patience) {final : Nat}
    (hended : ∀ p ∈ pending, (h.ended? final p.id).isSome) :
    h.Served heeded task (.nextChild pending patience) final := by
  have hsome : pending = [] ∨ ∃ p ∈ pending, (h.ended? final p.id).isSome := by
    cases pending with
    | nil => exact .inl rfl
    | cons p rest => exact .inr ⟨p, List.mem_cons_self, hended p List.mem_cons_self⟩
  exact served_of_ended patience hsome

/-- Whoever looks for what is there already is served. -/
theorem served_none (pending : List Pending) (n : Nat) :
    h.Served heeded task (.nextChild pending .none) n := by
  refine fun m => .inl ?_
  simp only [World.answer?]
  split
  · rfl
  · simp [World.patienceOver]

/-- Whoever waits until a time that comes is served. -/
theorem served_untilDue (pending : List Pending) {instant final : Nat}
    (htime : instant ≤ h.clock final) :
    h.Served heeded task (.nextChild pending (.untilDue instant)) final :=
  fun m => .inr (.inr (.inl (decide_eq_true
    (Nat.le_trans htime (h.clock_mono (Nat.le_max_right m final))))))

/-- Whoever waits until a stop that comes and is heeded is served. -/
theorem served_untilStopped (pending : List Pending) {token : TokenId} {final : Nat}
    (hheeded : heeded token) (hstopped : (h.world final).isStopped token = true) :
    h.Served heeded task (.nextChild pending (.untilStopped token)) final := by
  refine fun m => .inr (.inr (.inr ⟨token, hheeded, decide_eq_true rfl, ?_⟩))
  exact (h.later_of_le (Nat.le_max_right m final)).stopped token hstopped

/-! ### Starting children -/

/-- The number of the child that is started `i` moments after the given one. -/
def childAt (h : History) (m i : Nat) : TaskId :=
  (h.world (m + i)).tasks.size

/-- The pending children of a fan-out whose children are started from a moment on. -/
def startedAt (h : History) (m n : Nat) : List Pending :=
  (List.range n).map fun i => ⟨i, h.childAt m i⟩

/-- A child has not ended before the first of the children is started. -/
theorem ended?_childAt (h : History) (m i : Nat) : h.ended? m (h.childAt m i) = none := by
  refine ended?_eq_none (Nat.le_add_right m i) ?_
  rw [ended?, World.ended?, childAt, (Table.get?_eq_none_iff _ _).mpr (Nat.le_refl _)]
  rfl

/-- So no time passes before it ends. -/
theorem clock_le_of_ended {m i k : Nat} (hended : (h.ended? k (h.childAt m i)).isSome) :
    h.clock m ≤ h.clock k :=
  h.clock_mono (Nat.le_of_lt (lt_of_ended? (h.ended?_childAt m i) hended))

/-- The children of runnables that are started one after the other from a moment on. -/
def childrenOf (h : History) (ctx : Context) (limit : Option LimitId) :
    Nat → List (Runnable × Data) → List Child
  | _, [] => []
  | m, (r, input) :: jobs => ((h.world m).spawn r.name ctx.token (ctx.run r input limit)).1 ::
      childrenOf h ctx limit (m + 1) jobs

/-- The fan-out of these children. -/
def fanOutOf (h : History) (ctx : Context) (limit : Option LimitId) (m : Nat)
    (jobs : List (Runnable × Data)) : FanOut :=
  .ofChildren (h.childrenOf ctx limit m jobs)

/-- A fan-out that has just been started, with the names of its children. -/
structure Started (h : History) (m : Nat) (names : List String) (f : FanOut) : Prop where
  named : f.children.map Child.name = names
  waits : f.pending = h.startedAt m names.length

section Start

variable {ctx : Context} {limit : Option LimitId} {jobs : List (Runnable × Data)}

theorem started_fanOutOf (ctx : Context) (limit : Option LimitId) (m : Nat)
    (jobs : List (Runnable × Data)) :
    h.Started m (jobs.map (·.1.name)) (h.fanOutOf ctx limit m jobs) := by
  have hchildren : (h.childrenOf ctx limit m jobs).map Child.name = jobs.map (·.1.name) ∧
      ∀ i (hi : i < (h.childrenOf ctx limit m jobs).length),
        (h.childrenOf ctx limit m jobs)[i].id = h.childAt m i := by
    induction jobs generalizing m with
    | nil => exact ⟨rfl, fun i hi => absurd hi (Nat.not_lt_zero i)⟩
    | cons job jobs ih =>
      obtain ⟨hnames, hids⟩ := ih (m + 1)
      refine ⟨by rw [childrenOf, List.map_cons, hnames]; rfl, fun i hi => ?_⟩
      cases i with
      | zero => rfl
      | succ i =>
        refine (hids i (Nat.lt_of_succ_lt_succ hi)).trans ?_
        rw [childAt, childAt, Nat.add_assoc, Nat.add_comm 1 i]
  refine ⟨hchildren.1, ?_⟩
  rw [← hchildren.1, List.length_map]
  refine List.ext_getElem (by simp [fanOutOf, FanOut.ofChildren, startedAt]) fun i hi _ => ?_
  simp only [fanOutOf, FanOut.ofChildren, List.length_mapIdx] at hi
  simp [fanOutOf, FanOut.ofChildren, startedAt, hchildren.2 i hi]

/-- Whatever holds of a program that starts a child holds a moment later of what follows it. So it does of
what follows the start of a fan-out, one moment a child later. -/
theorem of_start {Q : Nat → Task → Task → Prop}
    (spawn : ∀ {m : Nat} {name : String} {parent : TokenId} {body : TokenId → Task}
      {next next' : Child → Task}, Q m (.spawn name parent body next) (.spawn name parent body next') →
      Q (m + 1) (next ((h.world m).spawn name parent body).1)
        (next' ((h.world m).spawn name parent body).1))
    {next : FanOut → Task} (next' : FanOut → Task)
    (q : Q m (FanOut.start ctx limit jobs next) (FanOut.start ctx limit jobs next')) :
    Q (m + jobs.length) (next (h.fanOutOf ctx limit m jobs))
      (next' (h.fanOutOf ctx limit m jobs)) := by
  have hall (m : Nat) (next next' : List Child → Task)
      (q : Q m (FanOut.startAll ctx limit jobs next) (FanOut.startAll ctx limit jobs next')) :
      Q (m + jobs.length) (next (h.childrenOf ctx limit m jobs))
        (next' (h.childrenOf ctx limit m jobs)) := by
    clear * - spawn q
    induction jobs generalizing m next next' with
    | nil => exact q
    | cons job jobs ih =>
      have hq := ih (m + 1) _ _ (spawn q)
      rwa [show m + 1 + jobs.length = m + (job :: jobs).length by rw [List.length_cons]; omega] at hq
  exact hall m _ _ q

/-- Starting takes one moment a child and no time, and goes in the same way whatever follows. -/
theorem runs_start {next : FanOut → Task}
    (run : h.Runs task m (FanOut.start ctx limit jobs next) es m' o) :
    ∃ f, h.Started m (jobs.map (·.1.name)) f ∧ h.clock (m + jobs.length) = h.clock m ∧
      h.Runs task (m + jobs.length) (next f) es m' o ∧
      ∀ next' : FanOut → Task, h.Runs task (m + jobs.length) (next' f) es m' o →
        h.Runs task m (FanOut.start ctx limit jobs next') es m' o := by
  have hstart (next' : FanOut → Task) := of_start (h := h)
    (Q := fun k t t' => h.clock k = h.clock m ∧ h.Runs task k t es m' o ∧
      (h.Runs task k t' es m' o → h.Runs task m (FanOut.start ctx limit jobs next') es m' o))
    (fun ⟨hclock, run, hany⟩ => by
      obtain ⟨started, atOnce, rest⟩ := runs_spawn_iff.mp run
      exact ⟨atOnce.trans hclock, rest, fun rest' => hany (.spawn started atOnce rest')⟩)
    next' ⟨rfl, run, id⟩
  exact ⟨_, started_fanOutOf ctx limit m jobs, (hstart next).1, (hstart next).2.1,
    fun next' => (hstart next').2.2⟩

theorem not_stuck_start {next : FanOut → Task}
    (rest : ∀ f, h.Started m (jobs.map (·.1.name)) f → h.clock (m + jobs.length) = h.clock m →
      ¬ h.Stuck heeded task (m + jobs.length) (next f)) :
    ¬ h.Stuck heeded task m (FanOut.start ctx limit jobs next) := by
  intro stuck
  obtain ⟨hclock, stuck'⟩ := of_start (h := h)
    (Q := fun k t _ => h.clock k = h.clock m ∧ h.Stuck heeded task k t)
    (fun ⟨hclock, stuck⟩ => by
      cases stuck with
      | spawn atOnce stuck => exact ⟨atOnce.trans hclock, stuck⟩)
    next ⟨rfl, stuck⟩
  exact rest _ (started_fanOutOf ctx limit m jobs) hclock stuck'

end Start

namespace Started

variable {names : List String} {f : FanOut}

/-- The children of a fan-out wait in declared order. -/
theorem sorted (start : h.Started m names f) : f.Sorted := by
  unfold FanOut.Sorted
  rw [start.waits, startedAt, List.pairwise_map]
  exact List.pairwise_lt_range

theorem outstanding (start : h.Started m names f) : f.outstanding = names.length := by
  rw [FanOut.outstanding, start.waits, startedAt, List.length_map, List.length_range]

theorem size (start : h.Started m names f) : f.size = names.length := by
  rw [FanOut.size, ← start.named, List.length_map]

/-- The name under which the failure of a child is recorded. -/
theorem name (start : h.Started m names f) {i : Nat} (hi : i < names.length) :
    f.name i = names[i] := by
  have hi' : i < f.children.length := by
    rw [← start.named, List.length_map] at hi
    exact hi
  have hname : names[i]? = some f.children[i].name := by
    rw [← start.named, List.getElem?_map, List.getElem?_eq_getElem hi']
    rfl
  rw [FanOut.name, List.getElem?_eq_getElem hi']
  rw [List.getElem?_eq_getElem hi] at hname
  exact (Option.some.inj hname).symm

end Started

/-! ### Taking completions in a loop -/

/-- Takes at most `count` completions, each within the given patience. -/
def takeAll (patience : Patience) : (count : Nat) → FanOut → List Completion →
    (FanOut → List Completion → Task) → Task
  | 0, f, taken, next => next f taken
  | count + 1, f, taken, next =>
    .ask (.nextChild f.pending patience) fun
      | some c => takeAll patience count (f.take c.index) (taken ++ [c]) next
      | none => next f taken

theorem collectUntil_eq (instant count : Nat) (f : FanOut) (taken : List Completion)
    (next : FanOut → List Completion → Task) :
    FanOut.collectUntil instant count f taken next =
      takeAll (.untilDue instant) count f taken next := by
  induction count generalizing f taken with
  | zero => rfl
  | succ count ih =>
    rw [FanOut.collectUntil, takeAll]
    congr 1
    funext a
    cases a with
    | none => rfl
    | some c => exact ih (f.take c.index) (taken ++ [c])

variable {f : FanOut}

/-- What a loop that takes completions has taken when it ends: the completions of one moment, at
which every child had ended or patience was over. -/
structure Collected (h : History) (f : FanOut) (patience : Patience) (m e m₁ : Nat)
    (new : List (Nat × Completion)) (f' : FanOut) : Prop where
  from_le : m ≤ e
  le : e ≤ m₁
  clock_eq : h.clock m₁ = h.clock e
  closed : (∀ p ∈ f.pending, (h.ended? e p.id).isSome) ∨ (h.world e).patienceOver patience
  completes : (h.world e).Completes f.pending new
  children : f'.children = f.children
  sorted : f'.Sorted
  pending : ∀ p, p ∈ f'.pending ↔ p ∈ f.pending ∧ h.ended? e p.id = none
  left : f'.outstanding + new.length = f.outstanding

/-- A child that has not ended is still left when another completion is taken. -/
theorem mem_take (hsorted : f.Sorted) {k e : Nat} {c : Completion}
    (hfirst : (h.world k).firstCompletion? f.pending = some c) (hke : k ≤ e) {q : Pending}
    (hnone : h.ended? e q.id = none) : q ∈ (f.take c.index).pending ↔ q ∈ f.pending := by
  obtain ⟨p, place, hperm, -, hended⟩ := FanOut.take_first hsorted hfirst
  rw [hperm.mem_iff, List.mem_cons]
  refine ⟨.inr, fun hq => hq.resolve_left ?_⟩
  rintro rfl
  cases (ended?_eq_none hke hnone).symm.trans hended

/-- If all children that are left have ended, every child has. -/
theorem ended_of_take (hsorted : f.Sorted) {k e : Nat} {c : Completion}
    (hfirst : (h.world k).firstCompletion? f.pending = some c) (hke : k ≤ e)
    (hall : ∀ q ∈ (f.take c.index).pending, (h.ended? e q.id).isSome) :
    ∀ q ∈ f.pending, (h.ended? e q.id).isSome := by
  intro q hq
  cases hended : h.ended? e q.id with
  | some x => rfl
  | none =>
    have hsome := hall q ((mem_take hsorted hfirst hke hended).mpr hq)
    rw [hended] at hsome
    contradiction

/-- Where no child has ended, nothing is taken. -/
theorem Collected.nil {patience : Patience} {e : Nat} (hsorted : f.Sorted) (hm : m ≤ e)
    (unended : ∀ p ∈ f.pending, h.ended? e p.id = none) {m₁ : Nat} (le : e ≤ m₁)
    (clock_eq : h.clock m₁ = h.clock e)
    (closed : f.pending = [] ∨ (h.world e).patienceOver patience) :
    h.Collected f patience m e m₁ [] f where
  from_le := hm
  le := le
  clock_eq := clock_eq
  closed := closed.imp_left fun hnil => by
    rw [hnil]
    exact List.forall_mem_nil _
  completes := World.completes_nil unended
  children := rfl
  sorted := hsorted
  pending p := ⟨fun hp => ⟨hp, unended p hp⟩, And.left⟩
  left := rfl

/-- A completion remains one after the children that are left have been waited for. -/
theorem Collected.cons {patience : Patience} {k m₀ e m₁ : Nat} {c : Completion}
    {new : List (Nat × Completion)} {f' : FanOut} (hsorted : f.Sorted) (hm : m₀ ≤ k)
    (hfirst : (h.world k).firstCompletion? f.pending = some c)
    (hrest : h.Collected (f.take c.index) patience (k + 1) e m₁ new f') :
    ∃ place, h.Collected f patience m₀ e m₁ ((place, c) :: new) f' := by
  have hke : k ≤ e := Nat.le_of_succ_le hrest.from_le
  obtain ⟨place, hcons⟩ := World.completes_cons hsorted hfirst
  refine ⟨place, Nat.le_trans hm hke, hrest.le, hrest.clock_eq, ?_,
    hcons _ (h.later_of_le hke) new hrest.completes, hrest.children, hrest.sorted, fun q => ?_, ?_⟩
  · exact hrest.closed.imp_left (ended_of_take hsorted hfirst hke)
  · rw [hrest.pending]
    exact and_congr_left (mem_take hsorted hfirst hke)
  · have hone := FanOut.outstanding_take hsorted hfirst
    have hleft := hrest.left
    rw [List.length_cons]
    omega

/-- Taking completions changes no name. -/
theorem name_eq_of_children {f' : FanOut} (heq : f'.children = f.children) : f'.name = f.name :=
  funext fun i => by rw [FanOut.name, FanOut.name, heq]

/-- The exchanges of such a loop. Only the last one may end a turn, and it does if the loop does not
wait and something is left. -/
structure Looks (h : History) (f : FanOut) (patience : Patience) (e : Nat) (es : List Exchange) :
    Prop where
  unstopped : ∀ x ∈ es, ∀ token, x.seesStop token = false
  last : ∀ x ∈ es, x.endsTurn → patience = .none ∧ x.moment = e
  ends : patience = .none → (∃ x ∈ es, x.endsTurn ∧ x.moment = e) ∨
    ∀ p ∈ f.pending, (h.ended? e p.id).isSome

theorem Looks.quiet {patience : Patience} {e : Nat} (looks : h.Looks f patience e es)
    (hpatience : patience ≠ .none) : Quiet es := by
  refine fun x hx => ⟨looks.unstopped x hx, ?_⟩
  cases hends : x.endsTurn with
  | false => rfl
  | true => exact absurd (looks.last x hx hends).1 hpatience

/-- Waiting with a patience that no stop ends does not see one. -/
theorem seesStop_nextChild {patience : Patience}
    (hpatience : ∀ token, patience ≠ .untilStopped token) (k : Nat) (pending : List Pending)
    (a : Option Completion) (token : TokenId) :
    (⟨k, .nextChild pending patience, a⟩ : Exchange).seesStop token = false := by
  unfold Exchange.seesStop
  split
  · next heq =>
    cases heq
    exact absurd rfl (hpatience _)
  · rfl

/-- A look that finds nothing is the last one. -/
theorem Looks.nothing {patience : Patience} (hpatience : ∀ token, patience ≠ .untilStopped token)
    (k : Nat) (pending : List Pending) :
    h.Looks f patience k [⟨k, .nextChild pending patience, none⟩] where
  unstopped := List.forall_mem_singleton.mpr (seesStop_nextChild hpatience k pending none)
  last := List.forall_mem_singleton.mpr fun hends => by
    cases patience with
    | none => exact ⟨rfl, rfl⟩
    | untilStopped | untilDue | forever => contradiction
  ends hnone := .inl ⟨_, List.mem_singleton.mpr rfl, by rw [hnone]; rfl, rfl⟩

/-- A look that finds a completion comes before the others. -/
theorem Looks.cons {patience : Patience} (hpatience : ∀ token, patience ≠ .untilStopped token)
    {k e : Nat} {c : Completion} {es : List Exchange} (hsorted : f.Sorted)
    (hfirst : (h.world k).firstCompletion? f.pending = some c) (hke : k ≤ e)
    (looks : h.Looks (f.take c.index) patience e es) :
    h.Looks f patience e (⟨k, .nextChild f.pending patience, some c⟩ :: es) where
  unstopped := List.forall_mem_cons.mpr ⟨seesStop_nextChild hpatience k f.pending _, looks.unstopped⟩
  last := List.forall_mem_cons.mpr ⟨fun hends => by cases patience <;> contradiction, looks.last⟩
  ends hnone := by
    rcases looks.ends hnone with ⟨x, hx, hends⟩ | hended
    · exact .inl ⟨x, List.mem_cons_of_mem _ hx, hends⟩
    · exact .inr (ended_of_take hsorted hfirst hke hended)

/-- Each look either takes the first completion to be seen or ends the loop, whatever follows. -/
theorem Goes.takeAll {Q : Nat → Task → Task → List Exchange → Prop} (goes : h.Goes task Q)
    {patience : Patience} {count : Nat} {taken : List Completion}
    {next : FanOut → List Completion → Task} (next' : FanOut → List Completion → Task)
    (es : List Exchange) (hpatience : ∀ token, patience ≠ .untilStopped token) (hsorted : f.Sorted)
    (hcount : count = f.outstanding)
    (q : Q m (takeAll patience count f taken next) (takeAll patience count f taken next') es) :
    ∃ e m₁ new f' es₀, h.Collected f patience m e m₁ new f' ∧ h.Looks f patience e es₀ ∧
      (∀ limit, (∀ m k pending a, pending ⊆ f.pending →
        h.Answers task m (.nextChild pending patience) k a →
        h.clock (k + 1) ≤ max (h.clock m) limit) → h.clock e ≤ max (h.clock m) limit) ∧
      Q m₁ (next f' (taken ++ new.map Prod.snd)) (next' f' (taken ++ new.map Prod.snd)) (es ++ es₀) := by
  induction count generalizing m f taken es with
  | zero =>
    have hnil : f.pending = [] := List.eq_nil_of_length_eq_zero hcount.symm
    have hnone (P : Pending → Prop) : ∀ p ∈ f.pending, P p := by
      rw [hnil]
      exact List.forall_mem_nil P
    refine ⟨m, m, [], f, [], .nil hsorted (Nat.le_refl m) (hnone _) (Nat.le_refl m) rfl (.inl hnil),
      ⟨List.forall_mem_nil _, List.forall_mem_nil _, fun _ => .inr (hnone _)⟩,
      fun _ _ => Nat.le_max_left _ _, ?_⟩
    rw [List.map_nil, List.append_nil, List.append_nil]
    exact q
  | succ count ih =>
    obtain ⟨k, a, answers, q⟩ := goes.ask q
    cases a with
    | some c =>
      have hfirst := answers.nextChild_some
      have hone := FanOut.outstanding_take hsorted hfirst
      obtain ⟨e, m₁, new, f', es₀, hnew, looks, hbound, q⟩ := ih (es ++ [_]) (hsorted.take c.index) (by omega) q
      obtain ⟨place, hall⟩ := hnew.cons hsorted answers.le hfirst
      refine ⟨e, m₁, (place, c) :: new, f', _ :: es₀, hall,
        looks.cons hpatience hsorted hfirst (Nat.le_of_succ_le hnew.from_le), fun limit hlimit => ?_, ?_⟩
      · have hfrom := hlimit m k _ _ (List.Subset.refl _) answers
        have hto := hbound limit fun m k pending a hp =>
          hlimit m k pending a (List.Subset.trans hp (List.filter_subset_self _))
        omega
      · rw [List.append_assoc, List.append_assoc] at q
        exact q
    | none =>
      obtain ⟨hnone, hover⟩ := answers.nextChild_none
      rw [Bool.or_eq_true, List.isEmpty_iff] at hover
      refine ⟨k, k + 1, [], f, [_], .nil hsorted answers.le hnone (Nat.le_succ k) answers.atOnce
        hover, .nothing hpatience k f.pending, fun limit hlimit => ?_, ?_⟩
      · exact Nat.le_trans (h.clock_mono (Nat.le_succ k))
          (hlimit m k _ _ (List.Subset.refl _) answers)
      · rw [List.map_nil, List.append_nil]
        exact q

/-- A bound on the clock that one stretch of a loop keeps to, and then the rest of it. -/
theorem clock_le_of_max {k k₁ n : Nat} (hk : h.clock k ≤ h.clock (max m n))
    (hk₁ : h.clock k₁ ≤ h.clock (max k n)) : h.clock k₁ ≤ h.clock (max m n) := by
  refine Nat.le_trans hk₁ ?_
  rcases Nat.le_total k n with hkn | hnk
  · rw [Nat.max_eq_right hkn]
    exact h.clock_mono (Nat.le_max_right m n)
  · rwa [Nat.max_eq_left hnk]

/-- A time that neither of two moments is beyond. -/
theorem clock_max_le {n latest : Nat} (hm : h.clock m ≤ latest) (hn : h.clock n ≤ latest) :
    h.clock (max m n) ≤ latest := by
  rcases Nat.le_total m n with hmn | hnm
  · rwa [Nat.max_eq_right hmn]
  · rwa [Nat.max_eq_left hnm]

/-- Every pending child is pending still, or its completion has been taken. -/
def Accounted (h : History) (pending pending' : List Pending) (taken : List Completion) : Prop :=
  ∀ p ∈ pending, p ∈ pending' ∨ ∃ c ∈ taken, ∃ k place, h.ended? k p.id = some (place, c.outcome)

/-- Whoever ends in a way in which none of the completions taken ends is pending still. -/
theorem Accounted.mem_of_holds {pending pending' : List Pending} {taken : List Completion}
    (haccounted : h.Accounted pending pending' taken) {p : Outcome → Prop}
    (htaken : ∀ c ∈ taken, ¬ p c.outcome) {q : Pending} (hq : q ∈ pending) {j : Nat}
    {e : Nat × Outcome} (he : h.ended? j q.id = some e) (hp : p e.2) : q ∈ pending' := by
  refine (haccounted q hq).resolve_right ?_
  rintro ⟨c, hc, k, place, hended⟩
  cases ended?_unique he hended
  exact htaken c hc hp

/-- Taking the first completion leaves the other children pending. -/
theorem accounted_take (hsorted : f.Sorted) {k : Nat} {c : Completion} {taken : List Completion}
    (hfirst : (h.world k).firstCompletion? f.pending = some c) (hc : c ∈ taken) :
    h.Accounted f.pending (f.take c.index).pending taken := by
  obtain ⟨p, place, hperm, -, hended⟩ := FanOut.take_first hsorted hfirst
  intro q hq
  rcases List.mem_cons.mp (hperm.mem_iff.mp hq) with rfl | hq
  · exact .inr ⟨c, hc, k, place, hended⟩
  · exact .inl hq

/-- A loop that has taken some completions comes to moment `m₁` with those that it has taken by then. -/
structure Takes (h : History) (f : FanOut) (taken : List Completion) (m₁ : Nat) (f' : FanOut)
    (taken' : List Completion) : Prop where
  sublist : f'.pending.Sublist f.pending
  taken_subset : taken ⊆ taken'
  ended : ∀ c ∈ taken', c ∈ taken ∨
    ∃ p ∈ f.pending, ∃ place, h.ended? m₁ p.id = some (place, c.outcome)
  sorted : f.Sorted → f'.Sorted
  accounted : f.Sorted → h.Accounted f.pending f'.pending taken'

theorem takes_nothing (f : FanOut) (taken : List Completion) (m₁ : Nat) :
    h.Takes f taken m₁ f taken :=
  ⟨.refl _, List.Subset.refl _, fun _ => .inl, id, fun _ _ => .inl⟩

/-- A completion is taken before the others. -/
theorem Takes.cons {k m₁ : Nat} {f' : FanOut} {c : Completion} {taken taken' : List Completion}
    (hfirst : (h.world k).firstCompletion? f.pending = some c) (hkm : k ≤ m₁)
    (takes : h.Takes (f.take c.index) (taken ++ [c]) m₁ f' taken') : h.Takes f taken m₁ f' taken' := by
  have hsub : (f.take c.index).pending.Sublist f.pending := List.filter_sublist
  have hc : c ∈ taken' := takes.taken_subset (List.mem_append_right taken (List.mem_singleton.mpr rfl))
  refine ⟨takes.sublist.trans hsub, fun x hx => takes.taken_subset (List.mem_append_left [c] hx),
    fun x hx => ?_, fun hsorted => takes.sorted (hsorted.take c.index), fun hsorted p hp => ?_⟩
  · rcases takes.ended x hx with hold | ⟨p, hp, hended⟩
    · refine (List.mem_append.mp hold).imp_right fun hlast => ?_
      obtain rfl := List.mem_singleton.mp hlast
      obtain ⟨p, hp, -, place, hended⟩ := World.exists_of_firstCompletion? hfirst
      exact ⟨p, hp, place, (h.later_of_le hkm).ended _ _ hended⟩
    · exact .inr ⟨p, hsub.subset hp, hended⟩
  · exact (accounted_take hsorted hfirst hc p hp).elim (takes.accounted (hsorted.take c.index) p) .inr

/-- A loop that takes completions ends by the moment by which it is served. -/
theorem not_stuck_takeAll {patience : Patience} {count n : Nat} {taken : List Completion}
    {next : FanOut → List Completion → Task}
    (served : ∀ pending, pending ⊆ f.pending → h.Served heeded task (.nextChild pending patience) n)
    (rest : ∀ m₁ f' taken', m ≤ m₁ → h.clock m₁ ≤ h.clock (max m n) → h.Takes f taken m₁ f' taken' →
      ¬ h.Stuck heeded task m₁ (next f' taken')) :
    ¬ h.Stuck heeded task m (takeAll patience count f taken next) := by
  induction count generalizing m f taken with
  | zero => exact rest m f taken (Nat.le_refl m) (h.clock_mono (Nat.le_max_left m n)) (takes_nothing ..)
  | succ count ih =>
    refine not_stuck_ask (served f.pending (List.Subset.refl _)) fun k a answers hclock => ?_
    have hmk : m ≤ k + 1 := Nat.le_succ_of_le answers.le
    cases a with
    | none => exact rest _ f taken hmk hclock (takes_nothing ..)
    | some c =>
      have hsub : (f.take c.index).pending ⊆ f.pending := List.filter_subset_self _
      refine ih (fun pending hp => served pending (List.Subset.trans hp hsub))
        fun m₁ f' taken' hm hle takes => ?_
      exact rest m₁ f' taken' (Nat.le_trans hmk hm) (clock_le_of_max hclock hle)
        (takes.cons answers.nextChild_some (Nat.le_of_succ_le hm))

/-! ### When a fan-out is to close -/

/-- By a moment a fan-out is to close: its children have ended, or one of them in a way that decides, or
its token is stopped and that is heeded. -/
def Closes (h : History) (heeded : TokenId → Prop) (token : TokenId) (decides : Outcome → Prop)
    (pending : List Pending) (n : Nat) : Prop :=
  (∀ p ∈ pending, (h.ended? n p.id).isSome) ∨
  (∃ p ∈ pending, ∃ place o, h.ended? n p.id = some (place, o) ∧ decides o) ∨
  heeded token ∧ (h.world n).isStopped token = true

namespace Closes

variable {token : TokenId} {decides : Outcome → Prop} {pending pending' : List Pending} {n : Nat}

/-- Then it waits no longer. -/
theorem served (closes : h.Closes heeded token decides pending n) :
    h.Served heeded task (.nextChild pending (.untilStopped token)) n := by
  rcases closes with hall | ⟨p, hp, place, o, hended, -⟩ | ⟨hheeded, hstopped⟩
  · exact served_of_all_ended _ hall
  · exact served_of_ended _ (.inr ⟨p, hp, by rw [hended]; rfl⟩)
  · exact served_untilStopped pending hheeded hstopped

/-- It is still to close when completions have been taken of which none decides. -/
theorem left (closes : h.Closes heeded token decides pending n) (hsub : pending' ⊆ pending)
    {taken : List Completion} (haccounted : h.Accounted pending pending' taken)
    (htaken : ∀ c ∈ taken, ¬ decides c.outcome) : h.Closes heeded token decides pending' n := by
  rcases closes with hall | ⟨p, hp, place, o, hended, hdecides⟩ | hstopped
  · exact .inl fun p hp => hall p (hsub hp)
  · exact .inr (.inl ⟨p, haccounted.mem_of_holds htaken hp hended hdecides, place, o, hended,
      hdecides⟩)
  · exact .inr (.inr hstopped)

end Closes

/-- Up to a time, the grace period of a fan-out is over at some instant whenever it may begin: at a stop
with a child left, or when a child has decided. -/
structure Graceful (h : History) (token : TokenId) (grace : Duration) (decides : Outcome → Prop)
    (pending : List Pending) (latest : Nat) : Prop where
  stopped : ∀ k, h.clock k ≤ latest → (h.world k).isStopped token = true →
    (∃ p ∈ pending, h.ended? k p.id = none) → h.clock k + grace.nanos < Instant.limit
  decided : ∀ k, h.clock k ≤ latest → ∀ p ∈ pending, ∀ place o,
    h.ended? k p.id = some (place, o) → decides o → h.clock k + grace.nanos < Instant.limit

namespace Graceful

variable {token : TokenId} {grace : Duration} {decides : Outcome → Prop}
  {pending pending' : List Pending} {latest : Nat}

theorem mono (graceful : h.Graceful token grace decides pending latest)
    (hsub : pending' ⊆ pending) : h.Graceful token grace decides pending' latest where
  stopped k hk hstopped := fun ⟨p, hp, hnone⟩ => graceful.stopped k hk hstopped ⟨p, hsub hp, hnone⟩
  decided k hk p hp := graceful.decided k hk p (hsub hp)

/-- So it is if the period is over at an instant that begins at that time. -/
theorem of_lt (hgrace : latest + grace.nanos < Instant.limit) :
    h.Graceful token grace decides pending latest where
  stopped _ hk _ _ := Nat.lt_of_le_of_lt (Nat.add_le_add_right hk _) hgrace
  decided _ hk _ _ _ _ _ _ := Nat.lt_of_le_of_lt (Nat.add_le_add_right hk _) hgrace

/-- A look that finds nobody, although there is somebody to wait for, has seen a stop. -/
theorem of_stop {k : Nat} (graceful : h.Graceful token grace decides pending latest)
    (hleft : 0 < pending.length)
    (answers : h.Answers task m (.nextChild pending (.untilStopped token)) k none)
    (hk : h.clock k ≤ latest) : h.clock k + grace.nanos < Instant.limit := by
  obtain ⟨hnone, hover⟩ := answers.nextChild_none
  obtain ⟨p, hp⟩ := List.exists_mem_of_length_pos hleft
  rw [Bool.or_eq_true, List.isEmpty_iff] at hover
  exact graceful.stopped k hk (hover.resolve_left (List.ne_nil_of_mem hp)) ⟨p, hp, hnone p hp⟩

end Graceful

/-! ### Collecting within a grace period -/

/-- What is taken within a grace period, whatever follows: the period starts when the loop does, and is
over at an instant. -/
theorem Goes.collectWithin {Q : Nat → Task → Task → List Exchange → Prop} (goes : h.Goes task Q)
    {grace : Duration} {next : FanOut → List Completion → Task}
    (next' : FanOut → List Completion → Task) (es : List Exchange) (hsorted : f.Sorted)
    (q : Q m (FanOut.collectWithin grace f next) (FanOut.collectWithin grace f next') es) :
    ∃ e m₁ new f' es₀, h.Collected f (.untilDue (h.clock m + grace.nanos)) m e m₁ new f' ∧
      h.clock e ≤ h.clock m + grace.nanos ∧
      (∀ j, (∀ p ∈ f.pending, (h.ended? j p.id).isSome) → h.clock e ≤ max (h.clock m) (h.clock j)) ∧
      Quiet es₀ ∧ Q m₁ (next f' (new.map Prod.snd)) (next' f' (new.map Prod.snd)) (es ++ es₀) := by
  obtain ⟨k, now, answers, q⟩ := goes.ask q
  obtain ⟨rfl, rfl⟩ := answers.at_once rfl
  have hclock := answers.atOnce
  split at q
  · next due hdue =>
    obtain ⟨-, rfl⟩ := Instant.after?_eq_some.mp hdue
    rw [collectUntil_eq, collectUntil_eq] at q
    obtain ⟨e, m₁, new, f', es₀, hnew, looks, hbound, q⟩ :=
      goes.takeAll next' _ (fun _ heq => by contradiction) hsorted rfl q
    have hquiet := looks.quiet fun heq => by contradiction
    refine ⟨e, m₁, new, f', ⟨k, .now, (h.world k).now⟩ :: es₀,
      { hnew with from_le := Nat.le_of_succ_le hnew.from_le }, ?_, fun j hended => ?_,
      hquiet.cons ⟨fun _ => rfl, rfl⟩, ?_⟩
    · have hle := hbound (h.clock k + grace.nanos) fun m k pending a _ answers =>
        answers.clock_le_due rfl
      omega
    · rw [← hclock]
      exact hbound (h.clock j) fun m k pending a hp answers =>
        answers.clock_le_of_all_ended fun q hq => hended q (hp hq)
    · rw [List.append_assoc] at q
      exact q
  · exact (goes.panic q).elim

/-- What is taken in a run within a grace period. -/
theorem runs_collectWithin {grace : Duration} {next : FanOut → List Completion → Task}
    (hsorted : f.Sorted) (run : h.Runs task m (FanOut.collectWithin grace f next) es m' o) :
    ∃ e m₁ new f' es₀ es₁, h.Collected f (.untilDue (h.clock m + grace.nanos)) m e m₁ new f' ∧
      h.clock e ≤ h.clock m + grace.nanos ∧
      (∀ j, (∀ p ∈ f.pending, (h.ended? j p.id).isSome) → h.clock e ≤ max (h.clock m) (h.clock j)) ∧
      es = es₀ ++ es₁ ∧ Quiet es₀ ∧ h.Runs task m₁ (next f' (new.map Prod.snd)) es₁ m' o := by
  obtain ⟨e, m₁, new, f', es₀, hnew, hle, hprompt, hquiet, es₁, rfl, rest⟩ :=
    (goes_runs es m' o).collectWithin next [] hsorted ⟨es, rfl, run⟩
  exact ⟨e, m₁, new, f', es₀, es₁, hnew, hle, hprompt, rfl, hquiet, rest⟩

/-- If time goes on, the loop ends, unless its period is over at no instant. -/
theorem not_stuck_collectWithin {grace : Duration} {next : FanOut → List Completion → Task}
    (htime : ∀ instant, ∃ k, instant ≤ h.clock k)
    (hgrace : h.clock m + grace.nanos < Instant.limit)
    (rest : ∀ m₁ f' taken', m ≤ m₁ → ¬ h.Stuck heeded task m₁ (next f' taken')) :
    ¬ h.Stuck heeded task m (FanOut.collectWithin grace f next) := by
  refine not_stuck_ask_now rfl fun _ => ?_
  have hdue : Instant.after? (h.world m).now grace = some (h.clock m + grace.nanos) :=
    Instant.after?_eq_some.mpr ⟨hgrace, rfl⟩
  rw [hdue]
  dsimp only
  rw [collectUntil_eq]
  obtain ⟨final, hfinal⟩ := htime (h.clock m + grace.nanos)
  exact not_stuck_takeAll (fun pending _ => served_untilDue pending hfinal)
    fun m₁ f' taken' hm _ _ => rest m₁ f' taken' (Nat.le_of_succ_le hm)

/-- Stopping the children takes no time. -/
theorem runs_stopAll {next : Task} (run : h.Runs task m (f.stopAll next) es m' o) :
    ∃ es', es = ⟨m, .stop f.tokens, ()⟩ :: es' ∧ h.clock (m + 1) = h.clock m ∧
      h.Runs task (m + 1) next es' m' o := by
  obtain ⟨es', rfl, hclock, -, rest⟩ := runs_ask_now rfl run
  exact ⟨es', rfl, hclock, rest⟩

theorem not_stuck_stopAll {next : Task}
    (rest : h.clock (m + 1) = h.clock m → ¬ h.Stuck heeded task (m + 1) next) :
    ¬ h.Stuck heeded task m (f.stopAll next) :=
  not_stuck_ask_now rfl rest

/-- The report on children that are left to themselves. -/
def abandonment (owner : String) (count : Nat) : Option LogEntry :=
  if count = 0 then none else some (.abandoned owner count)

theorem abandon_eq (owner : String) (next : Task) :
    f.abandon owner next = Task.reporting (abandonment owner f.outstanding) next := by
  unfold FanOut.abandon abandonment
  split <;> rfl

/-- A task that leaves children to themselves and ends does so at once. -/
theorem runs_abandon_done {owner : String} {o₁ : Outcome}
    (run : h.Runs task m (f.abandon owner (.done o₁)) es m' o) :
    o = o₁ ∧ Quiet es ∧ m ≤ m' ∧ h.clock m' = h.clock m := by
  rw [abandon_eq] at run
  obtain ⟨m₁, es₀, es₁, rfl, hquiet, hm, hclock, rest, -, -⟩ := runs_reporting run
  obtain ⟨rfl, rfl, rfl⟩ := runs_done_iff.mp rest
  rw [List.append_nil]
  exact ⟨rfl, hquiet, hm, hclock⟩

/-- A fan-out that raises an error fails with this error, whatever its children do meanwhile. -/
theorem runs_raise {owner : String} {grace : Duration} {e : RunError} (hsorted : f.Sorted)
    (run : h.Runs task m (f.raise owner grace e) es m' o) : o = .error e ∧ Quiet es := by
  obtain ⟨es', rfl, -, rest⟩ := runs_stopAll run
  obtain ⟨-, m₁, -, f', es₀, es₁, -, -, -, rfl, hquiet, rest⟩ := runs_collectWithin hsorted rest
  obtain ⟨ho, hquiet', -, -⟩ := runs_abandon_done rest
  exact ⟨ho, (hquiet.append hquiet').cons ⟨fun _ => rfl, rfl⟩⟩

theorem not_stuck_abandon {owner : String} {o : Outcome} :
    ¬ h.Stuck heeded task m (f.abandon owner (.done o)) := by
  rw [abandon_eq]
  exact not_stuck_reporting fun m₁ _ _ stuck => by cases stuck

theorem not_stuck_raise {owner : String} {grace : Duration} {e : RunError}
    (htime : ∀ instant, ∃ k, instant ≤ h.clock k)
    (hgrace : h.clock m + grace.nanos < Instant.limit) :
    ¬ h.Stuck heeded task m (f.raise owner grace e) :=
  not_stuck_stopAll fun hclock => not_stuck_collectWithin htime (hclock.symm ▸ hgrace)
    fun _ _ _ _ => not_stuck_abandon

end History

end Orchestra
