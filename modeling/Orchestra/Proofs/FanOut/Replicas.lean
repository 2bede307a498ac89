import Orchestra.Proofs.FanOut.Sights
import Orchestra.Proofs.FanOut.Overflow

/-!
# Ways to run a worker many times

A worker can be run once on each of some states by branches over copies of it, by a map over the
list, and by either of them after the state was copied. Without a stop all of these judge the
completions of the runs in the same way, in the order in which they come, so they come to the same
value or the same error.
-/

namespace Orchestra

/-! ### Judging completions -/

namespace Tally

/-- What becomes of a tally that accepts the first completions in an order: the error of the first
one refused, or what is made of the tally when the given number of completions was accepted. -/
def judge (policy : FailurePolicy) (name : Nat → String) (finish : Gathered → Outcome) :
    (count : Nat) → List Completion → Tally → Outcome
  | 0, _, t => t.finish.bind finish
  | _ + 1, [], t => t.finish.bind finish
  | count + 1, c :: order, t =>
    match t.accept policy name c with
    | .error e => .error e
    | .ok t => judge policy name finish count order t

/-- The outputs so far are single states. -/
def Single (t : Tally) : Prop :=
  ∀ d, some d ∈ t.outputs → ∃ s, d = .one s

variable {policy : FailurePolicy} {name : Nat → String} {t t' : Tally} {c : Completion}

theorem single_empty (n : Nat) : (empty n).Single := by
  intro d hd
  exact absurd (List.eq_of_mem_replicate hd) nofun

theorem Single.accept (single : t.Single) (hc : ∀ d, c.outcome = .ok d → ∃ s, d = .one s)
    (h : t.accept policy name c = .ok t') : t'.Single := by
  obtain ⟨rfl, -⟩ := accept_eq_ok h
  intro d hd
  rw [record] at hd
  dsimp only at hd
  split at hd
  · next d' hd' =>
    rcases List.mem_or_eq_of_mem_set hd with hd | hd
    · exact single d hd
    · obtain rfl := Option.some.inj hd
      refine hc d ?_
      cases hout : c.outcome with
      | ok d' =>
        rw [hout] at hd'
        exact congrArg Except.ok (Option.some.inj hd')
      | error e =>
        rw [hout] at hd'
        contradiction
  · exact single d hd

/-- What is made of single states is all that counts. -/
theorem judge_congr {finish finish' : Gathered → Outcome} {count : Nat} {order : List Completion}
    (same : ∀ g : Gathered, (∀ d, some d ∈ g.outputs → ∃ s, d = .one s) → finish g = finish' g)
    (hsingle : ∀ c ∈ order, ∀ d, c.outcome = .ok d → ∃ s, d = .one s) (single : t.Single) :
    judge policy name finish count order t = judge policy name finish' count order t := by
  have hfinish (t : Tally) (single : t.Single) : t.finish.bind finish = t.finish.bind finish' := by
    cases hg : t.finish with
    | error e => rfl
    | ok g =>
      refine same g ?_
      unfold Tally.finish at hg
      split at hg
      · cases hg
        exact single
      · split at hg <;> cases hg
  induction count generalizing order t with
  | zero => exact hfinish t single
  | succ count ih =>
    cases order with
    | nil => exact hfinish t single
    | cons c order =>
      rw [judge, judge]
      obtain ⟨hc, hrest⟩ := List.forall_mem_cons.mp hsingle
      split
      · rfl
      · next t' ht' => exact ih hrest (single.accept hc ht')

end Tally

/-! ### Completions in order -/

/-- Of the first `n` children those that have ended did so in this order, with these results. -/
def Endings.Follow (E : Endings) (n : Nat) (order : List Completion) : Prop :=
  ∃ ranked, E.Ranked n ranked ∧ ranked.map Prod.snd = order

/-- Completions can be listed in only one order. -/
theorem eq_of_before {l l' : List (Nat × Completion)} (hperm : l.Perm l')
    (ordered : l.Pairwise Before) (ordered' : l'.Pairwise Before) : l = l' := by
  refine List.Perm.eq_of_pairwise (fun a b _ _ hab hba => ?_) ordered ordered' hperm
  unfold Before at hab hba
  omega

namespace World.Completes

variable {w w' : World} {f : FanOut} {listed listed' : List (Nat × Completion)}

theorem unique {pending : List Pending} (h : w.Completes pending listed)
    (h' : w.Completes pending listed') : listed = listed' :=
  eq_of_before (h.perm.trans h'.perm.symm) h.ordered h'.ordered

/-- What is seen first is listed first, also later. -/
theorem of_first (h : w'.Completes f.pending listed) (hsorted : f.Sorted) {c : Completion}
    (hfirst : w.firstCompletion? f.pending = some c) (hlater : w.Later w') :
    ∃ place rest, listed = (place, c) :: rest ∧ w'.Completes (f.take c.index).pending rest := by
  obtain ⟨rest, hrest⟩ := w'.exists_completes (hsorted.take c.index)
  obtain ⟨place, hcons⟩ := World.completes_cons hsorted hfirst
  exact ⟨place, rest, h.unique (hcons w' hlater rest hrest), hrest⟩

end World.Completes

namespace History

variable {h : History} {task : TaskId} {m m' K : Nat} {es : List Exchange} {o : Outcome}

/-- The completions of the children of a fan-out come in the order of their endings. -/
theorem completes_of_follow {names : List String} {f : FanOut} {m₀ : Nat} {order : List Completion}
    (start : h.Started m₀ names f) (follow : (h.endings K m₀).Follow names.length order) :
    ∃ listed, (h.world K).Completes f.pending listed ∧ listed.map Prod.snd = order := by
  obtain ⟨ranked, hranked, rfl⟩ := follow
  obtain ⟨listed, hlisted⟩ := (h.world K).exists_completes start.sorted
  have hranked' : (h.endings K m₀).Ranked names.length listed := by
    have hlisted' := hlisted
    rw [start.waits] at hlisted'
    exact hlisted'.ranked
  have heq : listed = ranked :=
    eq_of_before (hranked'.perm.trans hranked.perm.symm) hranked'.ordered hranked.ordered
  exact ⟨listed, hlisted, heq ▸ rfl⟩

/-- When all children have ended their order is settled. -/
theorem follow_of_all_ended {n m₀ final : Nat} {order : List Completion}
    (all : ∀ i < n, (h.endings final m₀ i).isSome) (follow : (h.endings final m₀).Follow n order)
    (hK : final ≤ K) : (h.endings K m₀).Follow n order := by
  obtain ⟨ranked, hranked, rfl⟩ := follow
  refine ⟨ranked, ⟨?_, hranked.ordered⟩, rfl⟩
  have hsame : (List.range n).filterMap (h.endings final m₀).completion? =
      (List.range n).filterMap (h.endings K m₀).completion? := by
    refine List.filterMap_congr fun i hi => ?_
    obtain ⟨e, he⟩ := Option.isSome_iff_exists.mp (all i (List.mem_range.mp hi))
    have hlater : h.endings K m₀ i = some e := (h.later_of_le hK).ended _ e he
    rw [Endings.completion?, Endings.completion?, he, hlater]
  exact hsame ▸ hranked.perm

/-- Without a stop a gathering comes to what the completions of its children are judged to be. -/
theorem runs_gatherNext_judged {ctx : Context} {rules : FanOut.Rules} {finish : Gathered → Outcome}
    {count : Nat} {f : FanOut} {tally : Tally} {order : List Completion}
    {listed : List (Nat × Completion)} (hsorted : f.Sorted) (hcount : count = f.outstanding)
    (run : h.Runs task m
      (FanOut.gatherNext ctx rules (fun gathered => .done (finish gathered)) count f tally) es m' o)
    (unstopped : ∀ k ≤ m', (h.world k).isStopped ctx.token = false) (hK : m' ≤ K)
    (completes : (h.world K).Completes f.pending listed) (inOrder : listed.map Prod.snd = order) :
    o = tally.judge rules.policy f.name finish count order := by
  induction count generalizing m f es tally order listed with
  | zero =>
    rw [FanOut.gatherNext, FanOut.conclude] at run
    rw [Tally.judge]
    split at run
    · next gathered hfinish =>
      rw [hfinish]
      exact (runs_done_iff.mp run).2.2
    · next e hfinish =>
      rw [hfinish]
      exact (runs_done_iff.mp run).2.2
  | succ count ih =>
    obtain ⟨k, a, es', rfl, answers, rest⟩ := runs_ask_iff.mp run
    have hk : k ≤ m' := Nat.le_of_succ_le rest.le
    cases a with
    | none =>
      obtain ⟨-, hover⟩ := answers.nextChild_none
      have hpending : f.pending ≠ [] := fun hnil => by
        rw [FanOut.outstanding, hnil] at hcount
        contradiction
      have hstopped : (h.world k).isStopped ctx.token = true := by
        simpa [World.patienceOver, hpending] using hover
      rw [unstopped k hk] at hstopped
      contradiction
    | some c =>
      obtain ⟨place, listed, rfl, hcompletes⟩ :=
        completes.of_first hsorted answers.nextChild_some (h.later_of_le (Nat.le_trans hk hK))
      obtain rfl : c :: listed.map Prod.snd = order := inOrder
      have hone := FanOut.outstanding_take hsorted answers.nextChild_some
      rw [Tally.judge]
      dsimp only at rest
      change h.Runs task (k + 1) (match tally.accept rules.policy f.name c with
        | .error e => _
        | .ok tally => _) es' m' o at rest
      split at rest
      · exact (runs_raise (hsorted.take c.index) rest).1
      · obtain ⟨m₁, es₀, es₁, -, -, -, -, rest, -, -⟩ := runs_reporting rest
        exact ih (f := f.take c.index) (hsorted.take c.index) (by omega) rest hcompletes rfl

end History

/-! ### Copies side by side -/

/-- A list feeds as many children as it has states. -/
theorem FanOut.distribute_list (states : List State) (failures : List FailureMarker) :
    distribute "Branches" states.length true (.many ⟨states, failures⟩) =
      .ok (states.map .one) := by
  rw [distribute, if_pos rfl, if_pos rfl]

/-- Branches over copies of a worker that collect the outputs. -/
def Branches.replicas (w : Runnable) (n : Nat) (policy : Option FailurePolicy)
    (stopGrace : Option Duration) : Branches :=
  ⟨List.replicate n w, .collect, policy, stopGrace, false⟩

/-- What completions of a worker, each of them recorded under its name, are judged to be. -/
def Runnable.verdict (w : Runnable) (policy : FailurePolicy) (n : Nat) (order : List Completion) :
    Outcome :=
  (Tally.empty n).judge policy (fun i => ((List.replicate n w.name)[i]?).getD "unknown")
    (fun gathered => FanIn.collect.apply gathered.states gathered.markers) n order

variable {w : Runnable} {policy : Option FailurePolicy} {stopGrace : Option Duration}
  {h : History} {heeded : TokenId → Prop} {task : TaskId} {m m' K : Nat} {es : List Exchange} {o : Outcome}
  {ctx : Context} {order : List Completion} {n : Nat}

/-- A gathering of runs of one worker that give single states or errors. -/
theorem History.runs_gather_judged {f : FanOut} {m₀ : Nat} {rules : FanOut.Rules}
    {finish : Gathered → Outcome} (start : h.Started m₀ (List.replicate n w.name) f)
    (same : ∀ g : Gathered, (∀ d, some d ∈ g.outputs → ∃ s, d = .one s) →
      finish g = FanIn.collect.apply g.states g.markers)
    (run : h.Runs task m (f.gather ctx rules fun gathered => .done (finish gathered)) es m' o)
    (unstopped : ∀ k ≤ m', (h.world k).isStopped ctx.token = false) (hK : m' ≤ K)
    (follow : (h.endings K m₀).Follow n order)
    (single : ∀ c ∈ order, ∀ d, c.outcome = .ok d → ∃ s, d = .one s) :
    o = w.verdict rules.policy n order := by
  rw [← List.length_replicate (n := n) (a := w.name)] at follow
  obtain ⟨listed, hcompletes, inOrder⟩ := completes_of_follow start follow
  have hjudged := runs_gatherNext_judged start.sorted rfl run unstopped hK hcompletes inOrder
  rw [f.name_eq, start.named, start.outstanding, start.size, List.length_replicate] at hjudged
  rw [hjudged, Tally.judge_congr same single (Tally.single_empty n)]
  rfl

/-- There are as many copies as are asked for, under the name of the worker. -/
theorem Branches.replicas_children (w : Runnable) (policy : Option FailurePolicy)
    (stopGrace : Option Duration) (hn : n ≠ 0) :
    (Branches.replicas w n policy stopGrace).children ≠ [] ∧
    (Branches.replicas w n policy stopGrace).children.length = n ∧
    (Branches.replicas w n policy stopGrace).children.map Runnable.name =
      List.replicate n w.name := by
  have hlength : (Branches.replicas w n policy stopGrace).children.length = n :=
    List.length_replicate
  exact ⟨fun hnil => hn (by rw [← hlength, hnil, List.length_nil]), hlength, List.map_replicate⟩

theorem Branches.runs_replicas {input : Data} {inputs : List Data} (hn : n ≠ 0)
    (hin : FanOut.distribute "Branches" n true input = .ok inputs)
    (run : h.Runs task m ((Branches.replicas w n policy stopGrace).next ctx input) es m' o)
    (unstopped : ∀ k ≤ m', (h.world k).isStopped ctx.token = false) (hK : m' ≤ K)
    (follow : (h.endings K m).Follow n order)
    (single : ∀ c ∈ order, ∀ d, c.outcome = .ok d → ∃ s, d = .one s) :
    o = w.verdict (policy.getD ctx.config.policy) n order := by
  obtain ⟨hne, hlength, hnames⟩ := Branches.replicas_children w policy stopGrace hn
  rw [next_eq hne (hlength ▸ hin)] at run
  obtain ⟨f, start, -, run, -⟩ := History.runs_start run
  rw [FanOut.names_zip _ ((FanOut.length_distribute hin).trans hlength.symm), hnames] at start
  exact History.runs_gather_judged start (fun _ _ => rfl) run unstopped hK follow single

theorem Map.runs_judged {bound : Option Nat} {states : List State} (hne : states ≠ [])
    (run : h.Runs task m ((Map.mk w bound policy stopGrace).mapStates ctx states) es m' o)
    (unstopped : ∀ k ≤ m', (h.world k).isStopped ctx.token = false) (hK : m' ≤ K)
    (follow : (h.endings K ((Map.mk w bound policy stopGrace).firstStart ctx.config m)).Follow
      states.length order)
    (single : ∀ c ∈ order, ∀ d, c.outcome = .ok d → ∃ s, d = .one s) :
    o = w.verdict (policy.getD ctx.config.policy) states.length order := by
  obtain ⟨limit, es₀, es₁, rfl, -, run⟩ := runs_elements hne run
  obtain ⟨f, start, -, run, -⟩ := History.runs_start run
  rw [List.map_map] at start
  have hnames : states.map ((fun job : Runnable × Data => job.1.name) ∘ fun s => (w, .one s)) =
      List.replicate states.length w.name := by
    simp only [Function.comp_def, List.map_const']
  rw [hnames] at start
  exact History.runs_gather_judged start (fun g hg => result_of_single hg) run unstopped hK follow
    single

/-! ### Copying first -/

/-- The last component of a branch that is not stopped gives the outcome. -/
theorem Branch.runs_last {body : Runnable} {input : Data}
    (run : h.Runs task m (steps ctx [body] input) es m' o)
    (unstopped : ∀ k ≤ m', (h.world k).isStopped ctx.token = false) :
    ∃ es₀ m₁, m₁ ≤ m' ∧ h.Runs task (m + 1) (body.next ctx input) es₀ m₁ o := by
  have hle := run.le
  obtain ⟨es, rfl, -, -, run⟩ := History.runs_ask_now rfl run
  rw [unstopped m hle] at run
  obtain ⟨es₁, m₁, o₁, es₂, rfl, first, last⟩ := run.of_andThen
  obtain ⟨es₀, m₂, o₂, es₃, rfl, inner, recorded⟩ := first.of_andThen
  obtain ⟨es₃, rfl, -, -, recorded⟩ := History.runs_ask_now rfl recorded
  obtain ⟨rfl, rfl, rfl⟩ := History.runs_done_iff.mp recorded
  have hle₁ := last.le
  have ho : o = o₁ := by
    cases o₁ with
    | ok d => exact (History.runs_done_iff.mp last).2.2
    | error e =>
      dsimp only at last
      split at last
      · obtain ⟨es₂, rfl, -, -, last⟩ := History.runs_ask_now rfl last
        rw [unstopped _ hle₁] at last
        exact (History.runs_done_iff.mp last).2.2
      · exact (History.runs_done_iff.mp last).2.2
  exact ⟨es₀, m₂, Nat.le_of_succ_le hle₁, ho ▸ inner⟩

/-- After a state was copied, the rest of a branch takes the copies. -/
theorem Branch.runs_after_duplicate {body : Runnable} {s : State}
    (run : h.Runs task m (steps ctx [Leaf.duplicate n, body] (.one s)) es m' o)
    (unstopped : ∀ k ≤ m', (h.world k).isStopped ctx.token = false) :
    ∃ es₀ m₁, m₁ ≤ m' ∧
      h.Runs task (m + 3) (body.next ctx (.ofList (List.replicate n s))) es₀ m₁ o := by
  have hle := run.le
  obtain ⟨es, rfl, -, -, run⟩ := History.runs_ask_now rfl run
  rw [unstopped m hle] at run
  obtain ⟨es, rfl, -, -, run⟩ := History.runs_ask_now rfl run
  exact runs_last run unstopped

/-- A program whose parts are not stuck is not stuck. -/
theorem History.not_stuck_andThen {t : Task} {K : Outcome → Task}
    (first : ¬ h.Stuck heeded task m t)
    (rest : ∀ m₁ o, m ≤ m₁ → ¬ h.Stuck heeded task m₁ (K o)) :
    ¬ h.Stuck heeded task m (t.andThen K) := by
  induction t generalizing m with
  | done o => exact rest m o (Nat.le_refl m)
  | panic payload => exact absurd (.panic m payload) first
  | endless => exact absurd (.endless m) first
  | ask r next ih =>
    intro stuck
    cases stuck with
    | waits unanswered never => exact first (.waits unanswered never)
    | ask answers prompt stuck =>
      exact ih _ (fun stuck => first (.ask answers prompt stuck))
        (fun m₁ o hm => rest m₁ o (by have := answers.le; omega)) stuck
  | spawn name parent body next _ ih =>
    intro stuck
    cases stuck with
    | spawn atOnce stuck =>
      exact ih _ (fun stuck => first (.spawn atOnce stuck))
        (fun m₁ o hm => rest m₁ o (Nat.le_of_succ_le hm)) stuck

/-- A branch that copies a state is not stuck if the rest of it is not. -/
theorem Branch.not_stuck_duplicate {body : Runnable} {s : State}
    (rest : h.clock (m + 3) = h.clock m →
      ¬ h.Stuck heeded task (m + 3) (body.next ctx (.ofList (List.replicate n s)))) :
    ¬ h.Stuck heeded task m (steps ctx [Leaf.duplicate n, body] (.one s)) := by
  have hdone (m : Nat) (o : Outcome) : ¬ h.Stuck heeded task m (.done o) := nofun
  refine History.not_stuck_ask_now rfl fun hlook => ?_
  split
  · exact hdone _ _
  refine History.not_stuck_ask_now rfl fun hcopied => ?_
  refine History.not_stuck_ask_now rfl fun hlook' => ?_
  split
  · exact hdone _ _
  refine History.not_stuck_andThen (History.not_stuck_andThen ?_ fun m₁ o _ => ?_) fun m₁ o _ => ?_
  · exact rest (hlook'.trans (hcopied.trans hlook))
  · exact History.not_stuck_ask_now rfl fun _ => hdone _ _
  · cases o with
    | ok d => exact hdone _ _
    | error e =>
      dsimp only
      split
      · refine History.not_stuck_ask_now rfl fun _ => ?_
        split <;> exact hdone _ _
      · exact hdone _ _

/-- The programs that run a worker once on each of some states in a context, with failures under one
policy and stops under one grace period, and the moment from which on the runs are started. -/
inductive Replicates (w : Runnable) (policy : Option FailurePolicy) (stopGrace : Option Duration)
    (ctx : Context) : List State → Task → (Nat → Nat) → Prop
  /-- Branches over copies of the worker, one for each state of a list. -/
  | branches (states : List State) (failures : List FailureMarker) :
      Replicates w policy stopGrace ctx states
        ((Branches.replicas w states.length policy stopGrace).next ctx (.many ⟨states, failures⟩))
        fun m => m
  /-- A map of the worker over a list, without a bound or with one that a limit can hold. -/
  | map (bound : Option Nat) (states : List State) (failures : List FailureMarker)
      (fits : ∀ permits, (Map.mk w bound policy stopGrace).bound ctx.config = some permits →
        permits ≤ Map.maxPermits) :
      Replicates w policy stopGrace ctx states
        ((Map.mk w bound policy stopGrace).runnable.next ctx (.many ⟨states, failures⟩))
        ((Map.mk w bound policy stopGrace).firstStart ctx.config)
  /-- Branches over copies of the worker, each on the one state. -/
  | copies (n : Nat) (s : State) :
      Replicates w policy stopGrace ctx (List.replicate n s)
        ((Branches.replicas w n policy stopGrace).next ctx (.one s))
        fun m => m
  /-- These branches after the state was copied. -/
  | duplicateBranches (name : Option String) (n : Nat) (s : State) :
      Replicates w policy stopGrace ctx (List.replicate n s)
        ((Branch.runnable
          ⟨[Leaf.duplicate n, (Branches.replicas w n policy stopGrace).runnable], name⟩).next ctx
          (.one s))
        fun m => m + 3
  /-- A map after the state was copied. -/
  | duplicateMap (name : Option String) (bound : Option Nat) (n : Nat) (s : State)
      (fits : ∀ permits, (Map.mk w bound policy stopGrace).bound ctx.config = some permits →
        permits ≤ Map.maxPermits) :
      Replicates w policy stopGrace ctx (List.replicate n s)
        ((Branch.runnable
          ⟨[Leaf.duplicate n, (Map.mk w bound policy stopGrace).runnable], name⟩).next ctx (.one s))
        fun m => (Map.mk w bound policy stopGrace).firstStart ctx.config (m + 3)

/-- A task starts `n` runs, the first of them at a moment. By a later one all have ended, in a given
order with given results. As long as the task or one of them goes on nobody stops the token of the
task. -/
structure Trace.Ordered (tr : Trace) (task : TaskId) (token : TokenId) (first n : Nat)
    (order : List Completion) (final : Nat) : Prop where
  time : ∀ instant, ∃ k, instant ≤ tr.history.clock k
  ended : ∀ i < n, (tr.history.endings final first i).isSome
  follow : (tr.history.endings final first).Follow n order
  unstopped : ∀ k, (tr.history.world k).isStopped token = true →
    final ≤ k ∧ (tr.history.ended? k task).isSome

namespace Trace.Ordered

variable {tr : Trace} {token : TokenId} {first final k : Nat}

theorem awake (ordered : tr.Ordered task token first n order final)
    (h : tr.history.ended? k task = none) : (tr.history.world k).isStopped token = false := by
  refine Bool.eq_false_iff.mpr fun hstopped => ?_
  have hended := (ordered.unstopped k hstopped).2
  rw [h] at hended
  contradiction

theorem awake_of_unended (ordered : tr.Ordered task token first n order final)
    (h : ∃ i < n, tr.history.endings k first i = none) :
    (tr.history.world k).isStopped token = false := by
  obtain ⟨i, hi, hnone⟩ := h
  refine Bool.eq_false_iff.mpr fun hstopped => ?_
  exact absurd (History.lt_of_ended? hnone (ordered.ended i hi))
    (Nat.not_lt_of_le (ordered.unstopped k hstopped).1)

/-- A run is completed in the order. -/
theorem mem {i place : Nat} (ordered : tr.Ordered task token first n order final) (hi : i < n)
    (hended : tr.history.endings final first i = some (place, o)) : ⟨i, o⟩ ∈ order := by
  obtain ⟨ranked, hranked, rfl⟩ := ordered.follow
  refine List.mem_map.mpr ⟨(place, ⟨i, o⟩), hranked.perm.mem_iff.mpr ?_, rfl⟩
  refine List.mem_filterMap.mpr ⟨i, List.mem_range.mpr hi, ?_⟩
  rw [Endings.completion?, hended]
  rfl

end Trace.Ordered

namespace Replicates

variable {states : List State} {program : Task} {first : Nat → Nat}

theorem le_first (replicates : Replicates w policy stopGrace ctx states program first) (m : Nat) :
    m ≤ first m := by
  cases replicates with
  | branches | copies => exact Nat.le_refl m
  | map => exact Map.le_firstStart _ _ m
  | duplicateBranches => exact Nat.le_add_right m 3
  | duplicateMap =>
    exact Nat.le_of_add_right_le (Map.le_firstStart _ _ (m + 3))

/-- Every one of them judges the completions of the runs alike. -/
theorem runs_judged (replicates : Replicates w policy stopGrace ctx states program first)
    (hne : states ≠ []) (run : h.Runs task m program es m' o)
    (unstopped : ∀ k ≤ m', (h.world k).isStopped ctx.token = false) (hK : m' ≤ K)
    (follow : (h.endings K (first m)).Follow states.length order)
    (single : ∀ c ∈ order, ∀ d, c.outcome = .ok d → ∃ s, d = .one s) :
    o = w.verdict (policy.getD ctx.config.policy) states.length order := by
  have hlength : states.length ≠ 0 := fun hnil => hne (List.eq_nil_of_length_eq_zero hnil)
  cases replicates with
  | branches _ failures =>
    exact Branches.runs_replicas hlength (FanOut.distribute_list states failures) run unstopped hK
      follow single
  | map bound _ failures fits => exact Map.runs_judged hne run unstopped hK follow single
  | copies n s =>
    rw [List.length_replicate] at hlength follow ⊢
    exact Branches.runs_replicas hlength rfl run unstopped hK follow single
  | duplicateBranches name n s =>
    obtain ⟨es₀, m₁, hle, run⟩ := Branch.runs_after_duplicate run unstopped
    rw [List.length_replicate] at hlength follow ⊢
    have hin := FanOut.distribute_list (List.replicate n s) []
    rw [List.length_replicate] at hin
    exact Branches.runs_replicas hlength hin run (fun k hk => unstopped k (Nat.le_trans hk hle))
      (Nat.le_trans hle hK) follow single
  | duplicateMap name bound n s fits =>
    obtain ⟨es₀, m₁, hle, run⟩ := Branch.runs_after_duplicate run unstopped
    exact Map.runs_judged hne run (fun k hk => unstopped k (Nat.le_trans hk hle))
      (Nat.le_trans hle hK) follow single

/-- None of them is stuck where the runs that it starts come to an end and the grace period after a
failure is over at some instant. -/
theorem not_stuck {final : Nat} (replicates : Replicates w policy stopGrace ctx states program first)
    (hne : states ≠ []) (htime : ∀ instant, ∃ k, instant ≤ h.clock k)
    (ends : ∀ i < states.length, (h.endings final (first m) i).isSome)
    (graceful : h.Graceful ctx.token (stopGrace.getD ctx.config.stopGrace)
      (policy.getD ctx.config.policy).Refuses (h.startedAt (first m) states.length)
      (h.clock final)) :
    ¬ h.Stuck (fun _ => False) task m program := by
  have hlength : states.length ≠ 0 := fun hnil => hne (List.eq_nil_of_length_eq_zero hnil)
  have hbranches {m n : Nat} {input : Data} {inputs : List Data} (hn : n ≠ 0)
      (hin : FanOut.distribute "Branches" n true input = .ok inputs)
      (ends : ∀ i < n, (h.endings final m i).isSome)
      (graceful : h.Graceful ctx.token (stopGrace.getD ctx.config.stopGrace)
        (policy.getD ctx.config.policy).Refuses (h.startedAt m n) (h.clock final))
      (hm : h.clock m ≤ h.clock final) :
      ¬ h.Stuck (fun _ => False) task m ((Branches.replicas w n policy stopGrace).next ctx input) := by
    obtain ⟨hne, hlength, -⟩ := Branches.replicas_children w policy stopGrace hn
    rw [← hlength] at ends graceful
    exact Branches.not_stuck_next hne (hlength ▸ hin) htime (.inl (History.all_startedAt.mpr ends))
      hm (Nat.le_refl _) graceful
  have hmap {m : Nat} {map : Map} {states : List State}
      (fits : ∀ permits, map.bound ctx.config = some permits → permits ≤ Map.maxPermits)
      (ends : ∀ i < states.length, (h.endings final (map.firstStart ctx.config m) i).isSome)
      (graceful : h.Graceful ctx.token (map.rules ctx.config).grace
        (map.rules ctx.config).policy.Refuses
        (h.startedAt (map.firstStart ctx.config m) states.length)
        (h.clock final))
      (hm : h.clock m ≤ h.clock final) :
      ¬ h.Stuck (fun _ => False) task m (map.mapStates ctx states) :=
    Map.not_stuck_mapStates fits htime (.inl (History.all_startedAt.mpr ends)) hm
      (Nat.le_refl _) graceful
  have hm : h.clock m ≤ h.clock final :=
    Nat.le_trans (h.clock_mono (replicates.le_first m))
      (History.clock_le_of_ended (ends 0 (Nat.pos_of_ne_zero hlength)))
  cases replicates with
  | branches _ failures =>
    exact hbranches hlength (FanOut.distribute_list states failures) ends graceful hm
  | map bound _ failures fits => exact hmap fits ends graceful hm
  | copies n s =>
    rw [List.length_replicate] at hlength ends graceful
    exact hbranches hlength rfl ends graceful hm
  | duplicateBranches name n s =>
    rw [List.length_replicate] at hlength ends graceful
    have hin := FanOut.distribute_list (List.replicate n s) []
    rw [List.length_replicate] at hin
    exact Branch.not_stuck_duplicate fun hclock =>
      hbranches hlength hin ends graceful (hclock.symm ▸ hm)
  | duplicateMap name bound n s fits =>
    exact Branch.not_stuck_duplicate fun hclock =>
      hmap fits ends graceful (hclock.symm ▸ hm)

/-- Otherwise every one of them comes to what the completions are judged to be. -/
theorem completes {tr : Trace} {K : Outcome → Task} {final : Nat}
    (replicates : Replicates w policy stopGrace ctx states program first) (hne : states ≠ [])
    (ordered : tr.Ordered task ctx.token (first m) states.length order final)
    (single : ∀ c ∈ order, ∀ d, c.outcome = .ok d → ∃ s, d = .one s)
    (graceful : (∃ c ∈ order, (policy.getD ctx.config.policy).Refuses c.outcome) →
      tr.history.clock final + (stopGrace.getD ctx.config.stopGrace).nanos < Instant.limit)
    (running : (tr.machine m).control = .running task (program.andThen K)) :
    ∃ es k, tr.history.Runs task m program es k
        (w.verdict (policy.getD ctx.config.policy) states.length order) ∧
      (tr.machine k).control =
        .running task (K (w.verdict (policy.getD ctx.config.policy) states.length order)) := by
  have hgraceful : tr.history.Graceful ctx.token (stopGrace.getD ctx.config.stopGrace)
      (policy.getD ctx.config.policy).Refuses (tr.history.startedAt (first m) states.length)
      (tr.history.clock final) := by
    refine .of_awake (fun k => ordered.awake_of_unended) ?_
    rintro ⟨i, hi, k, place, o, hended, hrefuses⟩
    exact graceful ⟨_, ordered.mem hi (History.endings_eq hended (ordered.ended i hi)), hrefuses⟩
  have hgoes : ¬ tr.history.Stuck (fun _ => False) task m program :=
    replicates.not_stuck hne ordered.time ordered.ended hgraceful
  obtain ⟨es, k, o, run, hover⟩ :=
    Trace.completes ordered.time (fun _ => False.elim) running hgoes
  have unended := ((tr.sound_at k).runs _ _ hover).2.1
  obtain rfl := replicates.runs_judged hne run
    (fun j hj => ordered.awake (History.ended?_eq_none hj unended)) (Nat.le_max_left k final)
    (History.follow_of_all_ended ordered.ended ordered.follow (Nat.le_max_right k final)) single
  exact ⟨es, k, run, hover⟩

end Replicates

end Orchestra
