import Orchestra.Proofs.Composed
import Orchestra.Proofs.Fold.Course
import Orchestra.Proofs.Sequence.Course

/-!
# How composites run their parts

A composite runs its parts in one of two ways. A branch, a fold and a loop call theirs one after the other,
in the task in which they run themselves, and only look at their token or the clock between two calls.
Branches side by side, races and maps start theirs in children of their own and gather these or race them. So
a fact about all pipelines has a case for sequences and one for fan-outs, instead of one for each composite.
-/

namespace Orchestra

/-! ### Sequences -/

/-- Whether a script calls some parts only, wherever it goes, and records nothing itself. -/
def Script.CallsOnly (part : Runnable → Prop) : Script → Prop
  | done _ => True
  | endless => True
  | look next => ∀ stopped, (next stopped).CallsOnly part
  | time next => ∀ reading, (next reading).CallsOnly part
  | call r _ next => part r ∧ ∀ o, (next o).CallsOnly part
  | note .. => False

/-- A runnable that calls some parts in sequence. -/
def Runnable.Sequences (r : Runnable) (part : Runnable → Prop) : Prop :=
  ∀ ctx input, ∃ s : Script, s.CallsOnly part ∧ s.task ctx = r.next ctx input

variable {part : Runnable → Prop}

theorem Script.CallsOnly.mono {part' : Runnable → Prop} {s : Script} (h : s.CallsOnly part)
    (hpart : ∀ r, part r → part' r) : s.CallsOnly part' := by
  induction s with
  | done | endless => trivial
  | look next ih => exact fun stopped => ih stopped (h stopped)
  | time next ih => exact fun reading => ih reading (h reading)
  | call r input next ih => exact ⟨hpart r h.1, fun o => ih o (h.2 o)⟩
  | note => exact h

/-- Asking why a part was cancelled calls nothing. -/
theorem Script.callsOnly_afterError {k : Outcome → Script} {held : Data} {e : RunError}
    (hk : ∀ o, (k o).CallsOnly part) : (afterError k held e).CallsOnly part := by
  unfold afterError
  split
  · exact fun _ => hk _
  · exact hk _

namespace Branch

theorem callsOnly_script {components : List Runnable} (h : ∀ r ∈ components, part r) (input : Data) :
    (script components input).CallsOnly part := by
  induction components generalizing input with
  | nil => trivial
  | cons component rest ih =>
    obtain ⟨hcomponent, hrest⟩ := List.forall_mem_cons.mp h
    intro stopped
    cases stopped with
    | true => trivial
    | false =>
      refine ⟨hcomponent, fun o => ?_⟩
      cases o with
      | ok output => exact ih hrest output
      | error e => exact Script.callsOnly_afterError fun _ => trivial

theorem sequences (b : Branch) : b.runnable.Sequences (· ∈ b.components) :=
  fun ctx input => ⟨_, callsOnly_script (fun _ => id) input, b.task_script ctx input⟩

end Branch

namespace Reduce

variable {r : Reduce}

theorem callsOnly_following {next : State → Script} (hnext : ∀ s, (next s).CallsOnly part)
    (result : Except RunError State) : (following next result).CallsOnly part := by
  cases result with
  | ok s => exact hnext s
  | error e => trivial

theorem callsOnly_foldScript (h : ∀ body, r.combiner = .runnable body → part body)
    (items : List State) (held : State) : (r.foldScript items held).CallsOnly part := by
  induction items generalizing held with
  | nil => trivial
  | cons item rest ih =>
    intro stopped
    cases stopped with
    | true => trivial
    | false =>
      dsimp only [Bool.false_eq_true, ite_false]
      unfold combining
      cases hcombiner : r.combiner with
      | function f => exact callsOnly_following ih _
      | runnable body => exact ⟨h body hcombiner, fun _ => callsOnly_following ih _⟩

theorem callsOnly_script (h : ∀ body, r.combiner = .runnable body → part body)
    (items : List State) : (r.script items).CallsOnly part := by
  unfold script
  split
  · exact callsOnly_foldScript h _ _
  · trivial

theorem sequences (r : Reduce) : r.runnable.Sequences fun body => r.combiner = .runnable body := by
  intro ctx input
  cases input with
  | one state => exact ⟨.done _, trivial, rfl⟩
  | many states => exact ⟨_, callsOnly_script (fun _ => id) states.items, r.task_script ctx states⟩

end Reduce

namespace Loop

variable {l : Loop} {σ : Type} {plan : Plan σ}

/-- A run of the body is followed by the next round at most. -/
theorem callsOnly_after {goOn : σ → Script} (hgoOn : ∀ held, (goOn held).CallsOnly part) (held : σ)
    (o : Outcome) : (after plan goOn held o).CallsOnly part := by
  unfold after
  cases o with
  | ok output =>
    dsimp only
    split
    · trivial
    · split
      · trivial
      · exact hgoOn _
  | error e =>
    dsimp only
    split
    · exact fun _ => trivial
    · trivial

theorem callsOnly_timing {next : Nat → Script} (hnext : ∀ reading, (next reading).CallsOnly part) :
    (l.timing next).CallsOnly part := by
  unfold timing
  split
  · exact hnext 0
  · exact hnext

theorem callsOnly_round {goOn : σ → Script} (hgoOn : ∀ held, (goOn held).CallsOnly (· = l.body))
    (held : σ) : (l.round plan goOn held).CallsOnly (· = l.body) := by
  intro stopped
  dsimp only
  split
  · trivial
  · exact ⟨rfl, callsOnly_after hgoOn held⟩

theorem callsOnly_script (started rounds : Nat) (held : σ) :
    (l.script plan started rounds held).CallsOnly (· = l.body) := by
  induction rounds generalizing held with
  | zero =>
    rw [script, exhausted]
    split <;> trivial
  | succ rounds ih =>
    refine callsOnly_timing fun reading => ?_
    split
    · trivial
    · exact callsOnly_round ih held

theorem callsOnly_start (held : σ) : (l.start plan held).CallsOnly (· = l.body) :=
  callsOnly_timing fun started => callsOnly_script started l.rounds held

end Loop

theorem LoopKind.sequences (kind : LoopKind) (l : Loop) :
    (kind.runnable l).Sequences (· = l.body) := by
  refine fun ctx input => ⟨kind.script l input, ?_, kind.task_script l ctx input⟩
  cases kind with
  | last | best | improve => exact Loop.callsOnly_start _
  | unwind =>
    unfold script
    dsimp only
    split
    · trivial
    · exact Loop.callsOnly_start _

/-! ### Fan-outs -/

/-- A program that starts some parts in children and gathers or races them, if it gets so far. -/
inductive Task.FansOut (ctx : Context) (part : Runnable → Prop) : Task → Prop
  | done (o : Outcome) : FansOut ctx part (.done o)
  | panic (p : Payload) : FansOut ctx part (.panic p)
  | newLimit (permits : Nat) {next : LimitId → Task} (rest : ∀ l, FansOut ctx part (next l)) :
    FansOut ctx part (.ask (.newLimit permits) next)
  | gather (limit : Option LimitId) {jobs : List (Runnable × Data)} (hjobs : ∀ job ∈ jobs, part job.1)
    (rules : FanOut.Rules) (result : Gathered → Outcome) :
    FansOut ctx part (FanOut.start ctx limit jobs fun f =>
      f.gather ctx rules fun gathered => .done (result gathered))
  | race {jobs : List (Runnable × Data)} (hjobs : ∀ job ∈ jobs, part job.1) (rules : FanOut.Rules)
    (result : RaceLedger → Outcome) :
    FansOut ctx part (FanOut.start ctx none jobs fun f =>
      Race.decide ctx rules (Race.settle rules fun l => .done (result l)) f.outstanding f .empty)

/-- A runnable that starts some parts side by side. -/
def Runnable.FansOut (r : Runnable) (part : Runnable → Prop) : Prop :=
  ∀ (ctx : Context) input, (r.next ctx input).FansOut ctx part

theorem Task.FansOut.mono {ctx : Context} {part' : Runnable → Prop} {t : Task}
    (h : t.FansOut ctx part) (hpart : ∀ r, part r → part' r) : t.FansOut ctx part' := by
  induction h with
  | done o => exact .done o
  | panic p => exact .panic p
  | newLimit permits _ ih => exact .newLimit permits ih
  | gather limit hjobs => exact .gather limit (fun job hjob => hpart _ (hjobs job hjob)) _ _
  | race hjobs => exact .race (fun job hjob => hpart _ (hjobs job hjob)) _ _

theorem Branches.fansOut (b : Branches) : b.runnable.FansOut (· ∈ b.children) := by
  intro ctx input
  unfold runnable next
  dsimp only
  split
  · exact .done _
  split
  · exact .done _
  · exact .gather none (fun job hjob => (List.of_mem_zip hjob).1) _ _

theorem Race.fansOut (r : Race) : r.runnable.FansOut (· ∈ r.children) := by
  intro ctx input
  unfold runnable Race.next
  dsimp only
  split
  · exact .done _
  split
  · exact .done _
  · exact .race (fun job hjob => (List.of_mem_zip hjob).1) _ _

theorem Map.fansOut (m : Map) : m.runnable.FansOut (· = m.worker) := by
  intro ctx input
  unfold runnable
  dsimp only
  split
  · next states _ =>
    unfold mapStates
    split
    · exact .done _
    have hjobs : ∀ job ∈ states.items.map fun s => (m.worker, Data.one s), job.1 = m.worker := by
      intro job hjob
      obtain ⟨s, -, rfl⟩ := List.mem_map.mp hjob
      rfl
    unfold withLimit
    split
    · exact .gather none hjobs _ _
    · split
      · exact .newLimit _ fun l => .gather (some l) hjobs _ _
      · exact .panic _
  · exact .done _

/-! ### Pipelines -/

/-- One runnable is a part of another, which is a composite. -/
inductive Runnable.IsPartOf : Runnable → Runnable → Prop
  | component {b : Branch} {x : Runnable} (h : x ∈ b.components) : IsPartOf x b.runnable
  | child {b : Branches} {x : Runnable} (h : x ∈ b.children) : IsPartOf x b.runnable
  | racer {r : Race} {x : Runnable} (h : x ∈ r.children) : IsPartOf x r.runnable
  | worker (m : Map) : IsPartOf m.worker m.runnable
  | combiner {r : Reduce} {x : Runnable} (h : r.combiner = .runnable x) : IsPartOf x r.runnable
  | body (kind : LoopKind) (l : Loop) : IsPartOf l.body (kind.runnable l)

/-- What holds of the leaves, and of sequences and fan-outs whenever it holds of their parts, holds of a
pipeline. -/
theorem Runnable.Composed.of_parts {parts : Parts} {P : Runnable → Prop}
    (leaf : ∀ r, parts.leaf r → P r)
    (sequence : ∀ (r : Runnable) part, r.Sequences part → (∀ x, part x → x.IsPartOf r) →
      (∀ x, part x → P x) → P r)
    (fanOut : ∀ (r : Runnable) part, r.FansOut part → (∀ x, part x → x.IsPartOf r) →
      (∀ x, part x → P x) → P r)
    {r : Runnable} (composed : r.Composed parts) : P r := by
  have hreduce (r : Reduce) (h : ∀ body, r.combiner = .runnable body → P body) : P r.runnable :=
    sequence _ _ r.sequences (fun _ => .combiner) h
  have hloop (kind : LoopKind) (l : Loop) (h : P l.body) : P (kind.runnable l) :=
    sequence _ _ (kind.sequences l) (fun _ hx => hx ▸ .body kind l) fun _ hx => hx ▸ h
  induction composed with
  | leaf allowed => exact leaf _ allowed
  | @branch b _ ih => exact sequence _ _ b.sequences (fun _ => .component) ih
  | @branches b _ _ ih => exact fanOut _ _ b.fansOut (fun _ => .child) ih
  | @race x _ _ ih => exact fanOut _ _ x.fansOut (fun _ => .racer) ih
  | @map m _ ih => exact fanOut _ _ m.fansOut (fun _ hx => hx ▸ .worker m) fun _ hx => hx ▸ ih
  | reduce combiner =>
    refine hreduce _ fun body hbody => ?_
    rw [combiner] at hbody
    contradiction
  | reduceBy combiner _ _ ih =>
    refine hreduce _ fun body hbody => ?_
    rw [combiner] at hbody
    cases hbody
    exact ih
  | last _ ih => exact hloop .last _ ih
  | unwind _ ih => exact hloop .unwind _ ih
  | best _ ih => exact hloop (.best _) _ ih
  | improve _ ih => exact hloop (.improve _) _ ih

end Orchestra
