import Orchestra.Proofs.Composed
import Orchestra.Proofs.Rely.Soundness
import Orchestra.Proofs.Stop.SideBySide
import Orchestra.Proofs.World.Alone

/-!
# The problem is carried along

Every state refers to the problem that is being solved. If the states that a pipeline gets carry a
problem, and its leaves, merges and combiners make states that carry it of such states, so do all
states that come out of it. Trackers hand states from one execution to another, so they must not hold
others; a pipeline that offers them only states of its own keeps it so.
-/

namespace Orchestra

/-- A state carries a problem if it refers to the same instance. -/
def State.Carries (p : Problem) (s : State) : Prop :=
  ∃ q, s.problem = some q ∧ q.sameInstance p = true

/-- All states carry the problem. -/
def Data.Carries (p : Problem) (d : Data) : Prop :=
  ∀ s ∈ d.states, s.Carries p

/-- The trackers hold only states that carry the problem. -/
def Cells.Carry (p : Problem) (trackers : TrackerId → Prop) (c : Cells) : Prop :=
  ∀ tracker, trackers tracker → ∀ s, (c.trackers.get? tracker).bind Tracker.value? = some s →
    s.Carries p

/-- Only states that carry the problem may be offered to the trackers, and none but such are granted
in return. -/
def Rely.carrying (p : Problem) (trackers : TrackerId → Prop) : Rely where
  allowed
    | _, .offer tracker _ s => trackers tracker → s.Carries p
    | _, _ => True
  granted
    | .offer tracker _ _, best => trackers tracker → ∀ s, best = some s → s.Carries p
    | _, _ => True
  heeded token r _ hr := by
    cases r with
    | offer => contradiction
    | _ => trivial

variable {p : Problem} {trackers : TrackerId → Prop}

/-- What a tracker holds after an offer was held before or has been offered. -/
theorem Rely.upheldBy_carry : (carrying p trackers).UpheldBy (Cells.Carry p trackers) := by
  intro w w' task deadline token r a allowed there hcarry
  cases hr : r.isOffer with
  | false =>
    constructor
    · intro tracker ht s hs
      rw [World.trackers_answer? there hr] at hs
      exact hcarry tracker ht s hs
    · cases r with
      | offer => contradiction
      | _ => trivial
  | true =>
    cases r with
    | offer tracker key state =>
      have hafter (t : TrackerId) (ht : trackers t) (s : State)
          (hs : ((w.cells.trackers.modify tracker fun t => t.offer key state).get? t).bind
            Tracker.value? = some s) : s.Carries p := by
        rw [Table.get?_modify] at hs
        split at hs
        · next heq =>
          subst heq
          cases hheld : w.cells.trackers.get? tracker with
          | none => simp [hheld] at hs
          | some held =>
            rw [hheld] at hs
            rcases Tracker.value?_offer hs with hvalue | rfl
            · exact hcarry tracker ht s (by rw [hheld]; exact hvalue)
            · exact allowed ht
        · exact hcarry t ht s hs
      cases there
      exact ⟨hafter, fun ht s hs => hafter tracker ht s hs⟩
    | _ => contradiction

/-! ### States that are made of states -/

section States

variable {s : State} {states : List State} {d : Data}

theorem State.Carries.of_problem_eq {s' : State} (h : s.Carries p)
    (heq : s'.problem = s.problem) : s'.Carries p := by
  obtain ⟨q, hq, hsame⟩ := h
  exact ⟨q, heq.trans hq, hsame⟩

@[simp] theorem Data.carries_one : (Data.one s).Carries p ↔ s.Carries p := by
  simp [Data.Carries, Data.states]

@[simp] theorem Data.carries_many {ss : States} :
    (Data.many ss).Carries p ↔ ∀ s ∈ ss.items, s.Carries p :=
  Iff.rfl

theorem Data.carries_of_map {o : Except RunError State} (h : ∀ s, o = .ok s → s.Carries p)
    (hd : o.map Data.one = .ok d) : d.Carries p := by
  cases o with
  | error e => cases hd
  | ok s =>
    cases hd
    exact Data.carries_one.mpr (h s rfl)

/-- The default merge keeps the first problem. -/
theorem carries_mergeSamples {merged : State} (h : ∀ s ∈ states, s.Carries p)
    (hmerged : mergeSamples states = .ok merged) : merged.Carries p := by
  cases states with
  | nil => cases hmerged
  | cons first rest =>
    cases hmerged
    exact (h first List.mem_cons_self).of_problem_eq rfl

theorem carries_mergeList {aggregate : Bool} {merged : State} (h : ∀ s ∈ states, s.Carries p)
    (hmerged : mergeList aggregate states = .ok merged) : merged.Carries p := by
  unfold mergeList at hmerged
  cases hsamples : mergeSamples states with
  | error e =>
    rw [hsamples] at hmerged
    cases hmerged
  | ok all =>
    rw [hsamples] at hmerged
    cases hmerged
    refine (carries_mergeSamples h hsamples).of_problem_eq ?_
    split <;> rfl

/-- What is selected is one of the candidates. -/
theorem mem_of_selectLeast {key : Key} (h : selectLeast key states = .ok s) : s ∈ states := by
  unfold selectLeast at h
  split at h
  · cases h
  · split at h
    · next hget =>
      cases h
      exact List.mem_of_getElem? hget
    · cases h

theorem Data.Carries.replaceSamples (h : d.Carries p) (samples : SampleSet) :
    (Leaf.replaceSamples samples d).Carries p := by
  cases d with
  | one s =>
    have hs : s.Carries p := Data.carries_one.mp h
    exact Data.carries_one.mpr (hs.of_problem_eq rfl)
  | many ss =>
    intro s' hs'
    obtain ⟨s, hs, rfl⟩ := List.mem_map.mp hs'
    exact (h s hs).of_problem_eq rfl

end States

/-! ### Parts -/

/-- From states that carry the problem a part makes states that carry it. -/
def Runnable.Preserves (p : Problem) (trackers : TrackerId → Prop) (r : Runnable) : Prop :=
  ∀ config, r.Meets (.carrying p trackers) (fun _ => True) config (Data.Carries p) (Data.Carries p)

/-- From states that carry the problem a fan-in makes states that carry it. -/
def FanIn.Preserves (p : Problem) : FanIn → Prop
  | .collect => True
  | .merge f => ∀ states, (∀ s ∈ states, s.Carries p) → ∀ merged, f states = .ok merged →
    merged.Carries p

/-- The leaves of the library and the default merge, and any other parts that make states which carry
the problem of such. -/
def Parts.preserving (p : Problem) (trackers : TrackerId → Prop) : Parts where
  leaf r := r.OfLibrary trackers ∨ r.Preserves p trackers
  fanIn f := f = .merge mergeSamples ∨ f.Preserves p
  combine f := ∀ held item, held.Carries p → item.Carries p → ∀ s, f held item = .ok s → s.Carries p
  initial s := s.Carries p

/-- A part that computes its output at once preserves the problem if its function does. -/
theorem Runnable.preserves_ofFunction {name text : String} {f : Data → Outcome}
    (h : ∀ d, d.Carries p → ∀ d', f d = .ok d' → d'.Carries p) :
    (Runnable.ofFunction name text f).Preserves p trackers := by
  intro config ctx _ d hd
  change Outcome.Within _ _ (f d)
  cases hf : f d with
  | ok d' => exact h d hd d' hf
  | error e => exact .inr trivial

theorem Leaf.preserves_onState {name : String} {f : State → Except RunError State}
    (h : ∀ s, s.Carries p → ∀ s', f s = .ok s' → s'.Carries p) :
    (Leaf.onState name f).Preserves p trackers := by
  refine Runnable.preserves_ofFunction fun d hd d' hd' => ?_
  cases d with
  | many ss => cases hd'
  | one s => exact Data.carries_of_map (h s (Data.carries_one.mp hd)) hd'

/-- The leaves of the library preserve every problem. -/
theorem Runnable.OfLibrary.preserves {r : Runnable} (h : r.OfLibrary trackers) :
    r.Preserves p trackers := by
  cases h with
  | identity =>
    refine preserves_ofFunction fun d hd d' hd' => ?_
    cases hd'
    exact hd
  | duplicate count =>
    refine preserves_ofFunction fun d hd d' hd' => ?_
    cases d with
    | many ss => cases hd'
    | one s =>
      cases hd'
      intro s' hs'
      rw [List.eq_of_mem_replicate hs']
      exact Data.carries_one.mp hd
  | constant samples =>
    refine preserves_ofFunction fun d hd d' hd' => ?_
    cases hd'
    exact hd.replaceSamples samples
  | mergeStates aggregate =>
    refine preserves_ofFunction fun d hd d' hd' => ?_
    cases d with
    | one s => cases hd'
    | many ss => exact Data.carries_of_map (fun _ => carries_mergeList hd) hd'
  | select key =>
    refine preserves_ofFunction fun d hd d' hd' => ?_
    cases d with
    | one s => cases hd'
    | many ss => exact Data.carries_of_map (fun s hs => hd s (mem_of_selectLeast hs)) hd'
  | sleep span => exact fun config ctx _ d hd => ⟨trivial, fun _ _ => hd⟩
  | report label => exact fun config ctx _ d hd => ⟨trivial, fun _ _ => hd⟩
  | track key outputBest among =>
    intro config ctx _ d hd
    cases d with
    | many ss => exact .inr trivial
    | one s =>
      have hs : s.Carries p := Data.carries_one.mp hd
      refine ⟨fun _ => hs, fun best hbest => Data.carries_one.mpr ?_⟩
      cases outputBest with
      | false => exact hs
      | true =>
        cases best with
        | none => exact hs
        | some held => exact hbest.1 among held rfl

/-! ### Composites -/

section Composites

variable {config : Config} {S : State → Prop}

/-- Whatever its shape, data that carries the problem is taken or refused, -/
theorem Data.Carries.isState {d : Data} (hd : d.Carries p) (name : String) :
    d.IsState (fun _ => True) name (State.Carries p) := by
  cases d with
  | one s => exact Data.carries_one.mp hd
  | many ss => trivial

theorem Data.Carries.isList {d : Data} (hd : d.Carries p) (name : String) {L : List State → Prop}
    (hL : ∀ items, (∀ s ∈ items, s.Carries p) → L items) : d.IsList (fun _ => True) name L := by
  cases d with
  | one s => trivial
  | many ss => exact hL ss.items hd

theorem Data.carries_of_one {d : Data} (h : ∃ s, d = .one s ∧ s.Carries p) : d.Carries p := by
  obtain ⟨s, rfl, hs⟩ := h
  exact Data.carries_one.mpr hs

/-- and each child gets a part of it. -/
theorem FanOut.feeds_carries (owner : String) (children : Nat) (perChild : Bool) :
    Feeds (fun _ => True) owner children perChild (Data.Carries p) fun _ => Data.Carries p := by
  intro d hd
  cases d with
  | one s =>
    intro i d' hd'
    rw [List.eq_of_mem_replicate (List.mem_of_getElem? hd')]
    exact hd
  | many ss =>
    cases perChild with
    | false => trivial
    | true =>
      by_cases hlength : ss.items.length = children
      · simp only [distribute, if_true, if_pos hlength]
        intro i d' hd'
        obtain ⟨s, hs, rfl⟩ := List.mem_map.mp (List.mem_of_getElem? hd')
        exact Data.carries_one.mpr (hd s hs)
      · simp only [distribute, if_true, if_neg hlength]

/-- A fan-in that preserves the problem does so for every choice of outputs. -/
theorem FanIn.accepts_carries {fanIn : FanIn} (h : (Parts.preserving p trackers).fanIn fanIn) :
    fanIn.Accepts (fun _ => True) (Data.Carries p) (Data.Carries p) := by
  intro outputs _ hall markers
  have hstates : ∀ s ∈ outputs.flatMap Data.states, s.Carries p := by
    intro s hs
    obtain ⟨d, hd, hs⟩ := List.mem_flatMap.mp hs
    exact hall d hd s hs
  have hpreserves : fanIn.Preserves p := by
    rcases h with rfl | h
    · exact fun _ hs _ => carries_mergeSamples hs
    · exact h
  cases fanIn with
  | collect => exact hstates
  | merge f =>
    cases hf : f (outputs.flatMap Data.states) with
    | error e =>
      simp only [FanIn.apply, hf]
      exact .inr trivial
    | ok merged =>
      simp only [FanIn.apply, hf]
      exact Data.carries_one.mpr ((hpreserves _ hstates merged hf).of_problem_eq rfl)

theorem Branch.preserves {b : Branch} (h : ∀ r ∈ b.components, r.Preserves p trackers) :
    b.runnable.Preserves p trackers := by
  obtain ⟨components, name⟩ := b
  intro config
  induction components with
  | nil => exact Branch.meets_nil name fun _ => id
  | cons r rest ih =>
    obtain ⟨hr, hrest⟩ := List.forall_mem_cons.mp h
    exact Branch.meets_cons (fun _ => id) (hr config) (ih hrest)

theorem Reduce.preserves {r : Reduce} (initial : ∀ s, r.initial = some s → s.Carries p)
    (h : ∀ config, Combines (.carrying p trackers) (fun _ => True) config (State.Carries p)
      (State.Carries p) r.combiner) : r.runnable.Preserves p trackers := by
  have htakes (items : List State) (hitems : ∀ s ∈ items, s.Carries p) :
      r.Takes (fun _ => True) (State.Carries p) (State.Carries p) items := by
    unfold Takes
    cases hinitial : r.initial with
    | some s => exact ⟨initial s hinitial, hitems⟩
    | none =>
      cases items with
      | nil => trivial
      | cons first rest => exact List.forall_mem_cons.mp hitems
  intro config
  exact (Reduce.meets (h config)).weaken (fun d hd => hd.isList "Reduce" htakes)
    fun _ => Data.carries_of_one

theorem Map.preserves {m : Map} (h : m.worker.Preserves p trackers) :
    m.runnable.Preserves p trackers := by
  intro config
  have hworker := (h config).weaken (fun _ => Data.carries_of_one) fun d hd =>
    hd.isState m.worker.name
  refine (Map.meets (L := fun items => ∀ s ∈ items, s.Carries p) (fun _ _ _ => trivial)
    (fun _ _ => .inr fun _ => trivial) (fun _ _ => .inr fun _ => trivial) (fun _ => id) (fun _ => nofun) hworker
    fun states _ hstates _ => hstates).weaken ?_ fun _ => id
  exact fun d hd => hd.isList "Map" fun _ => id

theorem Loop.preserves_unwind {l : Loop} (h : l.body.Preserves p trackers) :
    l.unwind.Preserves p trackers := by
  intro config
  have hbody := (h config).weaken (fun _ => Data.carries_of_one) fun d hd =>
    hd.isState l.body.name
  refine (Loop.meets_unwind hbody).weaken (fun d hd => hd.isState "Unwind") ?_
  rintro _ ⟨history, rfl, hhistory⟩
  exact hhistory

/-- A pipeline that is composed of parts which preserve the problem preserves it. -/
theorem Runnable.Composed.preserves {r : Runnable}
    (composed : r.Composed (.preserving p trackers)) : r.Preserves p trackers := by
  induction composed with
  | leaf allowed => exact allowed.elim OfLibrary.preserves id
  | branch _ ih => exact Branch.preserves ih
  | @branches b _ fanIn ih =>
    intro config
    refine Branches.meets (fun _ _ _ => trivial) (fun _ _ => .inr fun _ => trivial)
      (fun _ => trivial)
      (FanOut.feeds_carries _ _ _) (fun i c hc => ?_) (FanIn.accepts_carries fanIn)
    exact ih c (List.mem_of_getElem? hc) config
  | @race b _ fanIn ih =>
    intro config
    refine Race.meets (fun _ _ _ => trivial) (fun _ _ => .inr fun _ => trivial)
      (fun _ => trivial)
      (FanOut.feeds_carries _ _ _) (fun i c hc => ?_) (FanIn.accepts_carries fanIn)
    exact ih c (List.mem_of_getElem? hc) config
  | map _ ih => exact Map.preserves ih
  | reduce combiner combine initial =>
    refine Reduce.preserves initial fun config => ?_
    rw [combiner]
    exact fun held item hheld hitem => ⟨combine held item hheld hitem, fun _ _ => trivial⟩
  | @reduceBy r body combiner _ initial ih =>
    refine Reduce.preserves initial fun config => ?_
    rw [combiner]
    refine (ih config).weaken ?_ fun d hd => hd.isState body.name
    rintro _ ⟨held, item, rfl, hheld, hitem⟩
    exact List.forall_mem_cons.mpr ⟨hheld, List.forall_mem_singleton.mpr hitem⟩
  | last _ ih => exact fun config => Loop.meets_last (ih config)
  | unwind _ ih => exact Loop.preserves_unwind ih
  | best _ ih => exact fun config => Loop.meets_best _ (ih config)
  | improve _ ih => exact fun config => Loop.meets_improve _ (ih config) fun _ => id

end Composites

/-- A run of a pipeline that is composed of parts which preserve a problem, on an input that carries
it. Whenever and however often tokens are stopped, whatever fails and whatever other tasks do, if the
run ends with an output, this carries the problem. Trackers must hold no other states at first, and
others must not offer them any; the run itself does not. -/
theorem Runnable.Composed.carries_problem {r : Runnable}
    (composed : r.Composed (.preserving p trackers)) (ctx : Context) (input : Data)
    (hinput : input.Carries p) (limit : Option LimitId) (token : TokenId) (tr : Trace) (w : World)
    (m : Nat) (begun : w.begun (ctx.run r input limit token) ∈ (tr.history.world m).suspended)
    (fresh : (tr.history.world m).cells.Carry p trackers)
    (others : ∀ k, m ≤ k → ¬ tr.Active m w.tasks.size k →
      (tr.history.world k).cells.Carry p trackers →
      (tr.history.world (k + 1)).cells.Carry p trackers) (k : Nat) (hk : m ≤ k) :
    (∀ place d, tr.history.ended? k w.tasks.size = some (place, .ok d) →
      ∀ s ∈ d.states, s.Carries p) ∧
    (tr.history.world k).cells.Carry p trackers := by
  have hmeets : (ctx.run r input limit token).Meets (.carrying p trackers) token
      (Outcome.Within (fun _ => True) (Data.Carries p)) .nothing :=
    Context.meets_run (composed.preserves ctx.config { ctx with token } rfl input hinput) (.inl rfl)
  obtain ⟨hcarry, hends⟩ := Trace.upholds Rely.upheldBy_carry begun hmeets fresh others hk
  exact ⟨fun place d hended => hends place (.ok d) hended, hcarry⟩

/-- The problem of a run. -/
def tour : Problem := ⟨7, "Tour", "cities"⟩

/-- A state of its own and one from a tracker, side by side. -/
def tourBranches : Branches :=
  ⟨[Leaf.stubborn (.ofMillis 20) .zero, Leaf.track State.minEnergy true 0], .merge mergeSamples, none, none,
    false⟩

/-- The tracker gets a state before. -/
def tourBranch : Branch :=
  ⟨[Leaf.track State.minEnergy false 0, tourBranches.runnable, Leaf.sleep (.ofMillis 50)], none⟩

theorem preserves_stubborn (delay : Duration) (energy : Double) :
    (Leaf.stubborn delay energy).Preserves p trackers := by
  intro config ctx _ d hd
  refine ⟨trivial, fun _ _ => ?_⟩
  cases d with
  | many ss => exact .inr trivial
  | one s => exact Data.carries_one.mpr ((Data.carries_one.mp hd).of_problem_eq rfl)

theorem composed_tourBranch : tourBranch.runnable.Composed (.preserving tour (· = 0)) := by
  have htrack (outputBest : Bool) : (Leaf.track State.minEnergy outputBest 0).Composed
      (.preserving tour (· = 0)) := .leaf (.inl (.track State.minEnergy outputBest rfl))
  have hstubborn : (Leaf.stubborn (.ofMillis 20) .zero).Composed (.preserving tour (· = 0)) :=
    .leaf (.inr (preserves_stubborn (.ofMillis 20) .zero))
  have hbranches : tourBranches.runnable.Composed (.preserving tour (· = 0)) := by
    refine .branches (List.forall_mem_cons.mpr ⟨hstubborn, ?_⟩) (.inl rfl)
    exact List.forall_mem_singleton.mpr (htrack true)
  refine .branch (List.forall_mem_cons.mpr ⟨htrack false, ?_⟩)
  refine List.forall_mem_cons.mpr ⟨hbranches, List.forall_mem_singleton.mpr ?_⟩
  exact .leaf (.inl (.sleep (.ofMillis 50)))

/-- The task that stops the run at instant 25. -/
def tourStopper (_ : TokenId) : Task :=
  .ask (.sleep (.ofMillis 25) none) fun _ => .ask (.stop [2]) fun _ => .succeed (.one .empty)

/-- Both tasks in a session of their own. -/
def tourSession : Machine :=
  .fresh [tourStopper,
    Context.run ⟨0, .default, 0⟩ tourBranch.runnable (.one (State.empty.withProblem tour)) none]

/-- They are run with a tracker to which nothing was offered. -/
def tourTrace : Trace :=
  .alone ⟨{ tourSession.world with cells := ⟨.empty, Table.empty.push .empty⟩ }, .idle⟩
    ((Machine.sound_fresh _).steady
      ⟨rfl, rfl, rfl, .refl _, rfl, fun _ => rfl, rfl, List.Subset.refl _⟩)

/-- What the tracker holds of a moment carries the problem. -/
theorem carry_tourTrace (k : Nat) : (tourTrace.history.world k).cells.Carry tour (· = 0) := by
  have hover : (Machine.next^[43] (tourTrace.machine 0)).Over := by
    constructor <;> with_unfolding_all rfl
  have hsome : ∀ k < 44, (((tourTrace.history.world k).cells.trackers.get? 0).bind
      Tracker.value?).all (fun s => s.problem = some tour) = true := by
    decide +kernel
  have hcarry : ∀ k < 44, (tourTrace.history.world k).cells.Carry tour (· = 0) := by
    rintro k hk _ rfl s hs
    have hproblem := hsome k hk
    rw [hs] at hproblem
    exact ⟨tour, of_decide_eq_true hproblem, rfl⟩
  rcases Nat.lt_or_ge k 44 with hlt | hge
  · exact hcarry k hlt
  · obtain ⟨d, rfl⟩ := Nat.exists_eq_add_of_le (Nat.le_of_succ_le hge)
    rw [show tourTrace.history.world (43 + d) = _ from Trace.world_of_over hover d]
    exact hcarry 43 (by decide)

/-- The run is stopped before its last part is over. Its output carries the problem, of which one state
has been handed on by the tracker. -/
theorem carries_problem_of_tour :
    let h := tourTrace.history
    (h.world 40).isStopped 2 = true ∧ h.ended? 40 1 = none ∧
    (Data.one (State.empty.withProblem tour)).Carries tour ∧
    (∃ held, ((h.world 30).cells.trackers.get? 0).bind Tracker.value? = some held ∧
      held.Carries tour) ∧
    ∃ place d, h.ended? 43 1 = some (place, .ok d) ∧ d.states.length = 1 ∧
      ∀ s ∈ d.states, s.Carries tour := by
  intro h
  have hinput : (Data.one (State.empty.withProblem tour)).Carries tour :=
    Data.carries_one.mpr ⟨tour, rfl, rfl⟩
  have hrun (k : Nat) := composed_tourBranch.carries_problem ⟨0, .default, 0⟩ _ hinput none 2
    tourTrace ((Session.ofConfig .default).world.spawn "" 0 tourStopper).2 0
    (List.mem_cons_of_mem _ List.mem_cons_self) (carry_tourTrace 0)
    (fun k _ _ _ => carry_tourTrace (k + 1)) k (Nat.zero_le k)
  refine ⟨by with_unfolding_all rfl, by with_unfolding_all rfl, hinput, ?_, ?_⟩
  · have hheld : ((h.world 30).cells.trackers.get? 0).bind Tracker.value? =
        some (State.empty.withProblem tour) := by
      with_unfolding_all rfl
    exact ⟨_, hheld, (hrun 30).2 0 rfl _ hheld⟩
  · have hended : h.ended? 43 1 =
        some (12, .ok (.one ((State.empty.withProblem tour).withEnergy .zero))) := by
      with_unfolding_all rfl
    exact ⟨12, _, hended, rfl, (hrun 43).1 12 _ hended⟩

end Orchestra
