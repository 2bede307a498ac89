import Orchestra.Leaf.Timed
import Orchestra.Proofs.Loop.Stopping
import Orchestra.Proofs.Sequence.Grouping

/-!
# The course of a branch

A branch calls its components in order, each on the output of the one before, up to the first that fails
or until it sees a stop. So at every moment it has called the first few of them, once each, and it ends
in one of four ways: with the last output, with what it held when it saw the stop, with what it held
before a component that acknowledged the stop, or with the error of a component. Without a stop that is
the composition of what the components compute.
-/

namespace Orchestra

namespace Branch

/-- The program of components in sequence. -/
def script (components : List Runnable) (input : Data) : Script :=
  (Grouping.flat components).script .done input

/-- It is the program of a branch with these components. -/
theorem task_script (b : Branch) (ctx : Context) (input : Data) :
    (script b.components input).task ctx = b.runnable.next ctx input := by
  have hnext := (Grouping.flat b.components).next_eq b.name ctx input
  rw [Grouping.components_flat] at hnext
  exact hnext.symm

/-- What a branch holds after some outputs. -/
def latest (input : Data) (outputs : List Data) : Data :=
  outputs.getLast?.getD input

@[simp] theorem latest_cons (input output : Data) (outputs : List Data) :
    latest input (output :: outputs) = latest output outputs := by
  rw [latest, List.getLast?_cons]
  rfl

theorem getElem?_latest (input : Data) (outputs : List Data) :
    (input :: outputs)[outputs.length]? = some (latest input outputs) := by
  induction outputs generalizing input with
  | nil => rfl
  | cons output outputs ih => rw [latest_cons, ← ih output]; rfl

/-- The events of components that returned, each called on the output of the one before. -/
def passing : List Runnable → Data → List Data → List Event
  | component :: rest, input, output :: outputs =>
    .looked false :: .returned component input (.ok output) :: passing rest output outputs
  | _, _, _ => []

variable {components rest : List Runnable} {input held : Data} {outputs : List Data}
  {es : List Event} {s : Script}

theorem outputs_passing (h : outputs.length ≤ components.length) :
    Event.outputs (passing components input outputs) = outputs := by
  induction components generalizing input outputs with
  | nil => rw [List.length_eq_zero_iff.mp (Nat.le_zero.mp h)]; rfl
  | cons component rest ih =>
    cases outputs with
    | nil => rfl
    | cons output outputs => exact congrArg (List.cons output) (ih (Nat.le_of_succ_le_succ h))

/-- The first components were called, on the input and the outputs in turn. -/
theorem calls_passing (h : outputs.length ≤ components.length) :
    Event.calls (passing components input outputs) =
      (components.zip (input :: outputs)).take outputs.length := by
  induction components generalizing input outputs with
  | nil => rw [List.length_eq_zero_iff.mp (Nat.le_zero.mp h)]; rfl
  | cons component rest ih =>
    cases outputs with
    | nil => rfl
    | cons output outputs =>
      exact congrArg (List.cons (component, input)) (ih (Nat.le_of_succ_le_succ h))

theorem not_failed_mem_passing {part : Runnable} {d : Data} {e : RunError} :
    .returned part d (.error e) ∉ passing components input outputs := by
  induction components generalizing input outputs with
  | nil => exact List.not_mem_nil
  | cons component rest ih =>
    cases outputs with
    | nil => exact List.not_mem_nil
    | cons output outputs => simpa [passing] using ih

/-! ### Where a branch stands -/

/-- Where a branch stands with the rest of its components, by what it has seen since the last output,
and how it goes on. -/
inductive Stands : List Runnable → Data → List Event → Script → Prop
  | finished {held : Data} : Stands [] held [] (.done (.ok held))
  | looking {component : Runnable} {rest : List Runnable} {held : Data} :
    Stands (component :: rest) held [] (script (component :: rest) held)
  | stopped {component : Runnable} {rest : List Runnable} {held : Data} :
    Stands (component :: rest) held [.looked true] (.done (.ok held))
  | calling {component : Runnable} {rest : List Runnable} {held : Data} :
    Stands (component :: rest) held [.looked false]
      (.call component held (Grouping.following .done (script rest) held))
  | failed {component : Runnable} {rest : List Runnable} {held : Data} {e : RunError}
    (he : e.isCancelled = false) :
    Stands (component :: rest) held [.looked false, .returned component held (.error e)]
      (.done (.error e))
  /-- The component was cancelled, and the branch looks why. -/
  | wondering {component : Runnable} {rest : List Runnable} {held : Data} {e : RunError}
    (he : e.isCancelled = true) :
    Stands (component :: rest) held [.looked false, .returned component held (.error e)]
      (.look fun stopped => .done (if stopped then .ok held else .error e))
  | cancelled {component : Runnable} {rest : List Runnable} {held : Data} {e : RunError}
    (he : e.isCancelled = true) (stopped : Bool) :
    Stands (component :: rest) held
      [.looked false, .returned component held (.error e), .looked stopped]
      (.done (if stopped then .ok held else .error e))

/-- After some of its components have returned, a branch stands before the next one. -/
theorem exists_stands (goes : (script components input).Goes es s) :
    ∃ outputs es', outputs.length ≤ components.length ∧
      Stands (components.drop outputs.length) (latest input outputs) es' s ∧
      es = passing components input outputs ++ es' := by
  induction components generalizing input es with
  | nil =>
    obtain ⟨rfl, rfl⟩ := goes.of_done
    exact ⟨[], [], Nat.le_refl _, .finished, rfl⟩
  | cons component rest ih =>
    have hhere {es : List Event} (stands : Stands (component :: rest) input es s) :
        ∃ outputs es', outputs.length ≤ (component :: rest).length ∧
          Stands ((component :: rest).drop outputs.length) (latest input outputs) es' s ∧
          es = passing (component :: rest) input outputs ++ es' :=
      ⟨[], es, Nat.zero_le _, stands, rfl⟩
    cases goes with
    | nil => exact hhere .looking
    | look stopped goes =>
      cases stopped with
      | true =>
        obtain ⟨rfl, rfl⟩ := Script.Goes.of_done goes
        exact hhere .stopped
      | false =>
        cases goes with
        | nil => exact hhere .calling
        | call o goes =>
          cases o with
          | ok output =>
            -- what follows is the program of the rest on the output
            obtain ⟨outputs, es', hle, stands, rfl⟩ := ih goes
            refine ⟨output :: outputs, es', Nat.succ_le_succ hle, ?_, rfl⟩
            rwa [latest_cons]
          | error e =>
            dsimp only [Grouping.following, Script.afterError] at goes
            cases he : e.isCancelled with
            | false =>
              rw [he] at goes
              obtain ⟨rfl, rfl⟩ := Script.Goes.of_done goes
              exact hhere (.failed he)
            | true =>
              rw [he] at goes
              cases goes with
              | nil => exact hhere (.wondering he)
              | look stopped goes =>
                obtain ⟨rfl, rfl⟩ := Script.Goes.of_done goes
                exact hhere (.cancelled he stopped)

/-- Since the last output at most the next component was called. -/
theorem Stands.begun (stands : Stands rest held es s) :
    Script.begun es s = [] ∨ ∃ component others, rest = component :: others ∧
      Script.begun es s = [(component, held)] := by
  cases stands with
  | finished | looking | stopped => exact .inl rfl
  | calling | failed | wondering | cancelled => exact .inr ⟨_, _, rfl, rfl⟩

theorem Stands.outputs_eq_nil (stands : Stands rest held es s) : Event.outputs es = [] := by
  cases stands <;> rfl

/-- Nothing is called after a component has failed. -/
theorem Stands.of_failed {part : Runnable} {d : Data} {e : RunError}
    (stands : Stands rest held es s) (h : .returned part d (.error e) ∈ es) :
    ∃ before after, es = before ++ .returned part d (.error e) :: after ∧
      Script.begun after s = [] := by
  cases stands with
  | finished | looking | stopped | calling => simp at h
  | failed | wondering | cancelled =>
    simp only [List.mem_cons, List.not_mem_nil, reduceCtorEq, or_false, false_or,
      Event.returned.injEq, Except.error.injEq] at h
    obtain ⟨rfl, rfl, rfl⟩ := h
    exact ⟨[.looked false], _, rfl, rfl⟩

theorem getElem?_of_drop {n : Nat} {component : Runnable}
    (h : components.drop n = component :: rest) : components[n]? = some component := by
  rw [← List.head?_drop, h]
  rfl

/-- The next call is the one on what the branch holds. -/
theorem take_zip_succ {component : Runnable}
    (next : components[outputs.length]? = some component) :
    (components.zip (input :: outputs)).take (outputs.length + 1) =
      (components.zip (input :: outputs)).take outputs.length ++
        [(component, latest input outputs)] := by
  have hlast : (components.zip (input :: outputs))[outputs.length]? =
      some (component, latest input outputs) :=
    List.getElem?_zip_eq_some.mpr ⟨next, getElem?_latest input outputs⟩
  rw [List.take_add_one, hlast]
  rfl

/-! ### How a branch ends -/

/-- How a branch ends, by the number of components it has called, what it has seen, and whether its
token is stopped in the end: all components have returned, or it saw a stop before the next one, or a
component was cancelled and it saw a stop after that, or a component failed otherwise. -/
inductive Ending (components : List Runnable) (input : Data) (stopped : Bool) :
    Nat → List Event → Outcome → Prop
  | finished {outputs : List Data} (all : outputs.length = components.length) :
    Ending components input stopped outputs.length (passing components input outputs)
      (.ok (latest input outputs))
  | stopped {outputs : List Data} (more : outputs.length < components.length)
    (now : stopped = true) :
    Ending components input stopped outputs.length
      (passing components input outputs ++ [.looked true]) (.ok (latest input outputs))
  | acknowledged {outputs : List Data} {component : Runnable}
    (next : components[outputs.length]? = some component) (now : stopped = true) :
    Ending components input stopped (outputs.length + 1)
      (passing components input outputs ++ [.looked false,
        .returned component (latest input outputs) (.error .cancelled), .looked true])
      (.ok (latest input outputs))
  | failed {outputs : List Data} {component : Runnable} {e : RunError}
    (next : components[outputs.length]? = some component)
    (genuine : e = .cancelled → stopped = false) :
    Ending components input stopped (outputs.length + 1)
      (passing components input outputs ++ [.looked false,
        .returned component (latest input outputs) (.error e)] ++
        if e.isCancelled then [.looked false] else [])
      (.error e)

/-- A branch that is over has ended in one of these ways. -/
theorem Stands.exists_ending {stopped : Bool} {o : Outcome}
    (hle : outputs.length ≤ components.length)
    (stands : Stands (components.drop outputs.length) (latest input outputs) es (.done o))
    (hstopped : ∀ b before, passing components input outputs ++ es = before ++ [.looked b] →
      stopped = b) :
    ∃ called, Ending components input stopped called (passing components input outputs ++ es) o := by
  generalize hrest : components.drop outputs.length = rest at stands
  generalize hheld : latest input outputs = held at stands
  generalize hs : Script.done o = s at stands
  cases stands with
  | finished =>
    cases hs
    subst hheld
    rw [List.append_nil]
    exact ⟨_, .finished (Nat.le_antisymm hle (List.drop_eq_nil_iff.mp hrest))⟩
  | stopped =>
    cases hs
    subst hheld
    have hmore := (List.getElem?_eq_some_iff.mp (getElem?_of_drop hrest)).1
    exact ⟨_, .stopped hmore (hstopped true _ rfl)⟩
  | @failed component _ _ e he =>
    cases hs
    subst hheld
    have hending : Ending components input stopped _ _ (.error e) :=
      .failed (getElem?_of_drop hrest) (by rintro rfl; contradiction)
    rw [he] at hending
    exact ⟨_, by simpa using hending⟩
  | @cancelled component _ _ e he stopped' =>
    obtain rfl := RunError.eq_cancelled_of_isCancelled he
    subst hheld
    have hlast : stopped = stopped' := hstopped stopped' (passing components input outputs ++ [_, _])
      (List.append_assoc _ [_, _] [_]).symm
    cases stopped' with
    | true =>
      cases hs
      exact ⟨_, .acknowledged (getElem?_of_drop hrest) hlast⟩
    | false =>
      cases hs
      have hending : Ending components input stopped _ _ (.error .cancelled) :=
        .failed (getElem?_of_drop hrest) fun _ => hlast
      exact ⟨_, by simpa [RunError.isCancelled] using hending⟩
  | _ => cases hs

theorem Ending.called_le {stopped : Bool} {called : Nat} {o : Outcome}
    (ending : Ending components input stopped called es o) : called ≤ components.length := by
  cases ending with
  | finished all => exact Nat.le_of_eq all
  | stopped more => exact Nat.le_of_lt more
  | acknowledged next | failed next => exact (List.getElem?_eq_some_iff.mp next).1

/-- The components called are those that it counts. -/
theorem Ending.calls_eq {stopped : Bool} {called : Nat} {o : Outcome}
    (ending : Ending components input stopped called es o) :
    Event.calls es = (components.zip (input :: Event.outputs es)).take called := by
  cases ending with
  | finished all =>
    rw [outputs_passing (Nat.le_of_eq all), calls_passing (Nat.le_of_eq all)]
  | stopped more =>
    have hle := Nat.le_of_lt more
    simp [outputs_passing hle, calls_passing hle]
  | @acknowledged outputs component next =>
    have hle := Nat.le_of_lt (List.getElem?_eq_some_iff.mp next).1
    simp [outputs_passing hle, calls_passing hle, take_zip_succ next]
  | @failed outputs component e next genuine =>
    have hle := Nat.le_of_lt (List.getElem?_eq_some_iff.mp next).1
    cases hcancelled : e.isCancelled <;>
      simp [outputs_passing hle, calls_passing hle, take_zip_succ next]

/-- The failure of a component is the last call. -/
theorem exists_failed_last {part : Runnable} {d : Data} {e : RunError}
    (goes : (script components input).Goes es s) (h : .returned part d (.error e) ∈ es) :
    ∃ before after, es = before ++ .returned part d (.error e) :: after ∧
      Script.begun after s = [] := by
  obtain ⟨outputs, es', hle, stands, rfl⟩ := exists_stands goes
  rcases List.mem_append.mp h with hpassing | hlast
  · exact absurd hpassing not_failed_mem_passing
  · obtain ⟨before, after, rfl, hnone⟩ := stands.of_failed hlast
    exact ⟨_, after, (List.append_assoc _ before _).symm, hnone⟩

variable {ctx : Context} {sched : Schedule} {task : TaskId} {p q : Point}

/-- At every moment a branch has called its first components, each on the output of the one before. -/
theorem exists_begun_eq_take (goes : (script components input).Goes es s) :
    ∃ k ≤ components.length,
      Script.begun es s = (components.zip (input :: Event.outputs es)).take k := by
  obtain ⟨outputs, es', hle, stands, rfl⟩ := exists_stands goes
  rw [Event.outputs_append, outputs_passing hle, stands.outputs_eq_nil, List.append_nil,
    Script.begun_append, calls_passing hle]
  rcases stands.begun with hnone | ⟨component, others, hrest, hone⟩
  · exact ⟨_, hle, by rw [hnone, List.append_nil]⟩
  · have hnext := getElem?_of_drop hrest
    refine ⟨outputs.length + 1, (List.getElem?_eq_some_iff.mp hnext).1, ?_⟩
    rw [hone, take_zip_succ hnext]

/-- A branch that comes to an outcome has played up to it and ended in one of the ways. -/
theorem exists_ending {o : Outcome}
    (plays : Script.Plays sched task ctx p (script components input) es q (.done o)) :
    ∃ called, Ending components input (q.world.isStopped ctx.token) called es o := by
  obtain ⟨outputs, es', hle, stands, rfl⟩ := exists_stands plays.goes
  refine stands.exists_ending hle fun b before hbefore => ?_
  rw [hbefore] at plays
  exact plays.stopped_eq

/-- A branch that is not stopped does what its components compute, one after the other. -/
theorem plays_foldlM {fs : List (Data → Outcome)} (hlength : fs.length = components.length)
    (unstopped : ∀ es q next, Script.Plays sched task ctx p (script components input) es q
      (.look next) → q.world.isStopped ctx.token = false)
    (computes : ∀ es q part d next, Script.Plays sched task ctx p (script components input) es q
      (.call part d next) → ∀ f, fs[(Event.outputs es).length]? = some f →
        ∃ k, (part.next ctx d).Comes sched task q k (f d)) :
    ∃ es q, Script.Plays sched task ctx p (script components input) es q
      (.done (fs.foldlM (fun d f => f d) input)) := by
  induction components generalizing p input fs with
  | nil =>
    rw [List.length_eq_zero_iff.mp hlength]
    exact ⟨[], p, .nil _ _⟩
  | cons component rest ih =>
    obtain ⟨f, fs, rfl⟩ := List.exists_cons_of_length_eq_add_one hlength
    have hlook : p.world.isStopped ctx.token = false := unstopped _ _ _ (.nil _ _)
    have hcalls : Script.Plays sched task ctx p (script (component :: rest) input)
        [.looked false] p.looked
        (.call component input (Grouping.following .done (script rest) input)) :=
      .look_of_eq hlook (.nil _ _)
    obtain ⟨k, comes⟩ := computes _ _ _ _ _ hcalls f rfl
    have hplays := hcalls.append (.call comes (.nil _ _))
    rw [List.foldlM_cons]
    cases ho : f input with
    | ok output =>
      rw [ho] at hplays
      -- whatever holds on the way of the rest holds on the way of all, once the first has returned
      obtain ⟨es, q, plays⟩ := ih (Nat.succ.inj hlength)
        (fun es q next plays => unstopped _ _ _ (hplays.append plays))
        fun es q part d next plays g hg => computes _ _ _ _ _ (hplays.append plays) g hg
      exact ⟨_, q, hplays.append plays⟩
    | error e =>
      rw [ho] at hplays
      dsimp only [Grouping.following, Script.afterError] at hplays
      split at hplays
      · have hend := unstopped _ _ _ hplays
        exact ⟨_, _, hplays.append (.look_of_eq hend (.nil _ _))⟩
      · exact ⟨_, _, hplays⟩

/-- A branch never waits for ever by itself. -/
theorem not_plays_endless :
    ¬ Script.Plays sched task ctx p (script components input) es q .endless := by
  intro plays
  obtain ⟨outputs, es', hle, stands, rfl⟩ := exists_stands plays.goes
  generalize components.drop outputs.length = rest at stands
  generalize hs : Script.endless = s at stands
  cases stands <;> cases hs

/-- For every branch, input, starting point and schedule of stops. The branch runs as its script. At
every moment it has called its first components, once each and in order, the first on the input and each
other on the output of the one before. When it comes to an outcome, it has called the first `called` of
them and ended in one of four ways: all have returned, and it returns the last output; or its token was
stopped before the next call, and it returns the last output; or the last one called was cancelled under
a stopped token, and it returns the input of that one; or it returns the error of the last one called.
It is never cancelled while its token is stopped. Nothing is called after a component has failed. It
comes to an outcome if every component does that is called. And if no look shows a stop and the
components compute functions, it computes their composition. -/
theorem calls_in_order (b : Branch) (ctx : Context) (input : Data) {sched : Schedule} {task : TaskId}
    {p : Point} (ready : p.Ready task) :
    let branch := b.runnable.next ctx input
    let plays := Script.Plays sched task ctx p (script b.components input)
    branch = (script b.components input).task ctx ∧
    (∀ es q s, plays es q s → ∃ k ≤ b.components.length,
      Script.begun es s = (b.components.zip (input :: Event.outputs es)).take k) ∧
    (∀ q o, branch.Comes sched task p q o → ∃ es called, plays es q (.done o) ∧
      called ≤ b.components.length ∧
      Event.calls es = (b.components.zip (input :: Event.outputs es)).take called ∧
      Ending b.components input (q.world.isStopped ctx.token) called es o) ∧
    (∀ q, branch.Comes sched task p q (.error .cancelled) →
      q.world.isStopped ctx.token = false) ∧
    (∀ es q s part d e, plays es q s → .returned part d (.error e) ∈ es →
      ∃ before after, es = before ++ .returned part d (.error e) :: after ∧
        Script.begun after s = []) ∧
    ((∀ es q part d next, plays es q (.call part d next) →
        ∃ k o, (part.next ctx d).Comes sched task q k o) →
      ∃ q o, branch.Comes sched task p q o) ∧
    ∀ fs : List (Data → Outcome), fs.length = b.components.length →
      (∀ es q next, plays es q (.look next) → q.world.isStopped ctx.token = false) →
      (∀ es q part d next, plays es q (.call part d next) →
        ∀ f, fs[(Event.outputs es).length]? = some f →
          ∃ k, (part.next ctx d).Comes sched task q k (f d)) →
      ∃ q, branch.Comes sched task p q (fs.foldlM (fun d f => f d) input) := by
  intro branch plays
  have hbranch : branch = (script b.components input).task ctx := (task_script b ctx input).symm
  have hcomes {q : Point} {o : Outcome} :
      branch.Comes sched task p q o ↔ ∃ es, plays es q (.done o) := by
    rw [hbranch]
    exact Script.comes_iff ready
  refine ⟨hbranch, fun es q s hplays => exists_begun_eq_take hplays.goes, fun q o comes => ?_,
    fun q comes => ?_, fun es q s part d e hplays h => ?_, fun returns => ?_,
    fun fs hlength unstopped computes => ?_⟩
  · obtain ⟨es, hplays⟩ := hcomes.mp comes
    obtain ⟨called, ending⟩ := exists_ending hplays
    exact ⟨es, called, hplays, ending.called_le, ending.calls_eq, ending⟩
  · obtain ⟨es, hplays⟩ := hcomes.mp comes
    obtain ⟨called, ending⟩ := exists_ending hplays
    cases ending with
    | failed _ genuine => exact genuine rfl
  · exact exists_failed_last hplays.goes h
  · obtain ⟨es, q, o, hplays⟩ := Script.exists_plays_done (fun _ _ => not_plays_endless) returns
    exact ⟨q, o, hcomes.mpr ⟨es, hplays⟩⟩
  · obtain ⟨es, q, hplays⟩ := plays_foldlM hlength unstopped computes
    exact ⟨q, hcomes.mpr ⟨es, hplays⟩⟩

/-- Two delays that acknowledge a stop. -/
def naps : Branch :=
  ⟨[LoopKind.naps.body, LoopKind.naps.body], none⟩

/-- Stopped in the second delay, the branch returns the output of the first. -/
theorem calls_in_order_of_naps : ∃ es called q, q.world.isStopped 1 = true ∧
    Script.Plays LoopKind.disturbed 0 ⟨1, .default, 0⟩ .first
      (script naps.components (.one .empty)) es q (.done (.ok (.one LoopKind.rested))) ∧
    Event.calls es = (naps.components.zip (.one .empty :: Event.outputs es)).take called ∧
    Ending naps.components (.one .empty) true called es (.ok (.one LoopKind.rested)) := by
  let ctx : Context := ⟨1, .default, 0⟩
  obtain ⟨k, hstopped, hcancelled⟩ := LoopKind.exists_comes_of_second_nap
  have hplays : Script.Plays LoopKind.disturbed 0 ctx .first (script naps.components (.one .empty))
      [.looked false, .returned LoopKind.naps.body (.one .empty) (.ok (.one LoopKind.rested)),
        .looked false, .returned LoopKind.naps.body (.one LoopKind.rested) (.error .cancelled),
        .looked true]
      (k.noted ctx LoopKind.naps.body.name true).looked (.done (.ok (.one LoopKind.rested))) := by
    refine .look_of_eq (by with_unfolding_all rfl) (.call LoopKind.comes_of_first_nap ?_)
    refine .look_of_eq (by with_unfolding_all rfl) (.call hcancelled ?_)
    exact .look_of_eq hstopped (.nil _ _)
  have hstopped' : (k.noted ctx LoopKind.naps.body.name true).looked.world.isStopped 1 = true :=
    hstopped
  have comes := (Script.comes_iff Point.ready_first).mpr ⟨_, hplays⟩
  rw [task_script] at comes
  obtain ⟨-, -, hends, -⟩ := calls_in_order naps ctx (.one .empty) Point.ready_first
  obtain ⟨es, called, plays, -, hcalls, ending⟩ := hends _ _ comes
  rw [hstopped'] at ending
  exact ⟨es, called, _, hstopped', plays, hcalls, ending⟩

end Branch

end Orchestra
