import Orchestra.Proofs.Sequence.Nesting
import Orchestra.Proofs.Sequence.Script

/-!
# Branches within branches

However the components of a branch are grouped into branches within it, and within these in turn, it
runs as the branch of all components in their order. Both are scripts that make the same calls. The
grouped one looks at its token more often and records the inner branches, and an inner branch that was
stopped hands over what it holds, upon which the branch around it sees the stop as well.
-/

namespace Orchestra

namespace Script

/-! ### Scripts in step -/

/-- Two scripts in step: they call the same parts on the same inputs and go on in step whatever the
parts return. `seen` is what a look has shown, if no part was called since. -/
inductive InStep (silent : String → Prop) : Option Bool → Script → Script → Prop
  | done {seen : Option Bool} (o : Outcome) : InStep silent seen (.done o) (.done o)
  | endless {seen : Option Bool} : InStep silent seen .endless .endless
  | call {seen : Option Bool} (part : Runnable) (input : Data) {next next' : Outcome → Script}
      (rest : ∀ o, InStep silent none (next o) (next' o)) :
      InStep silent seen (.call part input next) (.call part input next')
  | noteLeft {seen : Option Bool} {name : String} {failed : Bool} {s s' : Script}
      (hname : silent name) (rest : InStep silent seen s s') :
      InStep silent seen (.note name failed s) s'
  | noteRight {seen : Option Bool} {name : String} {failed : Bool} {s s' : Script}
      (hname : silent name) (rest : InStep silent seen s s') :
      InStep silent seen s (.note name failed s')
  | lookLeft {seen : Option Bool} {f : Bool → Script} {s' : Script}
      (rest : ∀ b, (∀ b', seen = some b' → b' = b) → InStep silent (some b) (f b) s') :
      InStep silent seen (.look f) s'
  | lookRight {seen : Option Bool} {s : Script} {f' : Bool → Script}
      (rest : ∀ b, (∀ b', seen = some b' → b' = b) → InStep silent (some b) s (f' b)) :
      InStep silent seen s (.look f')

namespace InStep

variable {silent : String → Prop} {seen : Option Bool} {s s' : Script}

theorem symm (h : InStep silent seen s s') : InStep silent seen s' s := by
  induction h with
  | done o => exact .done o
  | endless => exact .endless
  | call part input _ ih => exact .call part input ih
  | noteLeft hname _ ih => exact .noteRight hname ih
  | noteRight hname _ ih => exact .noteLeft hname ih
  | lookLeft _ ih => exact .lookRight ih
  | lookRight _ ih => exact .lookLeft ih

/-- A look may go unused. -/
theorem know (h : InStep silent none s s') : InStep silent seen s s' := by
  generalize hnone : (none : Option Bool) = unknown at h
  induction h generalizing seen with
  | done o => exact .done o
  | endless => exact .endless
  | call part input rest => exact .call part input rest
  | noteLeft hname _ ih => exact .noteLeft hname (ih hnone)
  | noteRight hname _ ih => exact .noteRight hname (ih hnone)
  | lookLeft rest =>
    subst hnone
    exact .lookLeft fun b _ => rest b nofun
  | lookRight rest =>
    subst hnone
    exact .lookRight fun b _ => rest b nofun

/-- Scripts in step may look together. -/
theorem look {f f' : Bool → Script}
    (h : ∀ b, (∀ b', seen = some b' → b' = b) → InStep silent (some b) (f b) (f' b)) :
    InStep silent seen (.look f) (.look f') :=
  .lookLeft fun b hb => .lookRight fun b' hb' => by
    cases hb' b rfl
    exact h b hb

/-- Scripts in step are tasks in step, in every context. -/
theorem task (h : InStep silent seen s s') (ctx : Context) :
    (s.task ctx).InStep silent ctx.token seen (s'.task ctx) := by
  induction h with
  | done o => exact .done o
  | endless => exact .endless
  | call part input _ ih => exact .andThen (.refl _) ih
  | noteLeft hname _ ih => exact .recordLeft hname ih
  | noteRight hname _ ih => exact .recordRight hname ih
  | lookLeft _ ih => exact .lookLeft ih
  | lookRight _ ih => exact .lookRight ih

end InStep

end Script

/-! ### Grouped components -/

/-- Components in sequence, some of which are grouped into branches. -/
inductive Grouping where
  | empty
  | component (r : Runnable) (rest : Grouping)
  | branch (name : Option String) (inner rest : Grouping)

namespace Grouping

/-- The components of a branch with this grouping. -/
def components : Grouping → List Runnable
  | empty => []
  | component r rest => r :: rest.components
  | branch name inner rest => Branch.runnable ⟨inner.components, name⟩ :: rest.components

/-- All components in their order, without the groups. -/
def leaves : Grouping → List Runnable
  | empty => []
  | component r rest => r :: rest.leaves
  | branch _ inner rest => inner.leaves ++ rest.leaves

/-- The names of the inner branches. -/
def names : Grouping → List String
  | empty => []
  | component _ rest => rest.names
  | branch name inner rest =>
    (Branch.runnable ⟨inner.components, name⟩).name :: (inner.names ++ rest.names)

/-- Components without groups. -/
def flat : List Runnable → Grouping
  | [] => empty
  | r :: rest => component r (flat rest)

theorem components_flat (rs : List Runnable) : (flat rs).components = rs := by
  induction rs with
  | nil => rfl
  | cons r rest ih => exact congrArg (List.cons r) ih

/-! ### The script of a branch -/

/-- What follows a component of a branch that holds data. A branch that is over goes on by `k`. -/
def following (k : Outcome → Script) (goOn : Data → Script) (held : Data) : Outcome → Script
  | .ok output => goOn output
  | .error e => .afterError k held e

/-- The script of a branch with this grouping, in which inner branches are scripts as well. -/
def script : Grouping → (Outcome → Script) → Data → Script
  | empty, k, held => k (.ok held)
  | component r rest, k, held => .look fun stopped =>
    if stopped then k (.ok held)
    else .call r held (following k (rest.script k) held)
  | branch name inner rest, k, held => .look fun stopped =>
    if stopped then k (.ok held)
    else
      inner.script (fun o =>
        .note (Branch.runnable ⟨inner.components, name⟩).name (Outcome.isError o)
          (following k (rest.script k) held o)) held

variable {ctx : Context} {k : Outcome → Script}

/-- The script runs the steps of the branch. -/
theorem task_script (g : Grouping) (k : Outcome → Script) (held : Data) :
    (g.script k held).task ctx =
      (Branch.steps ctx g.components held).andThen fun o => (k o).task ctx := by
  induction g generalizing k held with
  | empty => rfl
  | component r rest ih =>
    refine congrArg (Task.ask (.isStopped ctx.token)) (funext fun stopped => ?_)
    cases stopped with
    | true => rfl
    | false => exact Script.task_call_attempt r held _ (ih k) fun _ => rfl
  | branch name inner rest ihInner ihRest =>
    refine congrArg (Task.ask (.isStopped ctx.token)) (funext fun stopped => ?_)
    cases stopped with
    | true => rfl
    | false =>
      have hattempt := Script.task_call_attempt (Branch.runnable ⟨inner.components, name⟩) held
        (following k (rest.script k) held) (ihRest k) fun _ => rfl
      rw [Script.task, Context.execute, Task.andThen_assoc] at hattempt
      exact (ihInner _ held).trans hattempt

/-- A branch with this grouping runs as its script. -/
theorem next_eq (g : Grouping) (name : Option String) (ctx : Context) (input : Data) :
    (Branch.runnable ⟨g.components, name⟩).next ctx input = (g.script .done input).task ctx :=
  ((g.task_script .done input).trans (Task.andThen_done _)).symm

/-! ### Without the groups -/

variable {silent : String → Prop} {seen : Option Bool} {held : Data}

/-- Once the token is stopped, a branch is over with what it holds. -/
theorem script_stopped {s : Script} (g : Grouping)
    (h : (k (.ok held)).InStep silent (some true) s) :
    (g.script k held).InStep silent (some true) s := by
  cases g with
  | empty => exact h
  | component | branch =>
    refine .lookLeft fun b hb => ?_
    cases hb true rfl
    exact h

/-- A branch without groups goes in step with one that begins with the same components grouped, and
goes on by `k'`. -/
theorem script_append (g : Grouping) {rest : List Runnable} {k' : Outcome → Script}
    (hsilent : ∀ name ∈ g.names, silent name)
    (onOutput : ∀ d, ((flat rest).script k d).InStep silent none (k' (.ok d)))
    (onStop : ∀ d, (k (.ok d)).InStep silent (some true) (k' (.ok d)))
    (onError : ∀ e, e.isCancelled = false → (k (.error e)).InStep silent none (k' (.error e)))
    (onCancelled : ∀ e, (k (.error e)).InStep silent (some false) (k' (.error e))) :
    ((flat (g.leaves ++ rest)).script k held).InStep silent seen (g.script k' held) := by
  induction g generalizing rest k' held seen with
  | empty => exact (onOutput held).know
  | component r others ih =>
    refine .look fun b _ => ?_
    cases b with
    | true => exact onStop held
    | false =>
      refine .call r held fun o => ?_
      cases o with
      | ok d => exact ih hsilent onOutput onStop onError onCancelled
      | error e =>
        dsimp only [following, Script.afterError]
        cases hcancelled : e.isCancelled with
        | false => exact onError e hcancelled
        | true =>
          refine .look fun b _ => ?_
          cases b with
          | true => exact onStop held
          | false => exact onCancelled e
  | branch name inner others ihInner ihOthers =>
    obtain ⟨hname, hnames⟩ := List.forall_mem_cons.mp hsilent
    obtain ⟨hinner, hothers⟩ := List.forall_mem_append.mp hnames
    rw [leaves, List.append_assoc]
    refine .lookRight fun b _ => ?_
    cases b with
    | true => exact script_stopped _ (onStop held)
    | false =>
      -- the inner branch goes on by its record and what the outer one makes of its outcome
      refine ihInner hinner (fun d => ?_) (fun d => ?_) (fun e he => ?_) (fun e => ?_)
      · exact .noteRight hname (ihOthers hothers onOutput onStop onError onCancelled)
      · exact .noteRight hname (script_stopped others (onStop d).symm).symm
      · refine .noteRight hname ?_
        dsimp only [following, Script.afterError]
        rw [if_neg (Bool.eq_false_iff.mp he)]
        exact onError e he
      · refine .noteRight hname ?_
        dsimp only [following, Script.afterError]
        split
        · refine .lookRight fun b hb => ?_
          cases hb false rfl
          exact onCancelled e
        · exact onCancelled e

/-- Scripts in step with all components and with their grouping. -/
theorem script_flat (g : Grouping) (hsilent : ∀ name ∈ g.names, silent name) (input : Data) :
    ((flat g.leaves).script .done input).InStep silent none (g.script .done input) := by
  have happend : ((flat (g.leaves ++ [])).script .done input).InStep silent none
      (g.script .done input) :=
    g.script_append hsilent (fun d => .done (.ok d)) (fun d => .done (.ok d))
      (fun e _ => .done (.error e)) fun e => .done (.error e)
  rwa [List.append_nil] at happend

/-- For a grouping of components, whatever its depth, and a context: the branch of all components and
the branch with the grouping are scripts that call the same components on the same inputs. Run as a
task of its own in any world, whatever is done to the world from outside, or performed in the task of
the user, both come to the same end in worlds that agree but for the calls of the branches
themselves. -/
theorem runs_as_flat (g : Grouping) (name flatName : Option String) (ctx : Context) (input : Data) :
    let grouped := Branch.runnable ⟨g.components, name⟩
    let whole := Branch.runnable ⟨g.leaves, flatName⟩
    let silent := fun called => called = whole.name ∨ called = grouped.name ∨ called ∈ g.names
    (whole.next ctx input = ((flat g.leaves).script .done input).task ctx ∧
      grouped.next ctx input = (g.script .done input).task ctx ∧
      ((flat g.leaves).script .done input).InStep silent none (g.script .done input)) ∧
    (∀ w : World, (w.perform (whole.next ctx input)).1 = (w.perform (grouped.next ctx input)).1 ∧
      (w.perform (whole.next ctx input)).2.Agree silent (w.perform (grouped.next ctx input)).2) ∧
    ∀ (w : World) (run : String) (limit : Option LimitId) (acts : List World.Act),
      (acts.foldl World.act (w.spawn run ctx.token (ctx.run whole input limit)).2).Agree silent
        (acts.foldl World.act (w.spawn run ctx.token (ctx.run grouped input limit)).2) := by
  intro grouped whole silent
  have hwhole (ctx : Context) :
      whole.next ctx input = ((flat g.leaves).script .done input).task ctx := by
    have hnext := (flat g.leaves).next_eq flatName ctx input
    rwa [components_flat] at hnext
  have hgrouped (ctx : Context) : grouped.next ctx input = (g.script .done input).task ctx :=
    g.next_eq name ctx input
  have hscript : ((flat g.leaves).script .done input).InStep silent none (g.script .done input) :=
    g.script_flat (fun called h => .inr (.inr h)) input
  have hstep (ctx : Context) :
      (whole.next ctx input).InStep silent ctx.token none (grouped.next ctx input) := by
    rw [hwhole, hgrouped]
    exact hscript.task ctx
  refine ⟨⟨hwhole ctx, hgrouped ctx, hscript⟩, fun w => ?_, fun w run limit acts => ?_⟩
  · obtain ⟨hending, hworld⟩ := (World.Alike.refl w).perform (hstep ctx)
    exact ⟨hending, hworld.agree⟩
  · have hstarted := ((World.Alike.refl w).spawn run ctx.token
      (Context.inStep_run limit (.inl rfl) (.inr (.inl rfl))
        (hstep { ctx with token := w.tokens.size }))).2
    exact (hstarted.acts acts).agree

end Grouping

end Orchestra
