import Orchestra.Branch
import Orchestra.Loop
import Orchestra.Proofs.World.Alike

/-!
# Sequences within sequences

A loop that only counts its iterations is the branch of as many references to its body: both run the
same task. A branch whose components are branches in turn goes in step with the branch of all their
components. It looks at its token once more after each part, and records a call of it, but a part that
was cancelled without a stop, or has handed over what it held because of one, shows the same to the
branch around it.
-/

namespace Orchestra

namespace Branch

variable {silent : String → Prop} {ctx : Context} {seen : Option Bool}

/-- Once its token is stopped, a branch hands over what it holds. -/
theorem steps_stopped (components : List Runnable) (held : Data) :
    (steps ctx components held).InStep silent ctx.token (some true) (.succeed held) := by
  cases components with
  | nil => exact .refl _
  | cons component rest =>
    refine .lookLeft fun b hb => ?_
    cases hb true rfl
    exact .refl _

/-- Two branches that begin with the same components, of which the second goes on by `K`. -/
theorem steps_append {rest : List Runnable} {K : Outcome → Task}
    (onOutput : ∀ d, (steps ctx rest d).InStep silent ctx.token none (K (.ok d)))
    (onStop : ∀ d, (Task.succeed d).InStep silent ctx.token (some true) (K (.ok d)))
    (onError : ∀ e, e.isCancelled = false →
      (Task.fail e).InStep silent ctx.token none (K (.error e)))
    (onCancelled : ∀ e, (Task.fail e).InStep silent ctx.token (some false) (K (.error e)))
    (components : List Runnable) (held : Data) :
    (steps ctx (components ++ rest) held).InStep silent ctx.token seen
      ((steps ctx components held).andThen K) := by
  induction components generalizing held seen with
  | nil => exact (onOutput held).know
  | cons component others ih =>
    refine .look fun b _ => ?_
    cases b with
    | true => exact onStop held
    | false =>
      simp only [Bool.false_eq_true, if_false, Context.attempt, Task.andThen_assoc]
      refine .andThen (.refl _) fun o => ?_
      cases o with
      | ok d => exact ih d
      | error e =>
        dsimp only
        cases hcancelled : e.isCancelled with
        | false => exact onError e hcancelled
        | true =>
          refine .look fun b _ => ?_
          cases b with
          | true => exact onStop held
          | false => exact onCancelled e

/-- A branch whose parts run as branches goes in step with the branch of all their components. -/
theorem steps_flatMap {parts : List (Runnable × List Runnable)}
    (hname : ∀ part ∈ parts, silent part.1.name)
    (hnext : ∀ part ∈ parts, ∀ d, part.1.next ctx d = steps ctx part.2 d) (held : Data) :
    (steps ctx (parts.flatMap Prod.snd) held).InStep silent ctx.token seen
      (steps ctx (parts.map Prod.fst) held) := by
  induction parts generalizing held seen with
  | nil => exact .refl _
  | cons part rest ih =>
    obtain ⟨hpart, hrest⟩ := List.forall_mem_cons.mp hname
    obtain ⟨hsteps, hnexts⟩ := List.forall_mem_cons.mp hnext
    rw [List.flatMap_cons, List.map_cons]
    refine .lookRight fun b _ => ?_
    cases b with
    | true => exact steps_stopped _ held
    | false =>
      simp only [Bool.false_eq_true, if_false, Context.attempt, Context.execute, hsteps,
        Task.andThen_assoc, Task.ask_andThen, Task.done_andThen]
      refine steps_append (fun d => ?_) (fun d => ?_) (fun e he => ?_) (fun e => ?_) part.2 held
      · exact .recordRight hpart (ih hrest hnexts d)
      · exact .recordRight hpart (steps_stopped _ d).symm
      · refine .recordRight hpart ?_
        dsimp only
        rw [if_neg (Bool.eq_false_iff.mp he)]
        exact .refl _
      · refine .recordRight hpart ?_
        dsimp only
        split
        · refine .lookRight fun b hb => ?_
          cases hb false rfl
          exact .refl _
        · exact .refl _

end Branch

/-- The loop that runs its body a given number of times. -/
def Loop.counted (body : Runnable) (count : Nat) (key : Key) : Loop :=
  ⟨body, ⟨some count, none, none, key⟩⟩

/-- It runs as the branch of as many references to the body. -/
theorem Loop.next_counted (body : Runnable) (count : Nat) (key : Key) (ctx : Context) (held : Data) :
    (counted body count key).last.next ctx held =
      Branch.steps ctx (List.replicate count body) held := by
  have hrepeat (rounds : Nat) (best : Tracker Data) (held : Data) :
      (counted body count key).repeatLast ctx 0 rounds best held =
        Branch.steps ctx (List.replicate rounds body) held := by
    induction rounds generalizing best held with
    | zero => rfl
    | succ rounds ih =>
      have houtput : (fun output => (counted body count key).repeatLast ctx 0 rounds
          ((counted body count key).observeForPredicate best output) output) =
          Branch.steps ctx (List.replicate rounds body) := funext fun output => ih _ output
      rw [List.replicate_succ, Branch.steps, ← houtput]
      rfl
  exact hrepeat count .empty held

/-- Runs of runnables that go in step do so too. -/
theorem Context.inStep_run {silent : String → Prop} {token : TokenId} {ctx : Context}
    {r r' : Runnable} {input : Data} (limit : Option LimitId) (hname : silent r.name)
    (hname' : silent r'.name) (h : (r.next { ctx with token } input).InStep silent token none
      (r'.next { ctx with token } input)) :
    (ctx.run r input limit token).InStep silent token none (ctx.run r' input limit token) := by
  have hexecute : (execute { ctx with token } r input).InStep silent token none
      (execute { ctx with token } r' input) :=
    h.andThen fun o => .recordLeft hname (.recordRight hname' (.done o))
  cases limit with
  | none => exact hexecute
  | some l =>
    refine .ask (.acquire l token) fun granted => ?_
    cases granted with
    | true => exact hexecute
    | false => exact .refl _

/-- For a body, a key and a context: a loop that only counts runs the same task as the branch of as
many references to its body. A loop of `m + n` iterations goes in step with the branch of a loop of `m`
and one of `n`: run as a task of its own in any world, whatever is done to the world from outside, or
performed in the task of the user, both come to the same end in worlds that agree but for the calls of
the loops and the branch themselves. -/
theorem Loop.counted_as_branch (body : Runnable) (key : Key) (name : Option String) (ctx : Context)
    (input : Data) :
    (∀ n, (counted body n key).last.next ctx input =
      (Branch.runnable ⟨List.replicate n body, name⟩).next ctx input) ∧
    ∀ m n : Nat,
      let whole := (counted body (m + n) key).last
      let parts := Branch.runnable ⟨[(counted body m key).last, (counted body n key).last], name⟩
      let silent := fun called => called = whole.name ∨ called = parts.name
      (whole.next ctx input).InStep silent ctx.token none (parts.next ctx input) ∧
      (∀ w : World, (w.perform (whole.next ctx input)).1 = (w.perform (parts.next ctx input)).1 ∧
        (w.perform (whole.next ctx input)).2.Agree silent (w.perform (parts.next ctx input)).2) ∧
      ∀ (w : World) (run : String) (limit : Option LimitId) (acts : List World.Act),
        (acts.foldl World.act (w.spawn run ctx.token (ctx.run whole input limit)).2).Agree silent
          (acts.foldl World.act (w.spawn run ctx.token (ctx.run parts input limit)).2) := by
  refine ⟨fun n => next_counted body n key ctx input, fun m n => ?_⟩
  intro whole parts silent
  have hname (count : Nat) : (counted body count key).last.name = "Loop" := rfl
  have hsilent (count : Nat) : silent (counted body count key).last.name :=
    .inl ((hname count).trans (hname (m + n)).symm)
  have hstep (ctx : Context) :
      (whole.next ctx input).InStep silent ctx.token none (parts.next ctx input) := by
    let split : List (Runnable × List Runnable) :=
      [((counted body m key).last, List.replicate m body),
        ((counted body n key).last, List.replicate n body)]
    have hflat : (Branch.steps ctx (split.flatMap Prod.snd) input).InStep silent ctx.token none
        (Branch.steps ctx (split.map Prod.fst) input) := by
      refine Branch.steps_flatMap ?_ ?_ input
      · exact List.forall_mem_cons.mpr ⟨hsilent m, List.forall_mem_singleton.mpr (hsilent n)⟩
      · exact List.forall_mem_cons.mpr ⟨next_counted body m key ctx,
          List.forall_mem_singleton.mpr (next_counted body n key ctx)⟩
    rw [List.flatMap_cons, List.flatMap_singleton, List.replicate_append_replicate,
      ← next_counted body (m + n) key] at hflat
    exact hflat
  refine ⟨hstep ctx, fun w => ?_, fun w run limit acts => ?_⟩
  · obtain ⟨hending, hworld⟩ := (World.Alike.refl w).perform (hstep ctx)
    exact ⟨hending, hworld.agree⟩
  · have hstarted := ((World.Alike.refl w).spawn run ctx.token
      (Context.inStep_run limit (.inl rfl) (.inr rfl) (hstep { ctx with token := w.tokens.size }))).2
    exact (hstarted.acts acts).agree

end Orchestra
