import Orchestra.Proofs.Caller.Episodes
import Orchestra.Proofs.Calls.Uses

/-!
# Children are runs

Whatever a composite starts is the run of one of its parts, under the name of that part: a fan-out runs
each of its children in a task of its own, and everything else runs its parts in the task in which it
runs itself. So every task that is started below the run of a pipeline is the run of a runnable, and is
known under its name.
-/

namespace Orchestra

/-- A child that is started in this way is a run of the runnable. -/
def Runnable.IsRun (r : Runnable) (name : String) (parent : TokenId) (body : TokenId → Task) : Prop :=
  ∃ (ctx : Context) (input : Data) (limit : Option LimitId),
    name = r.name ∧ parent = ctx.token ∧ body = ctx.run r input limit

/-- Every child that a task starts is a run of some runnable, and so are those that the child starts. -/
def Task.StartsRuns : Task → Prop
  | .done _ => True
  | .panic _ => True
  | .endless => True
  | .ask _ next => ∀ a, (next a).StartsRuns
  | .spawn name parent body next => (∃ r : Runnable, r.IsRun name parent body) ∧
    (∀ token, (body token).StartsRuns) ∧ ∀ c, (next c).StartsRuns

/-- A part that starts nothing but runs. -/
def Runnable.StartsRuns (r : Runnable) : Prop :=
  ∀ (ctx : Context) input, (r.next ctx input).StartsRuns

variable {ctx : Context}

theorem Task.StartsRuns.andThen {t : Task} {f : Outcome → Task} (h : t.StartsRuns)
    (hf : ∀ o, (f o).StartsRuns) : (t.andThen f).StartsRuns := by
  induction t with
  | done o => exact hf o
  | panic | endless => trivial
  | ask r next ih => exact fun a => ih a (h a)
  | spawn name parent body next _ ih => exact ⟨h.1, h.2.1, fun c => ih c (h.2.2 c)⟩

/-! ### Executions -/

namespace Context

variable {r : Runnable} {input : Data}

theorem startsRuns_execute (h : r.StartsRuns) : (ctx.execute r input).StartsRuns :=
  (h ctx input).andThen fun _ _ => trivial

theorem startsRuns_run (h : r.StartsRuns) (limit : Option LimitId) (token : TokenId) :
    (ctx.run r input limit token).StartsRuns := by
  have hexecute : (execute { ctx with token } r input).StartsRuns := startsRuns_execute h
  cases limit with
  | none => exact hexecute
  | some l =>
    intro granted
    cases granted with
    | true => exact hexecute
    | false => trivial

end Context

/-- Whatever uses parts that start nothing but runs starts nothing else itself. -/
theorem Task.Uses.startsRuns {part : Runnable → Prop} {t : Task} (uses : t.Uses part)
    (h : ∀ r, part r → r.StartsRuns) : t.StartsRuns := by
  induction uses with
  | done | panic | endless => trivial
  | ask _ _ ih => exact ih
  | execute ctx input hr _ ih => exact (Context.startsRuns_execute (h _ hr)).andThen ih
  | @start ctx r input limit next hr _ ih =>
    exact ⟨⟨r, ctx, input, limit, rfl, rfl, rfl⟩, Context.startsRuns_run (h r hr) limit, ih⟩

/-- A leaf of the library starts nothing. -/
theorem Task.AsksOnce.startsRuns {trackers : TrackerId → Prop} {t : Task}
    (once : t.AsksOnce trackers) : t.StartsRuns := by
  cases once with
  | done => trivial
  | ask _ _ ends =>
    intro a
    obtain ⟨o, ho⟩ := ends a
    rw [ho]
    trivial

/-- Any fan-ins and folds, over the leaves of the library and any others that start nothing but runs. -/
def Parts.running : Parts where
  leaf r := r.OfLibrary (fun _ => True) ∨ r.StartsRuns
  fanIn _ := True
  combine _ := True
  initial _ := True

/-- A pipeline that is composed of them starts nothing but runs. -/
theorem Runnable.Composed.startsRuns {r : Runnable} (composed : r.Composed .running) :
    r.StartsRuns := by
  refine composed.of_uses ?_ fun r part uses _ ih ctx input => (uses ctx input).startsRuns ih
  rintro r (library | runs)
  · exact fun ctx input => (library.asksOnce input).startsRuns
  · exact runs

/-! ### Traces -/

namespace Trace

variable {tr : Trace} {m i : Nat} {r : Runnable} {c root : Child}

/-- At a moment a child is started that is a run of a runnable: by a task, or from outside. -/
def StartsRun (tr : Trace) (m : Nat) (r : Runnable) (c : Child) : Prop :=
  ∃ name parent body, r.IsRun name parent body ∧
    (tr.machine m).world.spawn name parent body = (c, (tr.machine (m + 1)).world)

/-- A program with which a task begins, and which it then hands on, starts nothing but runs if it did
so at first. -/
theorem startsRuns_of_begun {w : World} {program t : Task}
    (begun : w.begun program ∈ (tr.machine m).world.suspended) (starts : program.StartsRuns)
    (hmi : m ≤ i) (running : (tr.machine i).control = .running w.tasks.size t) : t.StartsRuns := by
  obtain ⟨j, hji, running'⟩ := begun_before begun hmi running
  refine kept (P := Task.StartsRuns) ?_ ?_ running' hji running starts
  · exact fun r next a h _ => h a
  · exact fun name parent body next id token h => h.2.2 _

/-- A task that begins with a program that starts nothing but runs. -/
def Launching (tr : Trace) (m : Nat) (task : TaskId) : Prop :=
  ∃ (w : World) (program : Task), w.tasks.size = task ∧ program.StartsRuns ∧
    w.begun program ∈ (tr.machine m).world.suspended

/-- The child is the next task. -/
theorem StartsRun.id_eq (starts : tr.StartsRun m r c) : c.id = (tr.machine m).world.tasks.size := by
  obtain ⟨name, parent, body, -, hspawn⟩ := starts
  exact (congrArg (fun x => x.1.id) hspawn).symm

/-- The run of a part that starts nothing but runs is such a task. -/
theorem StartsRun.launching (starts : tr.StartsRun m r c) (h : r.StartsRuns) :
    tr.Launching (m + 1) c.id := by
  obtain ⟨name, parent, body, ⟨ctx, input, limit, -, -, rfl⟩, hspawn⟩ := starts
  let w := (tr.machine m).world
  have hworld : (w.spawn name parent (ctx.run r input limit)).2 = (tr.machine (m + 1)).world :=
    congrArg Prod.snd hspawn
  refine ⟨w, ctx.run r input limit w.tokens.size, congrArg (fun x => x.1.id) hspawn,
    Context.startsRuns_run h limit _, ?_⟩
  rw [← hworld, (World.spawn_keeps _ _ _ _).2.2]
  exact List.mem_append_right _ List.mem_cons_self

/-- Whatever it starts is a run, and such a task again. -/
theorem Launching.child {task : TaskId} (launching : tr.Launching m task) (hmi : m ≤ i)
    (starts : tr.Starts i task c) : (∃ r, tr.StartsRun i r c) ∧ tr.Launching (i + 1) c.id := by
  obtain ⟨w, program, rfl, hprogram, begun⟩ := launching
  obtain ⟨name, parent, body, next, running, hspawn⟩ := starts
  obtain ⟨⟨r, run⟩, hbody, -⟩ := startsRuns_of_begun begun hprogram hmi running
  obtain ⟨name', parent', body', next', running', rfl, begun'⟩ :=
    Starts.begun ⟨name, parent, body, next, running, hspawn⟩
  cases running.symm.trans running'
  exact ⟨⟨r, name, parent, body, run, hspawn⟩, _, _, rfl, hbody _, begun'⟩

/-- Every child that is started below a run is a run of some runnable. -/
theorem StartsRun.below (starts : tr.StartsRun m r root) (h : r.StartsRuns)
    (below : tr.Below m root.id i c) : ∃ r', tr.StartsRun i r' c := by
  have hbelow : (∃ r', tr.StartsRun i r' c) ∧ tr.Launching (i + 1) c.id := by
    induction below with
    | @child i c le starts' =>
      have hlt : m < i := by
        refine Nat.lt_of_le_of_ne le fun heq => ?_
        subst heq
        obtain ⟨t, running⟩ := starts'.running
        exact Nat.ne_of_lt ((tr.sound_at m).runs _ _ running).1 starts.id_eq
      exact (starts.launching h).child hlt starts'
    | deeper _ lt starts' ih => exact ih.2.child lt starts'
  exact hbelow.1

end Trace

end Orchestra
