import Orchestra.Proofs.Calls.Uses
import Orchestra.Proofs.Tracking.Shared

/-!
# Pipelines that share a tracking leaf

The tracker of a leaf belongs to that leaf: whoever wants to offer a state to it calls the leaf. A pipeline
in which every leaf keeps to this does so as a whole, in whatever tasks its parts run, so a world whose
tasks run such pipelines changes the tracker by calls of the leaf, and else only by resets.
-/

namespace Orchestra

/-- A program comes to a call of the leaf with a state, and goes on with what the leaf puts out. -/
def TrackingLeaf.Begins (l : TrackingLeaf) (t : Task) (input : State) (rest : Outcome → Task) : Prop :=
  ∃ ctx, t = (l.runnable.next ctx (.one input)).andThen rest

/-- A program that offers states to the tracker of a leaf only where it calls the leaf, and starts only
such programs. -/
def Task.Tracks (l : TrackingLeaf) : Task → Prop
  | .done _ => True
  | .panic _ => True
  | .endless => True
  | .ask r next =>
    (∀ key s, r = .offer l.tracker key s → ∃ input rest, l.Begins (.ask r next) input rest) ∧
      ∀ a, (next a).Tracks l
  | .spawn _ _ body next => (∀ token, (body token).Tracks l) ∧ ∀ c, (next c).Tracks l

/-- A runnable with such programs only. -/
def Runnable.Tracks (r : Runnable) (l : TrackingLeaf) : Prop :=
  ∀ (ctx : Context) input, (r.next ctx input).Tracks l

variable {l : TrackingLeaf} {t : Task} {input : State} {rest : Outcome → Task}

theorem TrackingLeaf.Begins.andThen (h : l.Begins t input rest) (f : Outcome → Task) :
    l.Begins (t.andThen f) input fun o => (rest o).andThen f := by
  obtain ⟨ctx, rfl⟩ := h
  exact ⟨ctx, Task.andThen_assoc _ _ _⟩

/-- With which state, can be seen from the program. -/
theorem TrackingLeaf.Begins.input_eq {input' : State} {rest' : Outcome → Task}
    (h : l.Begins t input rest) (h' : l.Begins t input' rest') : input = input' := by
  obtain ⟨ctx, rfl⟩ := h
  obtain ⟨ctx', heq⟩ := h'
  injection heq with hrequest
  injection hrequest

namespace Task

theorem tracks_ask {r : Request} {next : r.Answer → Task}
    (other : ∀ key s, r ≠ .offer l.tracker key s) (h : ∀ a, (next a).Tracks l) :
    (ask r next).Tracks l :=
  ⟨fun key s heq => absurd heq (other key s), h⟩

theorem Tracks.andThen {f : Outcome → Task} (h : t.Tracks l) (hf : ∀ o, (f o).Tracks l) :
    (t.andThen f).Tracks l := by
  induction t with
  | done o => exact hf o
  | panic | endless => trivial
  | ask r next ih =>
    refine ⟨fun key s heq => ?_, fun a => ih a (h.2 a)⟩
    obtain ⟨input, rest, begins⟩ := h.1 key s heq
    exact ⟨input, _, begins.andThen f⟩
  | spawn name parent body next _ ih => exact ⟨h.1, fun c => ih c (h.2 c)⟩

end Task

/-! ### Executions -/

namespace Context

variable {ctx : Context} {r : Runnable} {input : Data}

theorem tracks_execute (h : r.Tracks l) : (ctx.execute r input).Tracks l :=
  (h ctx input).andThen fun _ => Task.tracks_ask nofun fun _ => trivial

theorem tracks_run (h : r.Tracks l) (limit : Option LimitId) (token : TokenId) :
    (ctx.run r input limit token).Tracks l := by
  have hexecute : (execute { ctx with token } r input).Tracks l := tracks_execute h
  cases limit with
  | none => exact hexecute
  | some limit =>
    refine Task.tracks_ask nofun fun granted => ?_
    cases granted with
    | true => exact hexecute
    | false => trivial

end Context

/-- A program that uses such runnables is such a program itself. -/
theorem Task.Uses.tracks {part : Runnable → Prop} (uses : t.Uses part)
    (h : ∀ r, part r → r.Tracks l) : t.Tracks l := by
  induction uses with
  | done | panic | endless => trivial
  | ask plain _ ih =>
    refine tracks_ask (fun key s heq => ?_) ih
    subst heq
    contradiction
  | execute ctx input hr _ ih => exact (Context.tracks_execute (h _ hr)).andThen ih
  | start ctx input limit hr _ ih => exact ⟨Context.tracks_run (h _ hr) limit, ih⟩

/-! ### Leaves and pipelines -/

/-- The leaf itself is such a runnable, -/
theorem TrackingLeaf.tracks_runnable (l : TrackingLeaf) : l.runnable.Tracks l := by
  intro ctx input
  cases input with
  | one s =>
    refine ⟨fun key s' heq => ⟨s, .done, ctx, ?_⟩, fun best => trivial⟩
    exact (Task.andThen_done (l.runnable.next ctx (.one s))).symm
  | many states => trivial

/-- and so are all leaves of the library with other trackers. -/
theorem Runnable.OfLibrary.tracks {r : Runnable} (library : r.OfLibrary (· ≠ l.tracker)) :
    r.Tracks l := by
  intro ctx input
  generalize hnext : r.next ctx input = t
  have once : t.AsksOnce (· ≠ l.tracker) := hnext ▸ library.asksOnce input
  cases once with
  | done => trivial
  | ask _ among ends =>
    refine Task.tracks_ask (fun key s heq => among _ key s heq rfl) fun a => ?_
    obtain ⟨o, ho⟩ := ends a
    rw [ho]
    trivial

/-- Any fan-ins and folds, over the leaf itself, the leaves of the library with other trackers and any
others that offer states to the tracker only where they call the leaf. -/
def Parts.tracking (l : TrackingLeaf) : Parts where
  leaf r := r = l.runnable ∨ r.OfLibrary (· ≠ l.tracker) ∨ r.Tracks l
  fanIn _ := True
  combine _ := True
  initial _ := True

/-- A pipeline that is composed of them is such a runnable. -/
theorem Runnable.Composed.tracks {r : Runnable} (composed : r.Composed (.tracking l)) :
    r.Tracks l := by
  refine composed.of_uses ?_ fun r part uses _ ih ctx input => (uses ctx input).tracks ih
  rintro r (rfl | library | tracks)
  · exact l.tracks_runnable
  · exact library.tracks
  · exact tracks

end Orchestra
