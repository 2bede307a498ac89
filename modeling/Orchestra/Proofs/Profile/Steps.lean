import Orchestra.Proofs.Calls.Returns
import Orchestra.Proofs.Permits.Runs

/-!
# What is done to profiles

Profiles change when the running task records a call, and when they are made or cleared from outside.
`Machine.Use` lists what may be done from outside by whoever uses the pipelines of a pool. Every task then
began with a program that records the calls of known runnables only, so that a step changes a profile if
and only if a call returns in it.
-/

namespace Orchestra

namespace World

variable {w w' : World} {task : TaskId}

theorem profiles_stop (w : World) (tokens : List TokenId) : (w.stop tokens).profiles = w.profiles := by
  induction tokens generalizing w with
  | nil => rfl
  | cons token rest ih => exact (ih (w.stopOne token)).trans (same_stopOne w token).profiles

/-- Only a record changes profiles. -/
theorem profiles_answer? {deadline : Option Nat} {r : Request} {a : r.Answer}
    (h : w.answer? task deadline r = some (a, w')) (other : r.records = false) :
    w'.profiles = w.profiles := by
  cases r with
  | record => contradiction
  | isStopped | now | stopwatch | newLimit | log | count | offer =>
    cases h
    rfl
  | stop tokens =>
    cases h
    exact profiles_stop w tokens
  | sleep => exact congrArg World.profiles (eq_of_answer?_sleep h)
  | nextChild => exact congrArg World.profiles (eq_of_answer?_nextChild h)
  | acquire limit token =>
    rcases answer?_acquire h with ⟨-, -, rfl⟩ | ⟨-, -, rfl⟩ | ⟨-, l, l', -, -, rfl⟩
    · exact (same_changeLimit w limit _).profiles
    · rfl
    · rfl

theorem profiles_addTask (w : World) (name : String) (token : Option TokenId) (program : Task) :
    (w.addTask name token program).profiles = w.profiles :=
  (same_addTask w name token program).profiles

theorem profiles_finish (w : World) (task : TaskId) (ending : Ending) :
    (w.finish task ending).profiles = w.profiles := by
  cases ht : w.tasks.get? task with
  | none => rw [finish, ht]
  | some t =>
    rw [finish_eq ht]
    exact (same_wakeAll _ _).profiles.trans (same_releaseAll w t.held).profiles

end World

namespace Machine

variable {pool : Runnable → Prop} {cleared : Option ProfileId} {a b : Machine} {task : TaskId}
  {t : Task} {s : Suspended}

/-- The call that the running task is about to record, if it is. -/
def recorded? (a : Machine) : Option (ProfileId × String × Bool) :=
  match a.control with
  | .running _ (.ask (.record profile name failed) _) => some (profile, name, failed)
  | _ => none

/-- Nobody waits to record a call. -/
def Unrecorded (a : Machine) : Prop :=
  ∀ s ∈ a.world.suspended, s.request.records = false

/-- A step records the call that the running task is about to record, and does nothing else to
profiles. -/
theorem Step.profiles (step : Step a b) (unrecorded : a.Unrecorded) :
    b.world.profiles = match a.recorded? with
      | some (profile, name, failed) =>
        a.world.profiles.modify profile fun p => p.record name .zero failed
      | none => a.world.profiles := by
  cases step with
  | @answer w w' task r next answer there =>
    cases r with
    | record =>
      cases there
      rfl
    | _ => exact World.profiles_answer? there rfl
  | @suspend w task r next unanswered =>
    obtain ⟨limits, hsame⟩ := World.suspend_eq w task r next
    cases r with
    | record => contradiction
    | _ => exact hsame.profiles
  | spawn => exact World.profiles_addTask _ _ _ _
  | done | panic => exact World.profiles_finish _ _ _
  | endless | turn | drive | stay => rfl
  | resume found there =>
    have hprofiles := World.profiles_answer? there (unrecorded _ (List.mem_of_find?_eq_some found))
    exact hprofiles
  | clock => exact (World.same_wakeAll _ _).profiles

/-- Of one profile, it records the call if it is one with this profile. -/
theorem Step.profile (step : Step a b) (unrecorded : a.Unrecorded) {profile : ProfileId}
    {p : Profile} (hp : b.world.profiles.get? profile = some p) :
    (∃ name failed p', a.recorded? = some (profile, name, failed) ∧
      a.world.profiles.get? profile = some p' ∧ p = p'.record name .zero failed) ∨
    (∀ name failed, a.recorded? ≠ some (profile, name, failed)) ∧
      a.world.profiles.get? profile = some p := by
  have hprofiles := step.profiles unrecorded
  cases hrecorded : a.recorded? with
  | none =>
    simp only [hrecorded] at hprofiles
    exact .inr ⟨nofun, hprofiles ▸ hp⟩
  | some recorded =>
    obtain ⟨profile', name, failed⟩ := recorded
    simp only [hrecorded] at hprofiles
    rw [hprofiles, Table.get?_modify] at hp
    split at hp
    · next heq =>
      subst heq
      obtain ⟨p', hp', rfl⟩ := Option.map_eq_some_iff.mp hp
      exact .inl ⟨name, failed, p', rfl, hp', rfl⟩
    · next hne =>
      refine .inr ⟨fun name' failed' heq => ?_, hp⟩
      cases heq
      exact hne rfl

/-- A request to record a call is answered at once. -/
theorem Step.unrecorded (step : Step a b) (unrecorded : a.Unrecorded) : b.Unrecorded := by
  intro s hs
  rcases step.waited hs with hs | ⟨_, _, _, _, _, -, rfl⟩ | ⟨-, unanswered⟩
  · exact unrecorded s hs
  · rfl
  · obtain ⟨id, r, next, deadline, order⟩ := s
    cases r with
    | record => contradiction
    | _ => rfl

/-- Whoever has a program after a step had one before, or has just been started. -/
theorem Step.program (step : Step a b) (program : b.Program task t) :
    (∃ t', a.Program task t') ∨ ∃ starter name parent body next,
      a.control = .running starter (.spawn name parent body next) ∧ task = a.world.tasks.size ∧
        a.world.begun (body a.world.tokens.size) ∈ b.world.suspended := by
  cases program with
  | running running =>
    cases step with
    | answer | spawn =>
      cases running
      exact .inl ⟨_, .running rfl⟩
    | resume found =>
      cases running
      have hid := List.find?_some found
      obtain rfl : _ = task := of_decide_eq_true hid
      exact .inl ⟨_, .waiting (List.mem_of_find?_eq_some found)⟩
    | _ => cases running
  | @waiting s hs =>
    rcases step.waited hs with hs' | ⟨starter, name, parent, body, next, running, rfl⟩ | ⟨running, -⟩
    · exact .inl ⟨_, .waiting hs'⟩
    · exact .inr ⟨starter, name, parent, body, next, running, rfl, hs⟩
    · exact .inl ⟨_, .running running⟩

/-- What may be done from outside by whoever uses the pipelines of a pool, with the profile that is then
empty. -/
inductive Use (pool : Runnable → Prop) : Option ProfileId → Machine → Machine → Prop
  /-- A run of a pipeline is started. -/
  | start (w : World) (ctx : Context) {r : Runnable} (hr : pool r) (input : Data)
    (limit : Option LimitId) :
    Use pool none ⟨w, .idle⟩ ⟨(w.spawn r.name ctx.token (ctx.run r input limit)).2, .idle⟩
  /-- A program begins to drive the world that calls pipelines, or waits for their runs. -/
  | enter (w : World) {program : Task} (calls : program.Calls (Runnable.Within pool))
    (outer : w.outer = none) :
    Use pool none ⟨w, .idle⟩ ⟨{ w with outer := some w.tasks.size }.addTask "" none program, .idle⟩
  | leave (w : World) (outer : ∀ task, w.outer = some task → w.resume? task = none) :
    Use pool none ⟨w, .idle⟩ ⟨{ w with outer := none }, .idle⟩
  | newProfile (w : World) :
    Use pool (some w.profiles.size) ⟨w, .idle⟩
      ⟨{ w with profiles := w.profiles.push .empty }, .idle⟩
  | resetProfile (w : World) (profile : ProfileId) :
    Use pool (some profile) ⟨w, .idle⟩
      ⟨{ w with profiles := w.profiles.modify profile fun _ => .empty }, .idle⟩
  /-- Something else that leaves profiles alone, such as a stop. -/
  | other {w w' : World} (steady : w.Steady w') (profiles : w'.profiles = w.profiles) :
    Use pool none ⟨w, .idle⟩ ⟨w', .idle⟩

/-- These are things that may be done from outside. -/
theorem Use.touch (use : Use pool cleared a b) : Touch a b := by
  have hprofiles (w : World) (profiles : Table Profile) : w.Steady { w with profiles } :=
    ⟨rfl, rfl, rfl, .refl _, rfl, fun _ => rfl, rfl, List.Subset.refl _⟩
  cases use with
  | start w ctx hr input limit => exact .start w _ _ _
  | enter w calls outer => exact .enter w _ outer
  | leave w outer => exact .leave w outer
  | newProfile w => exact .change (hprofiles w _)
  | resetProfile w profile => exact .change (hprofiles w _)
  | other steady => exact .change steady

/-- Nobody runs then. -/
theorem Use.idle (use : Use pool cleared a b) : a.control = .idle ∧ b.control = .idle := by
  cases use <;> exact ⟨rfl, rfl⟩

/-- The cleared profile is empty, and every other is as before. -/
theorem Use.profile (use : Use pool cleared a b) {profile : ProfileId} {p : Profile}
    (hp : b.world.profiles.get? profile = some p) : (cleared = some profile ∧ p = .empty) ∨
      cleared ≠ some profile ∧ a.world.profiles.get? profile = some p := by
  have hsame (profiles : b.world.profiles = a.world.profiles) :
      a.world.profiles.get? profile = some p := profiles ▸ hp
  cases use with
  | start | enter => exact .inr ⟨nofun, hsame (World.profiles_addTask _ _ _ _)⟩
  | leave => exact .inr ⟨nofun, hp⟩
  | newProfile w =>
    rw [Table.get?_push] at hp
    split at hp
    · next heq =>
      cases hp
      exact .inl ⟨congrArg some heq.symm, rfl⟩
    · next hne => exact .inr ⟨fun heq => hne (Option.some.inj heq).symm, hp⟩
  | resetProfile w reset =>
    rw [Table.get?_modify] at hp
    split at hp
    · next heq =>
      obtain ⟨p', -, rfl⟩ := Option.map_eq_some_iff.mp hp
      exact .inl ⟨congrArg some heq, rfl⟩
    · next hne => exact .inr ⟨fun heq => hne (Option.some.inj heq), hp⟩
  | other steady profiles => exact .inr ⟨nofun, hsame profiles⟩

/-- Whoever waits then waited before, or is new and begins with a program that records the calls of known
runnables only. -/
theorem Use.waited (calls : ∀ r, pool r → r.Calls (Runnable.Within pool))
    (use : Use pool cleared a b) (hs : s ∈ b.world.suspended) : s ∈ a.world.suspended ∨
      ∃ program : Task, program.Calls (Runnable.Within pool) ∧ s = a.world.begun program := by
  have hnew {program : Task} (hprogram : program.Calls (Runnable.Within pool))
      (hsuspended : b.world.suspended = a.world.suspended ++ [a.world.begun program]) :
      s ∈ a.world.suspended ∨
        ∃ program : Task, program.Calls (Runnable.Within pool) ∧ s = a.world.begun program := by
    rcases List.mem_append.mp (hsuspended ▸ hs) with hs | hs
    · exact .inl hs
    · exact .inr ⟨program, hprogram, List.mem_singleton.mp hs⟩
  cases use with
  | start w ctx hr input limit =>
    refine hnew ?_ (World.spawn_keeps _ _ _ _).2.2
    exact Context.calls_run (.pooled hr) (calls _ hr) limit _
  | enter w hprogram => exact hnew hprogram (World.same_addTask _ _ _ _).suspended
  | leave | newProfile | resetProfile => exact .inl hs
  | other steady => exact .inl (steady.suspended ▸ hs)

theorem Use.unrecorded (calls : ∀ r, pool r → r.Calls (Runnable.Within pool))
    (use : Use pool cleared a b) (unrecorded : a.Unrecorded) : b.Unrecorded := by
  intro s hs
  rcases use.waited calls hs with hs | ⟨program, -, rfl⟩
  · exact unrecorded s hs
  · rfl

/-- A step of a running task changes something. -/
theorem Step.ne_of_running (step : Step a b) (running : a.control = .running task t) : b ≠ a := by
  intro heq
  have hcontrol := congrArg control heq
  cases step with
  | @answer w w' task r next a there =>
    injection hcontrol with _ hnext
    exact Task.next_ne _ r next a rfl hnext
  | @spawn w task name parent body next =>
    have hsize := World.size_spawn w name parent body
    rw [show (w.spawn name parent body).2 = w from congrArg Machine.world heq] at hsize
    exact Nat.succ_ne_self _ hsize.symm
  | suspend | done | panic | endless => contradiction
  | turn | drive | resume | stay | clock => contradiction

theorem Step.moved_of_recorded? (step : Step a b) {recorded : ProfileId × String × Bool}
    (h : a.recorded? = some recorded) : b ≠ a := by
  unfold recorded? at h
  split at h
  · next running => exact step.ne_of_running running
  · contradiction

end Machine

end Orchestra
