import Mathlib.Data.Set.Card
import Orchestra.Proofs.Panic.Contained
import Orchestra.Proofs.Profile.Records
import Orchestra.Proofs.Profile.Steps

/-!
# Profiles count the calls that have returned

Whatever pipelines do in a world, in whatever order their tasks have their turns, a profile has at every
moment counted the calls that have returned since it was last cleared, each once and under the name of its
runnable. At each moment at most one call returns, so calls are counted by the moments of their returns.
-/

namespace Orchestra

/-- What a profile says of the calls that have returned under each name, and of those of them that failed:
there is an entry for each name with such calls, with their numbers, and these are listed in name order.
It would say so if they had been recorded in any other order. -/
structure Profile.Counts (p : Profile) (returns failures : String → Set Nat) : Prop where
  absent : ∀ name, p.get? name = none ↔ returns name = ∅
  calls : ∀ name e, p.get? name = some e → e.calls = (returns name).ncard
  errors : ∀ name e, p.get? name = some e → e.errors = (failures name).ncard
  errors_le : ∀ name e, p.get? name = some e → e.errors ≤ e.calls
  increasing : (p.snapshot.map Prod.fst).Pairwise (· < ·)
  names : ∀ name, name ∈ p.snapshot.map Prod.fst ↔ (returns name).Nonempty
  listed : ∀ name e, (name, e) ∈ p.snapshot ↔ p.get? name = some e
  unordered : ∃ records : List CallRecord, p = .ofRecords records ∧
    (∀ name, (returns name).ncard = records.countP fun r => r.name = name) ∧
    (∀ name, (failures name).ncard = records.countP fun r => r.name = name && r.failed) ∧
    ∀ records', records'.Perm records → .ofRecords records' = p

namespace Trace

open Machine

variable {tr : Trace} {pool known : Runnable → Prop} {cleared : Nat → Option ProfileId}
  {m i j k : Nat} {task : TaskId} {t : Task} {profile : ProfileId} {name : String}
  {which : Bool → Bool} {failed : Bool} {o : Outcome} {call : tr.Call} {p : Profile}

/-- A world in which nothing has begun and nothing has been recorded is used by pipelines of a pool: at each
moment it takes a step, or something is done to it from outside, by which a profile may be cleared. -/
structure Serves (tr : Trace) (pool : Runnable → Prop) (cleared : Nat → Option ProfileId) : Prop where
  idle : (tr.machine 0).control = .idle
  nobody : (tr.machine 0).world.suspended = []
  unused : ∀ profile p, (tr.machine 0).world.profiles.get? profile = some p → p = .empty
  moves : ∀ m, (tr.machine m).Step (tr.machine (m + 1)) ∧ cleared m = none ∨
    Use pool (cleared m) (tr.machine m) (tr.machine (m + 1)) ∨
    tr.machine (m + 1) = tr.machine m ∧ cleared m = none

/-- A call under a name returns at a moment, with a profile, and it has failed or not. -/
def ReturnsAt (tr : Trace) (known : Runnable → Prop) (profile : ProfileId) (name : String)
    (which : Bool → Bool) (i : Nat) : Prop :=
  ∃ call : tr.Call, ∃ o, known call.runnable ∧ call.ctx.profile = profile ∧
    call.runnable.name = name ∧ which (Outcome.isError o) = true ∧ call.Returns i o

/-- The moments up to a given one at which such a call has returned since the profile was last cleared. -/
def returned (tr : Trace) (known : Runnable → Prop) (cleared : Nat → Option ProfileId)
    (profile : ProfileId) (name : String) (which : Bool → Bool) (k : Nat) : Set Nat :=
  {i | i ≤ k ∧ (∀ j, i ≤ j → j < k → cleared j ≠ some profile) ∧
    tr.ReturnsAt known profile name which i}

/-! ### Every task calls known runnables only -/

/-- A task begins with a program that records the calls of known runnables only. -/
def Begins (tr : Trace) (known : Runnable → Prop) (m : Nat) (task : TaskId) : Prop :=
  ∃ (w : World) (program : Task), w.tasks.size = task ∧ program.Calls known ∧
    w.begun program ∈ (tr.machine m).world.suspended

/-- What such a task does is left of its program. -/
theorem Begins.exists_left (begins : tr.Begins known m task) (hmi : m ≤ i)
    (running : (tr.machine i).control = .running task t)
    (moved : tr.machine (i + 1) ≠ tr.machine i) :
    ∃ e : tr.Episode, e.part.Calls known ∧ e.Left i t := by
  obtain ⟨w, program, rfl, calls, begun⟩ := begins
  obtain ⟨j, hji, running'⟩ := begun_before begun hmi running
  let e : tr.Episode :=
    ⟨w.tasks.size, j + 1, program, .done, (Task.andThen_done program).symm ▸ running'⟩
  refine ⟨e, calls, ?_⟩
  rcases e.program_of_left .begins hji (.running running) with
    ⟨l, o, hli, left⟩ | ⟨l, s, -, -, rfl, -, hleft⟩
  · rcases Nat.eq_or_lt_of_le hli with rfl | hlt
    · cases running.symm.trans left.running
      exact left
    · have hstands := stands_of_over left.running nofun nofun hlt (.running running)
      exact absurd ((hstands _ (Nat.le_succ_of_le hli)).trans (hstands i hli).symm) moved
  · have left := hleft running moved
    rwa [show s.andThen e.rest = s from Task.andThen_done s]

/-- Whoever has a program in a world that is used by pipelines began so. -/
theorem Serves.begins (serves : tr.Serves pool cleared)
    (calls : ∀ r, pool r → r.Calls (Runnable.Within pool))
    (program : (tr.machine m).Program task t) :
    ∃ j ≤ m, tr.Begins (Runnable.Within pool) j task := by
  induction m generalizing task t with
  | zero =>
    cases program with
    | running running => exact absurd (serves.idle.symm.trans running) nofun
    | waiting hs => exact absurd (serves.nobody ▸ hs) List.not_mem_nil
  | succ m ih =>
    have hold {t : Task} (program : (tr.machine m).Program task t) :
        ∃ j ≤ m + 1, tr.Begins (Runnable.Within pool) j task := by
      obtain ⟨j, hj, begins⟩ := ih program
      exact ⟨j, Nat.le_succ_of_le hj, begins⟩
    rcases serves.moves m with ⟨step, -⟩ | use | ⟨still, -⟩
    · rcases step.program program with
        ⟨t', program⟩ | ⟨starter, name, parent, body, next, running, rfl, begun⟩
      · exact hold program
      · obtain ⟨j, hj, begins⟩ := ih (.running running)
        obtain ⟨e, hcalls, left⟩ := begins.exists_left hj running (step.ne_of_running running)
        rcases left.quiet_or_records hcalls with quiet | ⟨_, _, _, -, -, heq⟩
        · exact ⟨m + 1, Nat.le_refl _, _, _, rfl, quiet _, begun⟩
        · cases heq
    · cases program with
      | running running => exact absurd (use.idle.2.symm.trans running) nofun
      | waiting hs =>
        rcases use.waited calls hs with hs' | ⟨program, hprogram, rfl⟩
        · exact hold (.waiting hs')
        · exact ⟨m + 1, Nat.le_refl _, _, _, rfl, hprogram, hs⟩
    · exact hold (still ▸ program)

/-- Nobody ever waits to record a call. -/
theorem Serves.unrecorded (serves : tr.Serves pool cleared)
    (calls : ∀ r, pool r → r.Calls (Runnable.Within pool)) (m : Nat) :
    (tr.machine m).Unrecorded := by
  induction m with
  | zero => exact fun s hs => absurd (serves.nobody ▸ hs) List.not_mem_nil
  | succ m ih =>
    rcases serves.moves m with ⟨step, -⟩ | use | ⟨still, -⟩
    · exact step.unrecorded ih
    · exact use.unrecorded calls ih
    · exact still ▸ ih

/-! ### A call returns when it is recorded -/

theorem Call.Records.recorded? (records : call.Records i o) : (tr.machine i).recorded? =
    some (call.ctx.profile, call.runnable.name, Outcome.isError o) := by
  rw [Machine.recorded?, records.running]
  rfl

/-- A call returns in a step that records it, and only in such a step. -/
theorem Serves.returnsAt_iff (serves : tr.Serves pool cleared)
    (calls : ∀ r, pool r → r.Calls (Runnable.Within pool)) :
    tr.ReturnsAt (Runnable.Within pool) profile name which (m + 1) ↔
      tr.machine (m + 1) ≠ tr.machine m ∧ ∃ failed, which failed = true ∧
        (tr.machine m).recorded? = some (profile, name, failed) := by
  constructor
  · rintro ⟨call, o, -, rfl, rfl, hwhich, returns⟩
    obtain ⟨j, hj, records⟩ := returns.recorded
    obtain rfl := Nat.succ.inj hj
    refine ⟨fun still => ?_, _, hwhich, records.recorded?⟩
    have running := Episode.Left.running returns
    rw [still, records.running] at running
    injection running with _ hnext
    exact Task.next_ne _ (call.record o) (fun _ => call.rest o) () rfl hnext.symm
  · rintro ⟨moved, failed, hwhich, hrecorded⟩
    have move := (tr.move m).resolve_right fun still => moved (still (m + 1) (Nat.le_succ m))
    unfold Machine.recorded? at hrecorded
    split at hrecorded
    · next task profile' name' failed' next running =>
      cases hrecorded
      obtain ⟨j, hj, begins⟩ := serves.begins calls (.running running)
      obtain ⟨e, hcalls, left⟩ := begins.exists_left hj running moved
      rcases left.quiet_or_records hcalls with quiet | ⟨call, o, _, hknown, records, heq⟩
      · cases quiet
      · injection heq with hrequest
        injection hrequest with hprofile hname hfailed
        refine ⟨call, o, hknown, hprofile.symm, hname.symm, hfailed ▸ hwhich, ?_⟩
        exact records.returns (move.step running)
    · contradiction

/-- No call returns at first. -/
theorem not_returnsAt_zero : ¬ tr.ReturnsAt known profile name which 0 := by
  rintro ⟨call, o, -, -, -, -, returns⟩
  obtain ⟨j, hj, -⟩ := returns.recorded
  exact Nat.succ_ne_zero j hj.symm

/-! ### The calls that have returned by a moment -/

theorem finite_returned (k : Nat) : (tr.returned known cleared profile name which k).Finite :=
  (Set.finite_le_nat k).subset fun _ hi => hi.1

theorem mem_returned_succ : i ∈ tr.returned known cleared profile name which (k + 1) ↔
    i ∈ tr.returned known cleared profile name which k ∧ cleared k ≠ some profile ∨
      i = k + 1 ∧ tr.ReturnsAt known profile name which (k + 1) := by
  constructor
  · rintro ⟨hle, uncleared, returns⟩
    rcases Nat.eq_or_lt_of_le hle with rfl | hlt
    · exact .inr ⟨rfl, returns⟩
    · have hik := Nat.le_of_lt_succ hlt
      refine .inl ⟨⟨hik, fun j hij hjk => uncleared j hij (Nat.lt_succ_of_lt hjk), returns⟩, ?_⟩
      exact uncleared k hik (Nat.lt_succ_self k)
  · rintro (⟨⟨hle, uncleared, returns⟩, hcleared⟩ | ⟨rfl, returns⟩)
    · refine ⟨Nat.le_succ_of_le hle, fun j hij hjk => ?_, returns⟩
      rcases Nat.eq_or_lt_of_le (Nat.le_of_lt_succ hjk) with rfl | hlt
      · exact hcleared
      · exact uncleared j hij hlt
    · exact ⟨Nat.le_refl _, fun j hij hjk => absurd hjk (Nat.not_lt_of_le hij), returns⟩

/-- Where no call returns, there are the same as before, -/
theorem returned_succ (hcleared : cleared k ≠ some profile)
    (hnot : ¬ tr.ReturnsAt known profile name which (k + 1)) :
    tr.returned known cleared profile name which (k + 1) =
      tr.returned known cleared profile name which k := by
  ext i
  rw [mem_returned_succ]
  exact ⟨fun h => (h.resolve_right fun h => hnot h.2).1, fun h => .inl ⟨h, hcleared⟩⟩

/-- where one returns, there is one more, -/
theorem ncard_returned_succ (hcleared : cleared k ≠ some profile)
    (returns : tr.ReturnsAt known profile name which (k + 1)) :
    (tr.returned known cleared profile name which (k + 1)).ncard =
      (tr.returned known cleared profile name which k).ncard + 1 := by
  have hinsert : tr.returned known cleared profile name which (k + 1) =
      insert (k + 1) (tr.returned known cleared profile name which k) := by
    ext i
    rw [mem_returned_succ, Set.mem_insert_iff, or_comm]
    exact or_congr (and_iff_left returns) (and_iff_left hcleared)
  rw [hinsert]
  exact Set.ncard_insert_of_notMem (fun h => Nat.not_succ_le_self k h.1) (finite_returned k)

/-- and when the profile is cleared, there are none. -/
theorem returned_of_cleared (hcleared : cleared k = some profile)
    (hnot : ¬ tr.ReturnsAt known profile name which (k + 1)) :
    tr.returned known cleared profile name which (k + 1) = ∅ := by
  ext i
  rw [mem_returned_succ]
  simp only [Set.mem_empty_iff_false, iff_false, not_or]
  exact ⟨fun h => h.2 hcleared, fun h => hnot h.2⟩

/-- A profile is made of records, as many under each name as calls have returned since it was last cleared.
The calls of a run are recorded without their times. -/
def MadeOf (tr : Trace) (known : Runnable → Prop) (cleared : Nat → Option ProfileId)
    (profile : ProfileId) (k : Nat) (p : Profile) : Prop :=
  ∃ records : List CallRecord, p = .ofRecords records ∧ (∀ r ∈ records, r.elapsed = .zero) ∧
    ∀ name which, (tr.returned known cleared profile name which k).ncard =
      records.countP fun r => r.name = name && which r.failed

/-- So it remains while no call returns, -/
theorem MadeOf.keep (made : tr.MadeOf known cleared profile k p) (hcleared : cleared k ≠ some profile)
    (hnot : ∀ name which, ¬ tr.ReturnsAt known profile name which (k + 1)) :
    tr.MadeOf known cleared profile (k + 1) p := by
  obtain ⟨records, hrecords, untimed, hcounts⟩ := made
  refine ⟨records, hrecords, untimed, fun name which => ?_⟩
  rw [returned_succ hcleared (hnot name which)]
  exact hcounts name which

/-- when one returns and is recorded, -/
theorem MadeOf.record (made : tr.MadeOf known cleared profile k p)
    (hcleared : cleared k ≠ some profile)
    (hreturns : ∀ name' which, tr.ReturnsAt known profile name' which (k + 1) ↔
      (decide (name = name') && which failed) = true) :
    tr.MadeOf known cleared profile (k + 1) (p.record name .zero failed) := by
  obtain ⟨records, rfl, untimed, hcounts⟩ := made
  have happend := Profile.ofRecords_append records ⟨name, .zero, failed⟩
  refine ⟨records ++ [⟨name, .zero, failed⟩], happend.symm,
    List.forall_mem_append.mpr ⟨untimed, List.forall_mem_singleton.mpr rfl⟩, fun name' which => ?_⟩
  rw [List.countP_append, List.countP_singleton, ← hcounts]
  by_cases h : (decide (name = name') && which failed) = true
  · rw [if_pos h, ncard_returned_succ hcleared ((hreturns name' which).mpr h)]
  · rw [if_neg h, returned_succ hcleared fun returns => h ((hreturns name' which).mp returns)]
    rfl

/-- and when it is cleared. -/
theorem madeOf_empty (hcleared : cleared k = some profile)
    (hnot : ∀ name which, ¬ tr.ReturnsAt known profile name which (k + 1)) :
    tr.MadeOf known cleared profile (k + 1) .empty := by
  refine ⟨[], rfl, nofun, fun name which => ?_⟩
  rw [returned_of_cleared hcleared (hnot name which)]
  exact Set.ncard_empty Nat

theorem madeOf_zero : tr.MadeOf known cleared profile 0 .empty := by
  refine ⟨[], rfl, nofun, fun name which => ?_⟩
  rw [List.countP_nil, Set.ncard_eq_zero (finite_returned 0)]
  refine Set.eq_empty_of_forall_notMem ?_
  rintro i ⟨hi, -, returns⟩
  obtain rfl := Nat.le_zero.mp hi
  exact not_returnsAt_zero returns

/-- So every profile is at each moment. -/
theorem Serves.madeOf (serves : tr.Serves pool cleared)
    (calls : ∀ r, pool r → r.Calls (Runnable.Within pool))
    (hp : (tr.machine k).world.profiles.get? profile = some p) :
    tr.MadeOf (Runnable.Within pool) cleared profile k p := by
  induction k generalizing p with
  | zero => exact serves.unused _ _ hp ▸ madeOf_zero
  | succ k ih =>
    rcases serves.moves k with ⟨step, hnone⟩ | use | ⟨still, hnone⟩
    · have hcleared : cleared k ≠ some profile := hnone ▸ nofun
      rcases step.profile (serves.unrecorded calls k) hp with
        ⟨name, failed, p', hrecorded, hp', rfl⟩ | ⟨hnot, hp⟩
      · have moved := step.moved_of_recorded? hrecorded
        refine (ih hp').record hcleared fun name' which => (serves.returnsAt_iff calls).trans ?_
        rw [Bool.and_eq_true, decide_eq_true_iff, hrecorded]
        constructor
        · rintro ⟨-, failed', hwhich, hsome⟩
          cases hsome
          exact ⟨rfl, hwhich⟩
        · rintro ⟨rfl, hwhich⟩
          exact ⟨moved, failed, hwhich, rfl⟩
      · refine (ih hp).keep hcleared fun name which returns => ?_
        obtain ⟨-, failed, -, hrecorded⟩ := (serves.returnsAt_iff calls).mp returns
        exact hnot name failed hrecorded
    · have hnot (name : String) (which : Bool → Bool) :
          ¬ tr.ReturnsAt (Runnable.Within pool) profile name which (k + 1) := fun returns => by
        obtain ⟨call, o, -, -, -, -, returns⟩ := returns
        exact absurd (use.idle.2.symm.trans (Episode.Left.running returns)) nofun
      rcases use.profile hp with ⟨hcleared, rfl⟩ | ⟨hcleared, hp⟩
      · exact madeOf_empty hcleared hnot
      · exact (ih hp).keep hcleared hnot
    · refine (ih (still ▸ hp)).keep (hnone ▸ nofun) fun name which returns => ?_
      exact ((serves.returnsAt_iff calls).mp returns).1 still

theorem MadeOf.counts (made : tr.MadeOf known cleared profile k p) :
    p.Counts (fun name => tr.returned known cleared profile name (fun _ => true) k)
      fun name => tr.returned known cleared profile name id k := by
  obtain ⟨records, rfl, untimed, hcounts⟩ := made
  have fit := CallRecord.fit_of_zero untimed
  have ordered := Profile.ordered_ofRecords records
  have hcalls (name : String) :
      (tr.returned known cleared profile name (fun _ => true) k).ncard =
        records.countP fun r => r.name = name := by
    rw [hcounts]
    exact List.countP_congr fun r _ => by rw [Bool.and_true]
  have habsent (name : String) : (Profile.ofRecords records).get? name = none ↔
      tr.returned known cleared profile name (fun _ => true) k = ∅ := by
    rw [Profile.get?_ofRecords_eq_none fit, ← hcalls, Set.ncard_eq_zero (finite_returned k)]
  exact
    { absent := habsent
      calls := fun name e he => (Profile.of_get?_ofRecords fit he).1.trans (hcalls name).symm
      errors := fun name e he => (Profile.of_get?_ofRecords fit he).2.1.trans (hcounts name id).symm
      errors_le := fun name e he => (Profile.of_get?_ofRecords fit he).2.2
      increasing := ordered.pairwise
      names := fun name =>
        ordered.mem_keys.trans ((not_congr (habsent name)).trans Set.nonempty_iff_ne_empty.symm)
      listed := fun name e => ⟨ordered.find?_of_mem, Keyed.mem_of_find?⟩
      unordered := ⟨records, rfl, hcalls, fun name => hcounts name id,
        fun _ h => (Profile.ofRecords_perm fit h.symm).symm⟩ }

/-- For pipelines of the library's composites, over leaves of any kind that record nothing themselves, in
every trace of a world that they use: at every moment each profile counts, under each name, the calls of
runnables with that name that have returned since it was last cleared, and those of them that have failed.
They are counted by the moments of their returns, at each of which no more than one call returns; a call that
panics never does. -/
theorem Serves.counts_returns (serves : tr.Serves pool cleared)
    (composed : ∀ r, pool r → r.Composed (.calling pool)) {k : Nat} {profile : ProfileId}
    {p : Profile} (made : (tr.history.world k).profiles.get? profile = some p) :
    p.Counts
      (fun name => tr.returned (Runnable.Within pool) cleared profile name (fun _ => true) k)
      (fun name => tr.returned (Runnable.Within pool) cleared profile name id k) ∧
    (∀ (call call' : tr.Call) i o o', call.Returns i o → call'.Returns i o' →
      call.task = call'.task ∧ call.record o = call'.record o' ∧ call.rest o = call'.rest o') ∧
    ∀ (call : tr.Call) i payload, call.episode.Left i (.panic payload) →
      ∀ j o, ¬ call.Returns j o := by
  have calls (r : Runnable) (hr : pool r) : r.Calls (Runnable.Within pool) :=
    (composed r hr).calls (.pooled hr)
  exact ⟨(serves.madeOf calls made).counts, fun call call' i o o' returns returns' =>
    returns.unique returns', fun call i payload left j o => Call.not_returns_of_panic left⟩

/-- The run of a pipeline in a session of its own uses the world in this way. -/
theorem serves_ofRun (r : Runnable) (input : Data) :
    (ofRun r input).Serves (· = r) fun _ => none where
  idle := rfl
  nobody := rfl
  unused profile p hp := by
    have hp : (Table.empty.push Profile.empty).get? profile = some p := hp
    rw [Table.get?_push, Table.get?_empty] at hp
    split at hp
    · exact (Option.some.inj hp).symm
    · contradiction
  moves m := by
    cases m with
    | zero =>
      exact .inr (.inl (@Use.start (· = r) _ ⟨0, .default, 0⟩ r rfl input none))
    | succ m =>
      have hnext : (ofRun r input).machine (m + 2) = ((ofRun r input).machine (m + 1)).next :=
        Function.iterate_succ_apply' Machine.next m _
      rw [hnext]
      rcases Machine.step_next ((ofRun r input).sound_at (m + 1)) with step | ⟨-, still⟩
      · exact .inl ⟨step, rfl⟩
      · exact .inr (.inr ⟨still, rfl⟩)

end Trace

/-- Branches of which one panics, one is cancelled and one waits, under best effort. -/
def uneven : Branches :=
  ⟨[fragile.runnable, Leaf.raise .cancelled, Leaf.sleep (.ofMillis 10)], .collect, some .bestEffort, none, false⟩

theorem composed_uneven (pool : Runnable → Prop) : uneven.runnable.Composed (.calling pool) := by
  have hfragile : fragile.runnable.Composed (.calling pool) := by
    refine .branch (List.forall_mem_cons.mpr ⟨.leaf (.inl .identity), ?_⟩)
    exact List.forall_mem_singleton.mpr (.leaf (.inr fun _ _ => .panic _))
  refine .branches (List.forall_mem_cons.mpr ⟨hfragile, List.forall_mem_cons.mpr ⟨?_, ?_⟩⟩) trivial
  · exact .leaf (.inr fun _ _ => .done _)
  · exact List.forall_mem_singleton.mpr (.leaf (.inl (.sleep (.ofMillis 10))))

/-- A run of them in a session of their own. -/
def unevenTrace : Trace :=
  .ofRun uneven.runnable (.one .empty)

/-- The cancelled branch is counted as failed, the branch that panics is not counted, and the component that
it has executed before is. -/
theorem counts_returns_of_uneven :
    let returns name := unevenTrace.returned (Runnable.Within (· = uneven.runnable)) (fun _ => none) 0
      name (fun _ => true) 44
    let failures name := unevenTrace.returned (Runnable.Within (· = uneven.runnable)) (fun _ => none) 0
      name id 44
    (returns "Raise").ncard = 1 ∧ (failures "Raise").ncard = 1 ∧
      (returns "Identity").ncard = 1 ∧ (failures "Identity").ncard = 0 ∧
      returns "Fragile" = ∅ ∧ (returns "Branches").ncard = 1 := by
  intro returns failures
  have made : (unevenTrace.history.world 44).profiles.get? 0 = some ⟨[("Branches", ⟨1, 0, .zero⟩),
      ("Identity", ⟨1, 0, .zero⟩), ("Raise", ⟨1, 1, .zero⟩), ("Sleep", ⟨1, 0, .zero⟩)]⟩ := by
    with_unfolding_all rfl
  obtain ⟨counts, -⟩ := (Trace.serves_ofRun uneven.runnable (.one .empty)).counts_returns
    (by
      rintro _ rfl
      exact composed_uneven _) made
  refine ⟨?_, ?_, ?_, ?_, ?_, ?_⟩
  · exact (counts.calls "Raise" _ rfl).symm
  · exact (counts.errors "Raise" _ rfl).symm
  · exact (counts.calls "Identity" _ rfl).symm
  · exact (counts.errors "Identity" _ rfl).symm
  · exact (counts.absent "Fragile").mp rfl
  · exact (counts.calls "Branches" _ rfl).symm

end Orchestra
