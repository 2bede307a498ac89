import Orchestra.Proofs.Caller.Episodes

/-!
# Stops from outside

A composite is executed in the context of its caller, and hands this context on to the parts that it runs
one after the other; those that it runs side by side get tokens of their own. Races and fan-outs stop such
tokens, at every level of nesting. None of these stops reaches a token that was there before the
composite was executed. So the context of the caller, and everybody else who was there, is stopped
afterwards exactly if it was before or has been stopped from outside. A loop whose context is not stopped
from outside never sees a stop, whatever its body stops.
-/

namespace Orchestra

/-- A token that exists, below tokens that exist. -/
def Tokens.Made (t : Tokens) (x : TokenId) : Prop :=
  x < t.size ∧ ∀ y ∈ t.lineage x, y < t.size

namespace Trace

variable {tr : Trace}

namespace Episode

variable {e : tr.Episode} {i j k : Nat} {c : Child} {x : TokenId}

/-- A child has a token that was not there before. -/
theorem token_of_starts {task : TaskId} (starts : tr.Starts j task c) :
    c.token = (tr.history.world j).tokens.size ∧
      (tr.history.world (j + 1)).tokens.Has c.token := by
  obtain ⟨name, parent, body, next, running, hspawn⟩ := starts
  have hworld : tr.history.world (j + 1) = ((tr.history.world j).spawn name parent body).2 :=
    (congrArg Prod.snd hspawn).symm
  obtain rfl : ((tr.history.world j).spawn name parent body).1 = c := congrArg Prod.fst hspawn
  exact ⟨rfl, History.has_spawn (hworld ▸ .refl _)⟩

theorem Inside.starts (inside : e.Inside j c) : ∃ task, tr.Starts j task c := by
  cases inside with
  | child _ starts | deeper _ _ starts => exact ⟨_, starts⟩

/-- A child that a step of the episode starts belongs to it. -/
theorem Acts.inside_of_starts {task : TaskId} (acts : e.Acts i) (starts : tr.Starts i task c) :
    e.Inside i c := by
  obtain ⟨name, parent, body, next, running, hspawn⟩ := id starts
  have hactor : (tr.machine i).actor? = some task := by rw [Machine.actor?, running]
  rcases acts with ⟨on, hactor'⟩ | ⟨j, p, inside, hj, hactor'⟩
  · cases hactor.symm.trans hactor'
    have hmoved : tr.machine (i + 1) ≠ tr.machine i := fun heq => by
      have hsize := (token_of_starts starts).2.1
      rw [(token_of_starts starts).1, show tr.history.world (i + 1) = tr.history.world i from
        congrArg Machine.world heq] at hsize
      exact Nat.lt_irrefl _ hsize
    rcases e.program_of_left .begins on.1 (.running running) with
      ⟨k, o, hki, left⟩ | ⟨k, s, -, -, hs, hdone, hleft⟩
    · exact absurd (on.2 k o left) (Nat.not_lt_of_le hki)
    · have left := hleft running hmoved
      cases s with
      | spawn => exact .child left starts
      | done o => exact absurd rfl (hdone o)
      | ask | panic | endless => cases hs
  · cases hactor.symm.trans hactor'
    exact .deeper inside hj starts

/-- Whoever is newly stopped by a step of the episode is below a child that belongs to it. -/
theorem Acts.below_of_isStopped (acts : e.Acts i) (spares : e.part.StopsOnly noToken)
    (h : (tr.history.world (i + 1)).isStopped x = true) : (tr.history.world i).isStopped x = true ∨
      ∃ j c, e.Inside j c ∧ j ≤ i ∧ c.token ∈ (tr.history.world (i + 1)).tokens.lineage x := by
  rcases tr.move i with move | still
  swap
  · rw [show tr.history.world (i + 1) = tr.history.world i from
      congrArg Machine.world (still _ (Nat.le_succ i))] at h
    exact .inl h
  have step : (tr.machine i).Step (tr.machine (i + 1)) := move.resolve_right fun touch => by
    rcases acts with ⟨-, hactor⟩ | ⟨j, c, -, -, hactor⟩ <;>
    · rw [touch.actor?_eq] at hactor
      contradiction
  rcases step.isStopped h with hstopped | ⟨y, hstop, hmem⟩ | ⟨rfl, task, name, parent, body, next, running⟩
  · exact .inl hstopped
  · obtain ⟨j, c, hj, inside, rfl⟩ := acts.owns_of_stop spares hstop
    refine .inr ⟨j, c, inside, Nat.le_of_lt hj, ?_⟩
    obtain ⟨task, starts⟩ := inside.starts
    have hgrows := (tr.history.later_of_le (Nat.le_succ i)).tokens
    have has := (token_of_starts starts).2.grow (tr.history.later_of_le hj).tokens
    by_cases hx : x < (tr.history.world i).tokens.size
    · rw [hgrows.lineage hx]
      exact hmem
    · have hnone : (tr.history.world i).tokens.lineage x = [x] := by
        rw [Tokens.lineage, (Table.get?_eq_none_iff _ x).mpr (Nat.le_of_not_lt hx)]
      rw [show (tr.machine i).world.tokens.lineage x = [x] from hnone, List.mem_singleton] at hmem
      exact absurd (hmem ▸ has.1) hx
  · obtain ⟨hworld, -⟩ := step.of_spawn running
    have starts : tr.Starts i task ((tr.machine i).world.spawn name parent body).1 :=
      ⟨name, parent, body, next, running, Prod.ext rfl hworld.symm⟩
    exact .inr ⟨i, _, acts.inside_of_starts starts, Nat.le_refl i, (token_of_starts starts).2.2⟩

/-- No step of the episode stops anybody who was there before. -/
theorem Acts.isStopped_eq (acts : e.Acts i) (spares : e.part.StopsOnly noToken) (hi : e.first ≤ i)
    (made : (tr.history.world e.first).tokens.Made x)
    (h : (tr.history.world (i + 1)).isStopped x = true) :
    (tr.history.world i).isStopped x = true := by
  refine (acts.below_of_isStopped spares h).resolve_right ?_
  rintro ⟨j, c, inside, -, hmem⟩
  rw [(tr.history.later_of_le (Nat.le_succ_of_le hi)).tokens.lineage made.1] at hmem
  obtain ⟨task, starts⟩ := inside.starts
  have hsize := (tr.history.later_of_le inside.le).tokens.size
  rw [← (token_of_starts starts).1] at hsize
  exact absurd (made.2 _ hmem) (Nat.not_lt_of_le hsize)

/-- At a moment a token is newly stopped by a step that is not one of the episode, or by something that
is done from outside. -/
def StoppedFromOutside (e : tr.Episode) (i : Nat) (x : TokenId) : Prop :=
  ¬ e.Acts i ∧ (tr.history.world i).isStopped x = false ∧
    (tr.history.world (i + 1)).isStopped x = true

/-- So whoever was there before is stopped exactly if it was then, or was stopped from outside. -/
theorem isStopped_iff (spares : e.part.StopsOnly noToken)
    (made : (tr.history.world e.first).tokens.Made x) (hk : e.first ≤ k) :
    (tr.history.world k).isStopped x = true ↔ (tr.history.world e.first).isStopped x = true ∨
      ∃ i, e.first ≤ i ∧ i < k ∧ e.StoppedFromOutside i x := by
  constructor
  · intro h
    induction hk with
    | refl => exact .inl h
    | @step k hk ih =>
      cases hbefore : (tr.history.world k).isStopped x with
      | true =>
        refine (ih hbefore).imp_right fun ⟨i, hi, hik, houtside⟩ => ?_
        exact ⟨i, hi, Nat.lt_succ_of_lt hik, houtside⟩
      | false =>
        refine .inr ⟨k, hk, Nat.lt_succ_self k, fun acts => ?_, hbefore, h⟩
        rw [acts.isStopped_eq spares hk made h] at hbefore
        contradiction
  · rintro (h | ⟨i, -, hik, -, -, h⟩)
    · exact (tr.history.later_of_le hk).stopped x h
    · exact (tr.history.later_of_le hik).stopped x h

end Episode

end Trace

/-! ### Scripts that see no stop -/

/-- How far a task has come with a script: it is between two events, or in a call that is not over. -/
inductive Script.Underway (ctx : Context) (s : Script) : List Event → Task → Prop
  | between {es : List Event} {s' : Script} (goes : s.Goes es s')
    (hcall : ∀ part input next, s' ≠ .call part input next) : Underway ctx s es (s'.task ctx)
  | within {es : List Event} {part : Runnable} {input : Data} {next : Outcome → Script} {u : Task}
    (goes : s.Goes es (.call part input next)) (hover : ∀ o, u ≠ .done o) :
    Underway ctx s es (u.andThen fun o => (next o).task ctx)

namespace Script.Underway

variable {ctx : Context} {s s' : Script} {es : List Event} {t : Task}

theorem of_goes (goes : s.Goes es s') : s.Underway ctx es (s'.task ctx) := by
  cases s' with
  | call part input next =>
    have hover (o : Outcome) : ctx.execute part input ≠ .done o := by
      unfold Context.execute
      cases part.next ctx input <;> exact nofun
    exact .within goes hover
  | done | endless | look | time | note => exact .between goes nofun

/-- In a call, or after it. -/
theorem of_call {part : Runnable} {input : Data} {next : Outcome → Script}
    (goes : s.Goes es (.call part input next)) (u : Task) :
    ∃ es', (∀ b, .looked b ∈ es' → .looked b ∈ es) ∧
      s.Underway ctx es' (u.andThen fun o => (next o).task ctx) := by
  cases u with
  | done o =>
    refine ⟨es ++ [.returned part input o], fun b hb => ?_, ?_⟩
    · exact (List.mem_append.mp hb).resolve_right (by simp)
    · exact of_goes (goes_append_iff.mpr ⟨_, goes, .call o (.nil _)⟩)
  | panic | endless | ask | spawn => exact ⟨es, fun _ => id, .within goes nofun⟩

/-- A task that is over is at the end of the script. -/
theorem of_done {o : Outcome} (underway : s.Underway ctx es (.done o)) : s.Goes es (.done o) := by
  generalize ht : Task.done o = t at underway
  cases underway with
  | @between s' goes hcall =>
    cases s' with
    | done o' =>
      cases ht
      exact goes
    | call part input next => exact absurd rfl (hcall part input next)
    | endless | look | time | note => cases ht
  | @within _ _ _ u _ hover =>
    cases u with
    | done o' => exact absurd rfl (hover o')
    | panic | endless | ask | spawn => cases ht

/-- A look shows whether the token is stopped; whatever else is answered is no look of the script. -/
theorem of_ask {h : History} {task : TaskId} {m k : Nat} {r : Request} {next : r.Answer → Task}
    {a : r.Answer} (underway : s.Underway ctx es (.ask r next)) (answers : h.Answers task m r k a) :
    ∃ es', (∀ b, .looked b ∈ es' → .looked b ∈ es ∨ b = (h.world k).isStopped ctx.token) ∧
      s.Underway ctx es' (next a) := by
  generalize ht : Task.ask r next = t at underway
  cases underway with
  | @between s' goes hcall =>
    cases s' with
    | look next' =>
      cases ht
      obtain ⟨w, there, -⟩ := answers.answer
      cases there
      refine ⟨es ++ [.looked _], fun b hb => ?_,
        of_goes (goes_append_iff.mpr ⟨_, goes, .look _ (.nil _)⟩)⟩
      rcases List.mem_append.mp hb with hb | hb
      · exact .inl hb
      · cases List.mem_singleton.mp hb
        exact .inr rfl
    | time next' =>
      cases ht
      refine ⟨es ++ [.timed a], fun b hb => ?_,
        of_goes (goes_append_iff.mpr ⟨_, goes, .time a (.nil _)⟩)⟩
      exact .inl ((List.mem_append.mp hb).resolve_right (by simp))
    | note name failed rest =>
      cases ht
      refine ⟨es ++ [.noted name failed], fun b hb => ?_,
        of_goes (goes_append_iff.mpr ⟨_, goes, .note (.nil _)⟩)⟩
      exact .inl ((List.mem_append.mp hb).resolve_right (by simp))
    | call part input next' => exact absurd rfl (hcall part input next')
    | done | endless => cases ht
  | @within _ _ _ u goes hover =>
    cases u with
    | ask r' next' =>
      cases ht
      obtain ⟨es', hlooks, underway⟩ := of_call goes (next' a)
      exact ⟨es', fun b hb => .inl (hlooks b hb), underway⟩
    | done o => exact absurd rfl (hover o)
    | panic | endless | spawn => cases ht

/-- A task that starts a child is in a call. -/
theorem of_spawn {name : String} {parent : TokenId} {body : TokenId → Task} {next : Child → Task}
    (underway : s.Underway ctx es (.spawn name parent body next)) (c : Child) :
    ∃ es', (∀ b, .looked b ∈ es' → .looked b ∈ es) ∧ s.Underway ctx es' (next c) := by
  generalize ht : Task.spawn name parent body next = t at underway
  cases underway with
  | @between s' _ hcall =>
    cases s' with
    | call part input next => exact absurd rfl (hcall part input next)
    | done | endless | look | time | note => cases ht
  | @within _ _ _ u goes hover =>
    cases u with
    | spawn name' parent' body' next' =>
      cases ht
      exact of_call goes (next' c)
    | done o => exact absurd rfl (hover o)
    | panic | endless | ask => cases ht

end Script.Underway

namespace Trace.Episode

variable {tr : Trace} {e : tr.Episode}

/-- A part that is the program of a script goes on as the script does, with looks that show no stop if
there is none. -/
theorem Left.underway {ctx : Context} {s : Script} (part : e.part = s.task ctx)
    (unstopped : ∀ i, e.first ≤ i → (tr.history.world i).isStopped ctx.token = false) {k : Nat}
    {t : Task} (left : e.Left k t) : ∃ es, .looked true ∉ es ∧ s.Underway ctx es t := by
  induction left with
  | begins => exact ⟨[], nofun, part ▸ .of_goes (.nil s)⟩
  | answer left answers _ _ ih =>
    obtain ⟨es, hunseen, underway⟩ := ih
    obtain ⟨es', hlooks, underway'⟩ := underway.of_ask answers
    refine ⟨es', fun hseen => ?_, underway'⟩
    rcases hlooks true hseen with hseen | hstopped
    · exact hunseen hseen
    · rw [unstopped _ (Nat.le_trans left.le answers.le)] at hstopped
      contradiction
  | @spawn m name parent body next c left _ _ ih =>
    obtain ⟨es, hunseen, underway⟩ := ih
    obtain ⟨es', hlooks, underway'⟩ := underway.of_spawn c
    exact ⟨es', fun hseen => hunseen (hlooks true hseen), underway'⟩

end Trace.Episode

/-- For a pipeline of the library's composites over leaves that stop nobody but children of their own,
every context, every input, and every execution in every trace. The steps of the execution, and of the
tasks that are started in it, issue stops only on tokens of tasks that were started in it, and newly stop
only those who are below such a token. Any token that was there before, and that of the context above all,
is stopped at a later moment exactly if it was before, or was stopped from outside.

So a loop of any kind whose body is such a pipeline, in a context that is not stopped before nor from
outside, comes to its end as its script does when none of its looks shows a stop. -/
theorem Runnable.Composed.spares_caller {r : Runnable} (composed : r.Composed .sparing) :
    (∀ (tr : Trace) (e : tr.Episode) (ctx : Context) (input : Data), e.part = r.next ctx input →
      (∀ i x, e.Acts i → .stop x ∈ (tr.machine i).tokenEvents →
        ∃ j c, j < i ∧ e.Inside j c ∧ c.token = x) ∧
      (∀ i x, e.Acts i → (tr.history.world (i + 1)).isStopped x = true →
        (tr.history.world i).isStopped x = true ∨ ∃ j c, e.Inside j c ∧ j ≤ i ∧
          c.token ∈ (tr.history.world (i + 1)).tokens.lineage x) ∧
      ∀ x k, (tr.history.world e.first).tokens.Made x → e.first ≤ k →
        ((tr.history.world k).isStopped x = true ↔
          (tr.history.world e.first).isStopped x = true ∨
            ∃ i, e.first ≤ i ∧ i < k ∧ e.StoppedFromOutside i x)) ∧
    ∀ (kind : LoopKind) (l : Loop), l.body = r → ∀ (tr : Trace) (e : tr.Episode) (ctx : Context)
      (input : Data), e.part = (kind.runnable l).next ctx input →
      (tr.history.world e.first).tokens.Made ctx.token →
      (tr.history.world e.first).isStopped ctx.token = false →
      (∀ i, e.first ≤ i → ¬ e.StoppedFromOutside i ctx.token) →
      ∀ k o, e.Left k (.done o) →
        ∃ es, .looked true ∉ es ∧ (kind.script l input).Goes es (.done o) := by
  constructor
  · intro tr e ctx input part
    have spares : e.part.StopsOnly noToken := part ▸ composed.spares ctx input
    refine ⟨fun i x acts hstop => acts.owns_of_stop spares hstop, fun i x acts h => ?_,
      fun x k made hk => ?_⟩
    · exact acts.below_of_isStopped spares h
    · exact Trace.Episode.isStopped_iff spares made hk
  · rintro kind l rfl tr e ctx input part made hfirst hnever k o left
    have spares : e.part.StopsOnly noToken := part ▸ LoopKind.spares composed.spares ctx input
    have unstopped (i : Nat) (hi : e.first ≤ i) :
        (tr.history.world i).isStopped ctx.token = false := by
      refine Bool.eq_false_iff.mpr fun hstopped => ?_
      rcases (Trace.Episode.isStopped_iff spares made hi).mp hstopped with h | ⟨j, hj, -, outside⟩
      · rw [hfirst] at h
        contradiction
      · exact hnever j hj outside
    obtain ⟨es, hunseen, underway⟩ :=
      left.underway (part.trans (kind.task_script l ctx input).symm) unstopped
    exact ⟨es, hunseen, underway.of_done⟩

/-- A race between two delays. -/
def rivals : Race :=
  ⟨[Leaf.sleep (.ofMillis 10), Leaf.sleep (.ofMillis 20)], .merge mergeSamples, none, none⟩

/-- It is run twice. -/
def rematch : Loop :=
  ⟨rivals.runnable, ⟨some 2, none, none, State.minEnergy⟩⟩

theorem composed_rivals : rivals.runnable.Composed .sparing := by
  refine .race (List.forall_mem_cons.mpr ⟨.leaf (.inl (.sleep (.ofMillis 10))), ?_⟩) trivial
  exact List.forall_mem_singleton.mpr (.leaf (.inl (.sleep (.ofMillis 20))))

/-- The loop in a session of its own. -/
def rematchTrace : Trace :=
  .fresh [Context.run ⟨0, .default, 0⟩ rematch.last (.one .empty) none]

/-- The execution of the loop. -/
def rematchEpisode : rematchTrace.Episode where
  task := 0
  first := 2
  part := rematch.last.next ⟨1, .default, 0⟩ (.one .empty)
  rest o := .ask (.record 0 "Loop" (Outcome.isError o)) fun _ => .done o
  begins := by with_unfolding_all rfl

/-- Each of the two races stops its contenders. The loop is not stopped by them, and comes to its end
without having seen a stop. -/
theorem spares_caller_of_rematch :
    let tr := rematchTrace
    let e := rematchEpisode
    (.stop 3 ∈ (tr.machine 22).tokenEvents ∧ ∃ j c, j < 22 ∧ e.Inside j c ∧ c.token = 3) ∧
    ((tr.history.world 64).isStopped 3 = true ∧ (tr.history.world 64).isStopped 1 = false ∧
      ¬ ∃ i, e.first ≤ i ∧ i < 64 ∧ e.StoppedFromOutside i 1) ∧
    ∃ k o, e.Left k (.done o) ∧
      ∃ es, .looked true ∉ es ∧ (LoopKind.last.script rematch (.one .empty)).Goes es (.done o) := by
  intro tr e
  have composed : rematch.last.Composed .sparing := .last composed_rivals
  obtain ⟨hstops, -, hstopped⟩ := composed.spares_caller.1 tr e ⟨1, .default, 0⟩ (.one .empty) rfl
  have hover : (Machine.next^[64] (rematchTrace.machine 0)).Over := by
    constructor <;> with_unfolding_all rfl
  have hunstopped (k : Nat) : (tr.history.world k).isStopped 1 = false :=
    Trace.not_stopped_of_over hover (by with_unfolding_all rfl) k
  have made : (tr.history.world e.first).tokens.Made 1 := by
    constructor <;> decide +kernel
  have acts : e.Acts 22 := by
    refine .inl ⟨⟨by decide, fun k o left => ?_⟩, by with_unfolding_all rfl⟩
    have hrecords : (tr.machine k).records "Loop" = true := by
      rw [Machine.records, left.running]
      rfl
    have hnone : ∀ k ≤ 22, (tr.machine k).records "Loop" = false := by decide +kernel
    refine Nat.lt_of_not_le fun hle => ?_
    rw [hnone k hle] at hrecords
    contradiction
  have hstop : .stop 3 ∈ (tr.machine 22).tokenEvents := by decide +kernel
  refine ⟨⟨hstop, hstops 22 3 acts hstop⟩, ⟨by with_unfolding_all rfl, hunstopped 64, ?_⟩, ?_⟩
  · rintro outside
    have h := (hstopped 1 64 made (by decide)).mpr (.inr outside)
    rw [hunstopped 64] at h
    contradiction
  · obtain ⟨place, d, hended⟩ : ∃ place d, tr.history.ended? 64 e.task = some (place, .ok d) :=
      ⟨_, _, by with_unfolding_all rfl⟩
    obtain ⟨k, o, left⟩ := (Trace.Episode.Left.begins.over_of_ended hended).resolve_right nofun
    refine ⟨k, o, left, ?_⟩
    exact composed_rivals.spares_caller.2 .last rematch rfl tr e ⟨1, .default, 0⟩ (.one .empty) rfl
      made (hunstopped _) (fun i _ outside => absurd ((hunstopped _).symm.trans outside.2.2) nofun)
      k o left

end Orchestra
