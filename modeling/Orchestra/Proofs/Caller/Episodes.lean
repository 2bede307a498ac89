import Orchestra.Proofs.Caller.Sparing
import Orchestra.Proofs.Children.Orphans
import Orchestra.Proofs.World.Family

/-!
# Episodes

An episode is the course of one part of the program of a task, from the moment at which the task comes to
it: the part may be the whole program, or be followed by more. It ends when the part is over, which may
never be. What is left of the part is followed from request to request through a trace, so that the
moments of the episode are told apart from those at which the same task does something else, perhaps
with the same program.

To an episode belong the tasks that are started in it, those that these start, and so on, as long as they
run. A step of the trace is one of the episode if it is a step of its task before the part is over, or a
step of a task that belongs to it.
-/

namespace Orchestra

namespace Machine

/-- What a task runs, or waits to go on with. -/
inductive Program (a : Machine) : TaskId → Task → Prop
  | running {task : TaskId} {t : Task} (running : a.control = .running task t) : Program a task t
  | waiting {s : Suspended} (hs : s ∈ a.world.suspended) : Program a s.id (.ask s.request s.next)

/-- The task whose step is the next one, if it is one of a task. -/
def actor? (a : Machine) : Option TaskId :=
  match a.control with
  | .idle => none
  | .turnOf task => some task
  | .running task _ => some task

/-- Whether the task that runs records a call. -/
def records (name : String) (a : Machine) : Bool :=
  match a.control with
  | .running _ (.ask (.record _ called _) _) => called == name
  | _ => false

variable {a b : Machine} {task : TaskId} {t : Task} {x : TokenId}

/-- What is done from outside is no step of a task. -/
theorem Touch.actor?_eq (touch : Touch a b) : a.actor? = none := by
  cases touch <;> rfl

/-- A task that has a program has not ended, -/
theorem Program.unended (program : a.Program task t) (sound : a.Sound) :
    a.world.ended? task = none := by
  cases program with
  | running running => exact (sound.runs task t running).2.1
  | waiting hs => exact (sound.waits _ hs).2

/-- nor was it cut off. -/
theorem Program.not_lost (program : a.Program task t) : ¬ a.Lost task := by
  intro lost
  cases program with
  | running running => exact lost.unrunning t running
  | waiting hs => exact lost.unwaiting _ hs rfl

/-- A task that waits has no other program. -/
theorem Program.eq_of_waiting {s : Suspended} (program : a.Program s.id t) (sound : a.Sound)
    (hs : s ∈ a.world.suspended) :
    t = .ask s.request s.next ∧ a.control ≠ .running s.id t := by
  have hunrunning (t : Task) : a.control ≠ .running s.id t := fun running =>
    (sound.runs s.id t running).2.2 s hs rfl
  refine ⟨?_, hunrunning t⟩
  generalize hid : s.id = task at program
  cases program with
  | running running => exact absurd (hid ▸ running) (hunrunning t)
  | waiting hs' => rw [sound.eq_of_id hs hs' hid]

/-- A running task has no other program. -/
theorem Program.eq_of_running {t' : Task} (program : a.Program task t) (sound : a.Sound)
    (running : a.control = .running task t') : t = t' := by
  cases program with
  | running running' =>
    cases running'.symm.trans running
    rfl
  | waiting hs => exact absurd rfl ((sound.runs _ t' running).2.2 _ hs)

theorem mem_stops {tokens : List TokenId} : TokenEvent.stop x ∈ Family.stops tokens ↔ x ∈ tokens := by
  simp [Family.stops]

/-- A stop is issued by the task whose step it is, which asks for it. -/
theorem exists_of_stop (h : TokenEvent.stop x ∈ a.tokenEvents) :
    ∃ task r, ∃ next : r.Answer → Task,
      a.actor? = some task ∧ a.Program task (.ask r next) ∧ x ∈ r.stops := by
  obtain ⟨w, control⟩ := a
  cases control with
  | idle => contradiction
  | turnOf task =>
    unfold tokenEvents at h
    dsimp only at h
    split at h
    · next s found =>
      have hid : s.id = task := by simpa using List.find?_some found
      subst hid
      exact ⟨_, _, _, rfl, .waiting (List.mem_of_find?_eq_some found), mem_stops.mp h⟩
    · contradiction
  | running task t =>
    cases t with
    | ask r next => exact ⟨task, r, next, rfl, .running rfl, mem_stops.mp h⟩
    | spawn => simp [tokenEvents] at h
    | done | panic | endless => contradiction

end Machine

/-! ### Whom a step stops -/

theorem Tokens.isStopped_of_size_le {t : Tokens} {id : TokenId} (h : t.size ≤ id) :
    t.isStopped id = false := by
  have hnone := (t.get?_eq_none_iff id).mpr h
  simp [Tokens.isStopped, Tokens.lineage, Tokens.stopIssued, hnone]

/-- A stop reaches those who are below it. -/
theorem World.isStopped_of_stop {w : World} {tokens : List TokenId} {x : TokenId}
    (h : (w.stop tokens).isStopped x = true) :
    w.isStopped x = true ∨ ∃ y ∈ tokens, y ∈ w.tokens.lineage x := by
  induction tokens generalizing w with
  | nil => exact .inl h
  | cons first rest ih =>
    have htokens : (w.stopOne first).tokens = w.tokens.issueStop first := (same_stopOne w first).tokens
    have hlineage : (w.stopOne first).tokens.lineage x = w.tokens.lineage x := by
      rw [htokens]
      exact Tokens.lineage_modify w.tokens first (fun _ => by rfl) x
    rcases ih h with hfirst | ⟨y, hy, hmem⟩
    · rw [isStopped, Tokens.isStopped, hlineage, List.any_eq_true] at hfirst
      obtain ⟨y, hmem, hissued⟩ := hfirst
      by_cases heq : y = first
      · exact .inr ⟨y, heq ▸ List.mem_cons_self, hmem⟩
      · refine .inl (List.any_eq_true.mpr ⟨y, hmem, ?_⟩)
        rw [htokens, Tokens.stopIssued, Tokens.issueStop, Table.get?_modify,
          if_neg (Ne.symm heq)] at hissued
        exact hissued
    · exact .inr ⟨y, List.mem_cons_of_mem _ hy, hlineage ▸ hmem⟩

/-- An answer stops only those below a token that is asked to be stopped. -/
theorem World.isStopped_of_answer? {w w' : World} {task : TaskId} {deadline : Option Nat} {r : Request}
    {a : r.Answer} {x : TokenId} (there : w.answer? task deadline r = some (a, w'))
    (h : w'.isStopped x = true) :
    w.isStopped x = true ∨ ∃ y ∈ r.stops, y ∈ w.tokens.lineage x := by
  rcases tokens_answer? there with ⟨-, htokens⟩ | rfl
  · rw [isStopped, htokens] at h
    exact .inl h
  · exact isStopped_of_stop h

/-- Whoever is newly stopped after a step is below a token on which the step has issued a stop, or was
made by the step. -/
theorem Machine.Step.isStopped {a b : Machine} {x : TokenId} (step : Step a b)
    (h : b.world.isStopped x = true) : a.world.isStopped x = true ∨
      (∃ y, .stop y ∈ a.tokenEvents ∧ y ∈ a.world.tokens.lineage x) ∨
      x = a.world.tokens.size ∧ ∃ task name parent body next,
        a.control = .running task (.spawn name parent body next) := by
  have hsame (htokens : b.world.tokens = a.world.tokens) : a.world.isStopped x = true := by
    rwa [World.isStopped, htokens] at h
  cases step with
  | answer there =>
    rcases World.isStopped_of_answer? there h with h | ⟨y, hy, hmem⟩
    · exact .inl h
    · exact .inr (.inl ⟨y, Machine.mem_stops.mpr hy, hmem⟩)
  | suspend =>
    obtain ⟨limits, hsuspended⟩ := World.suspend_eq _ _ _ _
    exact .inl (hsame hsuspended.tokens)
  | @spawn w task name parent body next =>
    have htokens := World.tokens_spawn w name parent body
    rw [World.isStopped, htokens] at h
    rcases Nat.lt_trichotomy x w.tokens.size with hlt | heq | hgt
    · exact .inl ((Tokens.isStopped_addBelow w.tokens parent hlt).symm.trans h)
    · exact .inr (.inr ⟨heq, task, name, parent, body, next, rfl⟩)
    · rw [Tokens.isStopped_of_size_le (le_of_eq_of_le (Tokens.size_addBelow w.tokens parent) hgt)] at h
      contradiction
  | done | panic => exact .inl ((World.isStopped_finish _ _ _ _).symm.trans h)
  | endless | turn | drive | stay => exact .inl h
  | resume found there =>
    rcases World.isStopped_of_answer? there h with h | ⟨y, hy, hmem⟩
    · exact .inl h
    · refine .inr (.inl ⟨y, ?_, hmem⟩)
      simp only [tokenEvents, found]
      exact Machine.mem_stops.mpr hy
  | @clock w instant =>
    exact .inl (hsame (World.same_wakeAll { w with now := instant } _).tokens)

namespace Machine

variable {a b : Machine} {task : TaskId} {t : Task}

/-- A task that neither asks nor starts anybody stops running. -/
theorem Step.idle (step : Step a b) (running : a.control = .running task t)
    (asks : ∀ r next, t ≠ .ask r next) (spawns : ∀ name parent body next,
      t ≠ .spawn name parent body next) : b.control = .idle := by
  cases step with
  | answer | suspend =>
    cases running
    exact absurd rfl (asks _ _)
  | spawn =>
    cases running
    exact absurd rfl (spawns _ _ _ _)
  | done | panic | endless | turn | drive | resume | stay | clock => first | rfl | contradiction

/-- A task that starts a child goes on. -/
theorem Step.of_spawn {name : String} {parent : TokenId} {body : TokenId → Task}
    {next : Child → Task} (step : Step a b)
    (running : a.control = .running task (.spawn name parent body next)) :
    b.world = (a.world.spawn name parent body).2 ∧
      b.control = .running task (next (a.world.spawn name parent body).1) := by
  cases step with
  | spawn =>
    cases running
    exact ⟨rfl, rfl⟩
  | _ => cases running

end Machine

namespace Trace

variable {tr : Trace}

/-- A task that is over has no program any more, unless the world stands still. -/
theorem stands_of_over {m i : Nat} {task : TaskId} {t t' : Task}
    (running : (tr.machine m).control = .running task t) (asks : ∀ r next, t ≠ .ask r next)
    (spawns : ∀ name parent body next, t ≠ .spawn name parent body next) (hlt : m < i)
    (program : (tr.machine i).Program task t') : ∀ k, m ≤ k → tr.machine k = tr.machine m := by
  refine (tr.move m).resolve_left fun move => ?_
  have hidle := (move.step running).idle running asks spawns
  have hmoved : tr.machine (m + 1) ≠ tr.machine m := fun heq => by
    rw [heq, running] at hidle
    contradiction
  have hunended (place : Nat) (o : Outcome)
      (hended : tr.history.ended? (m + 1) task = some (place, o)) : False := by
    have hended := (tr.history.later_of_le (Nat.succ_le_of_lt hlt)).ended _ _ hended
    exact absurd ((program.unended (tr.sound_at i)).symm.trans hended) nofun
  cases t with
  | done o =>
    obtain ⟨place, hended⟩ := of_done running (Nat.le_succ m) hmoved
    exact hunended place _ hended
  | panic payload =>
    obtain ⟨place, name, hended⟩ := of_panic running (Nat.le_succ m) hmoved
    exact hunended place _ hended
  | endless =>
    have lost := lost_of_endless running (Nat.le_succ m) hmoved
    exact program.not_lost (lost_of_le lost (Nat.succ_le_of_lt hlt))
  | ask r next => exact asks r next rfl
  | spawn name parent body next => exact spawns name parent body next rfl

/-- What is known of a child when it has been started. -/
theorem Starts.begun {m : Nat} {task : TaskId} {c : Child} (starts : tr.Starts m task c) :
    ∃ name parent body next, (tr.machine m).control = .running task (.spawn name parent body next) ∧
      c = ⟨(tr.history.world m).tasks.size, (tr.history.world m).tokens.size, name⟩ ∧
      (tr.history.world m).begun (body (tr.history.world m).tokens.size) ∈
        (tr.machine (m + 1)).world.suspended := by
  obtain ⟨name, parent, body, next, running, hspawn⟩ := starts
  refine ⟨name, parent, body, next, running, (congrArg Prod.fst hspawn).symm, ?_⟩
  rw [← show ((tr.machine m).world.spawn name parent body).2 = (tr.machine (m + 1)).world from
    congrArg Prod.snd hspawn, (World.spawn_keeps _ _ _ _).2.2]
  exact List.mem_append_right _ List.mem_cons_self

/-- Whoever is started below a task from a moment on is so from an earlier moment on. -/
theorem Below.earlier {first first' i : Nat} {root : TaskId} {c : Child}
    (below : tr.Below first root i c) (h : first' ≤ first) : tr.Below first' root i c := by
  induction below with
  | child le starts => exact .child (Nat.le_trans h le) starts
  | deeper _ lt starts ih => exact .deeper ih lt starts

/-- A part of its program that a task comes to at some moment, and what follows it. -/
structure Episode (tr : Trace) where
  task : TaskId
  first : Nat
  part : Task
  rest : Outcome → Task
  begins : (tr.machine first).control = .running task (part.andThen rest)

namespace Episode

/-- What is left of the part at a moment at which the task goes on with it. -/
inductive Left (e : tr.Episode) : Nat → Task → Prop
  | begins : Left e e.first e.part
  | answer {m k : Nat} {r : Request} {next : r.Answer → Task} {a : r.Answer}
    (left : Left e m (.ask r next)) (answers : tr.history.Answers e.task m r k a)
    (waits : ∀ i, m < i → i ≤ k → (tr.history.world m).waiting e.task r
      (fun a => (next a).andThen e.rest) ∈ (tr.machine i).world.suspended)
    (running : (tr.machine (k + 1)).control = .running e.task ((next a).andThen e.rest)) :
    Left e (k + 1) (next a)
  | spawn {m : Nat} {name : String} {parent : TokenId} {body : TokenId → Task} {next : Child → Task}
    {c : Child} (left : Left e m (.spawn name parent body next)) (starts : tr.Starts m e.task c)
    (running : (tr.machine (m + 1)).control = .running e.task ((next c).andThen e.rest)) :
    Left e (m + 1) (next c)

/-- The part is not over yet. -/
def On (e : tr.Episode) (i : Nat) : Prop :=
  e.first ≤ i ∧ ∀ k o, e.Left k (.done o) → i < k

/-- The children that belong to the episode, each with the moment of its start: the part itself starts
them, or other children that belong to it. -/
inductive Inside (e : tr.Episode) : Nat → Child → Prop
  | child {i : Nat} {name : String} {parent : TokenId} {body : TokenId → Task} {next : Child → Task}
    {c : Child} (left : e.Left i (.spawn name parent body next)) (starts : tr.Starts i e.task c) :
    Inside e i c
  | deeper {i j : Nat} {p c : Child} (inside : Inside e i p) (lt : i < j)
    (starts : tr.Starts j p.id c) : Inside e j c

/-- The step from a moment to the next is one of the episode. -/
def Acts (e : tr.Episode) (i : Nat) : Prop :=
  (e.On i ∧ (tr.machine i).actor? = some e.task) ∨
    ∃ j c, e.Inside j c ∧ j < i ∧ (tr.machine i).actor? = some c.id

variable {e : tr.Episode} {m i j k : Nat} {s t : Task} {c : Child}

theorem Left.running (left : e.Left m s) :
    (tr.machine m).control = .running e.task (s.andThen e.rest) := by
  cases left with
  | begins => exact e.begins
  | answer _ _ _ running | spawn _ _ running => exact running

theorem Left.le (left : e.Left m s) : e.first ≤ m := by
  induction left with
  | begins => exact Nat.le_refl _
  | answer _ answers _ _ ih => exact Nat.le_trans ih (Nat.le_succ_of_le answers.le)
  | spawn _ _ _ ih => exact Nat.le_succ_of_le ih

/-- A running task does not wait. -/
theorem Left.not_waits (left : e.Left m s) {x : Suspended} (hx : x ∈ (tr.machine m).world.suspended)
    (hid : x.id = e.task) : False :=
  ((tr.sound_at m).runs _ _ left.running).2.2 x hx hid

/-- At each moment one thing is left of the part at most. -/
theorem Left.unique (left : e.Left m s) (left' : e.Left m s') : s = s' := by
  induction left generalizing s' with
  | begins =>
    generalize hm : e.first = m at left'
    cases left' with
    | begins => rfl
    | answer left' answers =>
      have hle := Nat.le_trans left'.le answers.le
      omega
    | spawn left' =>
      have hle := left'.le
      omega
  | @answer m k r next a left answers waits _ ih =>
    generalize hk : k + 1 = n at left'
    cases left' with
    | begins =>
      have hle := Nat.le_trans left.le answers.le
      omega
    | @answer m' k' r' next' a' left' answers' waits' =>
      obtain rfl : k = k' := Nat.succ.inj hk
      have hm : m = m' := by
        rcases Nat.lt_trichotomy m m' with hlt | heq | hlt
        · exact (left'.not_waits (waits m' hlt answers'.le) rfl).elim
        · exact heq
        · exact (left.not_waits (waits' m hlt answers.le) rfl).elim
      subst hm
      cases ih left'
      obtain ⟨w, there, -⟩ := answers.answer
      obtain ⟨w', there', -⟩ := answers'.answer
      cases there.symm.trans there'
      rfl
    | spawn left' =>
      obtain rfl := Nat.succ.inj hk
      rcases Nat.eq_or_lt_of_le answers.le with rfl | hlt
      · cases ih left'
      · exact (left'.not_waits (waits _ hlt (Nat.le_refl _)) rfl).elim
  | @spawn m name parent body next c left starts _ ih =>
    generalize hm : m + 1 = n at left'
    cases left' with
    | begins =>
      have hle := left.le
      omega
    | @answer m' k' r' next' a' left' answers' waits' =>
      obtain rfl := Nat.succ.inj hm
      rcases Nat.eq_or_lt_of_le answers'.le with rfl | hlt
      · cases ih left'
      · exact (left.not_waits (waits' _ hlt (Nat.le_refl _)) rfl).elim
    | @spawn m' name' parent' body' next' c' left' starts' =>
      obtain rfl := Nat.succ.inj hm
      cases ih left'
      obtain ⟨_, _, _, _, running₁, rfl, -⟩ := starts.begun
      obtain ⟨_, _, _, _, running₂, rfl, -⟩ := starts'.begun
      cases running₁.symm.trans running₂
      rfl

/-- When the part is over, nothing is left of it later. -/
theorem Left.le_of_done {o : Outcome} (left : e.Left k s) (done : e.Left j (.done o)) : k ≤ j := by
  induction left with
  | begins => exact done.le
  | @answer m k r next a left answers waits _ ih =>
    refine Nat.lt_of_not_le fun hle => ?_
    rcases Nat.eq_or_lt_of_le ih with rfl | hlt
    · cases left.unique done
    · exact done.not_waits (waits j hlt hle) rfl
  | @spawn m name parent body next c left starts _ ih =>
    refine Nat.lt_of_le_of_ne ih fun heq => ?_
    subst heq
    cases left.unique done

/-- A part that panics is not over. -/
theorem Left.on_of_panic {p : Payload} (left : e.Left k (.panic p)) : e.On k := by
  refine ⟨left.le, fun j o done => Nat.lt_of_le_of_ne (left.le_of_done done) fun heq => ?_⟩
  subst heq
  cases left.unique done

theorem Inside.le (inside : e.Inside j c) : e.first ≤ j := by
  induction inside with
  | child left => exact left.le
  | deeper _ lt _ ih => exact Nat.le_trans ih (Nat.le_of_lt lt)

/-- The program of the task is what is left of the part and what follows it, until the part is over. -/
theorem program_of_left (left : e.Left m s) (hmi : m ≤ i)
    (program : (tr.machine i).Program e.task t) : (∃ k o, k ≤ i ∧ e.Left k (.done o)) ∨
      ∃ k s, k ≤ i ∧ e.Left k s ∧ t = s.andThen e.rest ∧ (∀ o, s ≠ .done o) ∧
        ((tr.machine i).control = .running e.task t →
          tr.machine (i + 1) ≠ tr.machine i → e.Left i s) := by
  have sound := tr.sound_at i
  -- nothing is taken off what is left while the world stands still
  have hstill {m : Nat} {s : Task} (left : e.Left m s) (hmi : m ≤ i) (hs : ∀ o, s ≠ .done o)
      (still : m < i → ∀ k, m ≤ k → tr.machine k = tr.machine m) :
      ∃ k s, k ≤ i ∧ e.Left k s ∧ t = s.andThen e.rest ∧ (∀ o, s ≠ .done o) ∧
        ((tr.machine i).control = .running e.task t →
          tr.machine (i + 1) ≠ tr.machine i → e.Left i s) := by
    rcases Nat.eq_or_lt_of_le hmi with rfl | hlt
    · exact ⟨m, s, hmi, left, program.eq_of_running sound left.running, hs, fun _ _ => left⟩
    · have running : (tr.machine i).control = .running e.task (s.andThen e.rest) :=
        (still hlt i hmi) ▸ left.running
      refine ⟨m, s, hmi, left, program.eq_of_running sound running, hs, fun _ hmoved => ?_⟩
      exact absurd ((still hlt _ (Nat.le_succ_of_le hmi)).trans (still hlt i hmi).symm) hmoved
  induction s generalizing m with
  | done o => exact .inl ⟨m, o, hmi, left⟩
  | panic | endless =>
    exact .inr (hstill left hmi nofun fun hlt => stands_of_over left.running nofun nofun hlt program)
  | ask r next ih =>
    by_cases hlt : m < i
    swap
    · exact .inr (hstill left hmi nofun fun h => absurd h hlt)
    rcases tr.move m with move | still
    swap
    · exact .inr (hstill left hmi nofun fun _ => still)
    by_cases hwaits : (tr.history.world m).waiting e.task r (fun a => (next a).andThen e.rest) ∈
        (tr.machine i).world.suspended
    · obtain ⟨rfl, hunrunning⟩ := Machine.Program.eq_of_waiting program sound hwaits
      exact .inr ⟨m, _, hmi, left, rfl, nofun, fun running => absurd running hunrunning⟩
    · obtain ⟨k, a, hki, answers, running, hwaiting⟩ :=
        of_ask_of_step left.running (move.step left.running) hlt hwaits
      exact ih a (left.answer answers hwaiting running) hki
  | spawn name parent body next _ ih =>
    by_cases hlt : m < i
    swap
    · exact .inr (hstill left hmi nofun fun h => absurd h hlt)
    rcases tr.move m with move | still
    swap
    · exact .inr (hstill left hmi nofun fun _ => still)
    obtain ⟨hworld, running⟩ := (move.step left.running).of_spawn left.running
    exact ih _ (left.spawn ⟨_, _, _, _, left.running, Prod.ext rfl hworld.symm⟩ running) hlt

/-! ### Whom an episode stops -/

/-- A token of a child that belongs to the episode and has been started. -/
def Owns (e : tr.Episode) (i : Nat) (x : TokenId) : Prop :=
  ∃ j c, j < i ∧ e.Inside j c ∧ c.token = x

theorem Owns.later {x : TokenId} (owns : e.Owns m x) (hmi : m ≤ i) : e.Owns i x := by
  obtain ⟨j, c, hj, inside, htoken⟩ := owns
  exact ⟨j, c, Nat.lt_of_lt_of_le hj hmi, inside, htoken⟩

/-- What is left of a part that spares its caller stops only such tokens. -/
theorem Left.stopsOnly (left : e.Left m s) (spares : e.part.StopsOnly noToken) :
    s.StopsOnly (e.Owns m) := by
  induction left with
  | begins => exact spares.of_none
  | answer _ answers _ _ ih =>
    exact (ih.2 _).mono fun x owns => owns.later (Nat.le_succ_of_le answers.le)
  | @spawn m name parent body next c left starts _ ih =>
    obtain ⟨name', parent', body', next', running, hc, -⟩ := starts.begun
    cases left.running.symm.trans running
    subst hc
    refine (ih.2 _ _).mono fun x hx => ?_
    rcases hx with owns | rfl
    · exact owns.later (Nat.le_succ m)
    · exact ⟨m, _, Nat.lt_succ_self m, .child left starts, rfl⟩

/-- Whoever belongs to an episode has been started by its task or below. -/
theorem below_of_inside (inside : e.Inside j c) : tr.Below e.first e.task j c := by
  induction inside with
  | child left starts => exact .child left.le starts
  | deeper _ lt starts ih => exact .deeper ih lt starts

/-- Whoever is started by one that belongs to an episode, or below, belongs to it too. -/
theorem Inside.of_below {p : Child} (inside : e.Inside i p) (below : tr.Below (i + 1) p.id j c) :
    e.Inside j c := by
  induction below with
  | child le starts => exact .deeper inside le starts
  | deeper _ lt starts ih => exact .deeper ih lt starts

/-- If its task has ended, the part is over, unless the task has panicked. -/
theorem Left.over_of_ended {place : Nat} {o : Outcome} (left : e.Left m s)
    (hended : tr.history.ended? i e.task = some (place, o)) :
    (∃ k o', e.Left k (.done o')) ∨ ∃ name message, o = .error (.panicked name message) := by
  have hsome : (tr.history.ended? i e.task).isSome := by
    rw [hended]
    rfl
  induction s generalizing m with
  | done o' => exact .inl ⟨m, o', left⟩
  | panic payload =>
    obtain ⟨hmi, hmoved⟩ := moved_of_ended left.running hsome
    obtain ⟨place', name, hended'⟩ := of_panic left.running hmi hmoved
    cases hended.symm.trans hended'
    exact .inr ⟨name, payload, rfl⟩
  | endless =>
    rw [of_endless left.running] at hended
    contradiction
  | ask r next ih =>
    obtain ⟨k, a, answers, running, hwaits⟩ := of_ask_of_ended left.running hsome
    exact ih a (left.answer answers hwaits running)
  | spawn name parent body next _ ih =>
    obtain ⟨hmi, hmoved⟩ := moved_of_ended left.running hsome
    obtain ⟨-, hworld, running, -⟩ := of_spawn left.running hmi hmoved
    exact ih _ (left.spawn ⟨_, _, _, _, left.running, Prod.ext rfl hworld.symm⟩ running)

end Episode

/-- A task that begins with a program that spares its caller stops only children that have been
started by it or below. -/
theorem stopsOnly_of_begun {m i : Nat} {w : World} {program t : Task}
    (begun : w.begun program ∈ (tr.machine m).world.suspended)
    (spares : program.StopsOnly noToken) (hmi : m ≤ i)
    (later : (tr.machine i).Program w.tasks.size t) :
    t.StopsOnly fun x => ∃ j c, j < i ∧ tr.Below m w.tasks.size j c ∧ c.token = x := by
  by_cases hwaits : w.begun program ∈ (tr.machine i).world.suspended
  · obtain ⟨rfl, -⟩ := Machine.Program.eq_of_waiting later (tr.sound_at i) hwaits
    exact ⟨nofun, fun _ => spares.of_none⟩
  obtain ⟨k, answer, w', hmk, hki, running, -⟩ := resumes begun hmi hwaits
  let e : tr.Episode := ⟨w.tasks.size, k + 1, program, .done, (Task.andThen_done program).symm ▸ running⟩
  rcases e.program_of_left .begins hki later with ⟨l, o, hli, left⟩ | ⟨l, s, hli, left, rfl, -⟩
  · rcases Nat.eq_or_lt_of_le hli with rfl | hlt
    · rw [later.eq_of_running (tr.sound_at l) left.running]
      trivial
    · have hstands := stands_of_over left.running nofun nofun hlt later i hli
      rw [later.eq_of_running (tr.sound_at i) (hstands ▸ left.running)]
      trivial
  · rw [Task.andThen_done]
    refine (left.stopsOnly spares).mono ?_
    rintro x ⟨j, c, hj, inside, htoken⟩
    refine ⟨j, c, Nat.lt_of_lt_of_le hj hli, ?_, htoken⟩
    exact (Episode.below_of_inside inside).earlier (Nat.le_succ_of_le hmk)

namespace Episode

variable {e : tr.Episode} {i j : Nat} {c : Child} {x : TokenId}

/-- A child that belongs to the episode begins with a program that spares its caller. -/
theorem Inside.begun (inside : e.Inside j c) (spares : e.part.StopsOnly noToken) :
    ∃ (w : World) (program : Task), w.tasks.size = c.id ∧ program.StopsOnly noToken ∧
      w.begun program ∈ (tr.machine (j + 1)).world.suspended := by
  induction inside with
  | child left starts =>
    obtain ⟨name, parent, body, next, running, rfl, begun⟩ := starts.begun
    cases left.running.symm.trans running
    exact ⟨_, _, rfl, (left.stopsOnly spares).1 _, begun⟩
  | deeper _ lt starts ih =>
    obtain ⟨w, program, hid, hprogram, begun⟩ := ih
    obtain ⟨name, parent, body, next, running, rfl, begun'⟩ := starts.begun
    rw [← hid] at running
    have hspawn := stopsOnly_of_begun begun hprogram lt (.running running)
    exact ⟨_, _, rfl, hspawn.1 _, begun'⟩

/-- A step of the episode issues stops only on tokens of children that belong to it. -/
theorem Acts.owns_of_stop (acts : e.Acts i) (spares : e.part.StopsOnly noToken)
    (hstop : .stop x ∈ (tr.machine i).tokenEvents) : e.Owns i x := by
  obtain ⟨task, r, next, hactor, program, hx⟩ := Machine.exists_of_stop hstop
  rcases acts with ⟨on, hactor'⟩ | ⟨j, c, inside, hj, hactor'⟩
  · cases hactor.symm.trans hactor'
    rcases e.program_of_left .begins on.1 program with ⟨k, o, hki, left⟩ | ⟨k, s, hki, left, hs, hdone, -⟩
    · exact absurd (on.2 k o left) (Nat.not_lt_of_le hki)
    · have hstops := left.stopsOnly spares
      cases s with
      | ask r' next' =>
        cases hs
        exact (hstops.1 x hx).later hki
      | done o => exact absurd rfl (hdone o)
      | panic | endless | spawn => cases hs
  · cases hactor.symm.trans hactor'
    obtain ⟨w, program', hid, hprogram, begun⟩ := inside.begun spares
    rw [← hid] at program
    obtain ⟨k, c', hk, below, htoken⟩ := (stopsOnly_of_begun begun hprogram hj program).1 x hx
    exact ⟨k, c', hk, inside.of_below (hid ▸ below), htoken⟩

end Episode

end Trace

end Orchestra
