import Orchestra.Proofs.FanOut.Collecting
import Orchestra.Proofs.World.Trace

/-!
# What tasks ensure

A task ensures a condition on its outcome if the outcome satisfies it whatever the answers to its
requests are. Of the answers nothing is assumed but that a completion is that of a pending child, and
each child ensures a condition of its own, and that the clock is not beyond a given time. Since nothing
is assumed of stops, a condition that is ensured holds whenever and however often tokens are stopped. Up
to that time a task of a running world ends with an outcome that satisfies what its program ensures, and
none of its waits outlasts a stop of its own token, except for a given time.

To ensure a condition is to meet it under a particular rely. In general a rely says what a task may ask
for and what is granted of the answers, such as that only certain states are offered to a tracker, and
none but such are handed out.
-/

namespace Orchestra

/-- The conditions that the outcomes of tasks are known to satisfy. -/
abbrev Known := TaskId → (Outcome → Prop) → Prop

/-- Nothing is known. -/
def Known.nothing : Known :=
  fun _ _ => False

/-- One more condition is known. -/
def Known.add (known : Known) (task : TaskId) (post : Outcome → Prop) : Known :=
  fun task' post' => known task' post' ∨ task' = task ∧ post' = post

/-- What is known of an answer: a completion is that of a pending child. -/
def Request.Justifies (known : Known) : (r : Request) → r.Answer → Prop
  | .nextChild pending _, some c =>
    ∃ p ∈ pending, p.index = c.index ∧ ∀ post, known p.id post → post c.outcome
  | _, _ => True

/-- An answer that is justified where more is known is justified. -/
theorem Request.Justifies.forget {known known' : Known} {r : Request} {a : r.Answer}
    (h : r.Justifies known' a) (hknown : ∀ i p, known i p → known' i p) : r.Justifies known a := by
  cases r with
  | nextChild pending patience =>
    cases a with
    | none => trivial
    | some c =>
      obtain ⟨p, hp, hindex, hposts⟩ := h
      exact ⟨p, hp, hindex, fun post hpost => hposts post (hknown _ _ hpost)⟩
  | _ => trivial

/-- A request that is answered once a token is stopped, or at its time. -/
def Request.Heeds (token : TokenId) : Request → Prop
  | .nextChild _ (.untilStopped t) => t = token
  | .nextChild _ .forever => False
  | .acquire _ t => t = token
  | _ => True

/-- A request that offers a state to a tracker. -/
def Request.isOffer : Request → Bool
  | .offer .. => true
  | _ => false

/-- What tasks may ask for under their tokens, and what is granted of the answers, apart from what is
known of children. Whatever heeds the token may be asked for, unless it is an offer. -/
structure Rely where
  allowed : TokenId → Request → Prop
  granted : (r : Request) → r.Answer → Prop
  heeded : ∀ token r, r.Heeds token → r.isOffer = false → allowed token r

/-- Everything may be asked for that heeds the token, and the clock is not beyond a time. -/
def Rely.until (latest : Nat) : Rely where
  allowed token r := r.Heeds token
  granted
    | .now, now => now ≤ latest
    | _, _ => True
  heeded _ _ heeds _ := heeds

/-- A time span that begins at an instant that is granted is over at some instant, or the panic that it
leads to is expected. -/
def Rely.Affords (rely : Rely) (expected : RunError → Prop) (span : Duration) : Prop :=
  ∀ now, rely.granted .now now →
    now + span.nanos < Instant.limit ∨ ∀ name, expected (.panicked name Instant.overflow)

namespace Task

/-- Under a rely a task meets a condition on its outcome, given what is known of other tasks. -/
def Meets (rely : Rely) : Task → TokenId → (Outcome → Prop) → Known → Prop
  | done o, _, post, _ => post o
  | panic payload, _, post, _ => ∀ name, post (.error (.panicked name payload))
  | endless, _, _, _ => True
  | ask r next, token, post, known =>
    rely.allowed token r ∧
      ∀ a, rely.granted r a ∧ r.Justifies known a → (next a).Meets rely token post known
  | spawn name _ body next, token, post, known =>
    ∃ post', (∀ token', (body token').Meets rely token' post' known) ∧
      ∀ id token', (next ⟨id, token', name⟩).Meets rely token post (known.add id post')

variable {rely : Rely} {t : Task} {token : TokenId} {post post' : Outcome → Prop}
variable {known known' : Known}

/-- A request that heeds the token may be made under every rely, unless it is an offer. -/
theorem meets_ask {r : Request} {next : r.Answer → Task} (heeds : r.Heeds token)
    (hr : r.isOffer = false)
    (h : ∀ a, r.Justifies known a → (next a).Meets rely token post known) :
    (ask r next).Meets rely token post known :=
  ⟨rely.heeded token r heeds hr, fun a ha => h a ha.2⟩

/-- A condition that is met is met when more is known, -/
theorem Meets.learn (h : t.Meets rely token post known) (hknown : ∀ i p, known i p → known' i p) :
    t.Meets rely token post known' := by
  induction t generalizing token post known known' with
  | done | panic | endless => exact h
  | ask r next ih =>
    exact ⟨h.1, fun a ha => ih a (h.2 a (ha.imp_right fun justified => justified.forget hknown))
      hknown⟩
  | spawn name parent body next ihbody ihnext =>
    obtain ⟨post', hbody, hnext⟩ := h
    exact ⟨post', fun token' => ihbody token' (hbody token') hknown, fun id token' =>
      ihnext _ (hnext id token') fun i p => Or.imp_left (hknown i p)⟩

/-- and when less is asked for. -/
theorem Meets.weaken (h : t.Meets rely token post known) (hpost : ∀ o, post o → post' o) :
    t.Meets rely token post' known := by
  induction t generalizing known with
  | done o => exact hpost o h
  | panic payload => exact fun name => hpost _ (h name)
  | endless => trivial
  | ask r next ih => exact ⟨h.1, fun a ha => ih a (h.2 a ha)⟩
  | spawn name parent body next _ ih =>
    obtain ⟨post', hbody, hnext⟩ := h
    exact ⟨post', hbody, fun id token' => ih _ (hnext id token')⟩

/-- What is met without any knowledge is met with every. -/
theorem Meets.always (h : t.Meets rely token post .nothing) : t.Meets rely token post known :=
  h.learn nofun

/-- A task may go on with every outcome that its first part may have. -/
theorem Meets.andThen {f : Outcome → Task} (h : t.Meets rely token post known)
    (hpanic : ∀ name message, post (.error (.panicked name message)) →
      post' (.error (.panicked name message)))
    (hf : ∀ o, post o → (f o).Meets rely token post' .nothing) :
    (t.andThen f).Meets rely token post' known := by
  induction t generalizing known with
  | done o => exact (hf o h).always
  | panic payload => exact fun name => hpanic name payload (h name)
  | endless => trivial
  | ask r next ih => exact ⟨h.1, fun a ha => ih a (h.2 a ha)⟩
  | spawn name parent body next _ ih =>
    obtain ⟨post', hbody, hnext⟩ := h
    exact ⟨post', hbody, fun id token' => ih _ (hnext id token')⟩

end Task

/-- Whoever has no patience left has an answer. -/
theorem World.isSome_answer?_nextChild {w : World} {task : TaskId} {deadline : Option Nat}
    {pending : List Pending} {patience : Patience} (hover : w.patienceOver patience = true) :
    (w.answer? task deadline (.nextChild pending patience)).isSome := by
  simp only [World.answer?]
  split
  · rfl
  · simp [hover]

/-! ### In a history -/

namespace History

variable {h : History} {task : TaskId} {token : TokenId}

/-- A request that heeds a token has an answer at last, if the token is stopped and time goes on. -/
theorem answered_of_heeds {r : Request} (heeds : r.Heeds token)
    (hstop : ∃ k, (h.world k).isStopped token) (htime : ∀ instant, ∃ k, instant ≤ h.clock k)
    (m k : Nat) :
    ∃ j, k ≤ j ∧ ((h.world j).answer? task ((h.world m).deadline? r) r).isSome := by
  obtain ⟨final, hstopped⟩ := hstop
  cases r with
  | sleep span t =>
    obtain ⟨j, hj⟩ := htime (h.clock m + span.nanos)
    refine ⟨max k j, Nat.le_max_left k j, ?_⟩
    have hdue : (h.world (max k j)).isDue ((h.world m).deadline? (.sleep span t)) = true :=
      decide_eq_true (Nat.le_trans hj (h.clock_mono (Nat.le_max_right k j)))
    simp only [World.answer?, hdue, if_true]
    rfl
  | nextChild pending patience =>
    cases patience with
    | none => exact ⟨k, Nat.le_refl k, World.isSome_answer?_nextChild rfl⟩
    | untilStopped t =>
      obtain rfl : t = token := heeds
      exact ⟨max k final, Nat.le_max_left k final, World.isSome_answer?_nextChild
        ((h.later_of_le (Nat.le_max_right k final)).stopped t hstopped)⟩
    | untilDue instant =>
      obtain ⟨j, hj⟩ := htime instant
      exact ⟨max k j, Nat.le_max_left k j, World.isSome_answer?_nextChild
        (decide_eq_true (Nat.le_trans hj (h.clock_mono (Nat.le_max_right k j))))⟩
    | forever => exact heeds.elim
  | acquire limit t =>
    obtain rfl : t = token := heeds
    refine ⟨max k final, Nat.le_max_left k final, ?_⟩
    have hlater := (h.later_of_le (Nat.le_max_right k final)).stopped t hstopped
    simp only [World.answer?, hlater, if_true]
    rfl
  | _ => exact ⟨k, Nat.le_refl k, rfl⟩

end History

/-- Everything known holds of the outcomes in a history up to a time. -/
def Known.Holds (known : Known) (h : History) (latest : Nat) : Prop :=
  ∀ task post, known task post → ∀ k place o, h.clock k ≤ latest →
    h.ended? k task = some (place, o) → post o

theorem Known.holds_nothing (h : History) (latest : Nat) : nothing.Holds h latest := nofun

/-- An answer in a history is as assumed, and the clock as granted. -/
theorem History.Answers.justifies {h : History} {task : TaskId} {m k latest : Nat} {r : Request}
    {a : r.Answer} {known : Known} (answers : h.Answers task m r k a)
    (holds : known.Holds h latest) (hk : h.clock k ≤ latest) :
    (Rely.until latest).granted r a ∧ r.Justifies known a := by
  cases r with
  | nextChild pending patience =>
    refine ⟨trivial, ?_⟩
    cases a with
    | none => trivial
    | some c =>
      obtain ⟨p, hp, hindex, place, hended⟩ :=
        World.exists_of_firstCompletion? answers.nextChild_some
      exact ⟨p, hp, hindex, fun post hpost => holds p.id post hpost k place c.outcome hk hended⟩
  | now =>
    obtain ⟨w, there, -⟩ := answers.answer
    cases there
    exact ⟨hk, trivial⟩
  | _ => exact ⟨trivial, trivial⟩

namespace Trace

variable {tr : Trace} {task : TaskId} {t : Task} {token : TokenId} {post : Outcome → Prop}
variable {known : Known} {latest : Nat}

/-- What is known of other tasks holds as well with a condition on a child that runs its program. -/
theorem holds_add {m : Nat} {w : World} (holds : known.Holds tr.history latest)
    (hbegun : w.begun t ∈ (tr.machine m).world.suspended)
    (hchild : ∀ j k place o, (tr.machine j).control = .running w.tasks.size t →
      tr.history.clock k ≤ latest → tr.history.ended? k w.tasks.size = some (place, o) → post o) :
    (known.add w.tasks.size post).Holds tr.history latest := by
  rintro id p (hknown | ⟨rfl, rfl⟩) k place o hk hended
  · exact holds id p hknown k place o hk hended
  · obtain ⟨j, -, -, running⟩ := begins hbegun (Option.isSome_iff_exists.mpr ⟨_, hended⟩)
    exact hchild _ k place o running hk hended

/-- Up to a time, a task of a running world ends with an outcome that satisfies what its program
ensures. -/
theorem ensures {m k place : Nat} {o : Outcome}
    (running : (tr.machine m).control = .running task t)
    (h : t.Meets (.until latest) token post known) (holds : known.Holds tr.history latest)
    (hk : tr.history.clock k ≤ latest) (hended : tr.history.ended? k task = some (place, o)) :
    post o := by
  have hsome : (tr.history.ended? k task).isSome := by
    rw [hended]
    rfl
  induction t generalizing task token post known m k place o with
  | done o' =>
    obtain ⟨hmk, hmoved⟩ := moved_of_ended running hsome
    obtain ⟨place', hended'⟩ := of_done running hmk hmoved
    cases hended.symm.trans hended'
    exact h
  | panic payload =>
    obtain ⟨hmk, hmoved⟩ := moved_of_ended running hsome
    obtain ⟨place', name, hended'⟩ := of_panic running hmk hmoved
    cases hended.symm.trans hended'
    exact h name
  | endless =>
    rw [of_endless running] at hended
    contradiction
  | ask r next ih =>
    obtain ⟨j, a, answers, running, -⟩ := of_ask_of_ended running hsome
    have hjk : j ≤ k := Nat.le_of_succ_le (moved_of_ended running hsome).1
    have hj : tr.history.clock j ≤ latest := Nat.le_trans (tr.history.clock_mono hjk) hk
    exact ih a running (h.2 a (answers.justifies holds hj)) holds hk hended hsome
  | spawn name parent body next ihbody ihnext =>
    obtain ⟨hmk, hmoved⟩ := moved_of_ended running hsome
    obtain ⟨-, -, running, hbegun⟩ := of_spawn running hmk hmoved
    obtain ⟨post', hbody, hnext⟩ := h
    have holds' := holds_add holds hbegun fun j k place o running hk hchild =>
      ihbody _ running (hbody _) holds hk hchild (Option.isSome_iff_exists.mpr ⟨_, hchild⟩)
    exact ihnext _ running (hnext _ _) holds' hk hended hsome

/-- A task waits for an answer that never comes. -/
def Stuck (tr : Trace) (task : TaskId) (m : Nat) : Prop :=
  ∃ s ∈ (tr.machine m).world.suspended, s.id = task ∧
    ∀ k, m ≤ k → (tr.history.world k).answer? task s.deadline s.request = none

/-- It never does so if its token is stopped at some moment and time goes on. -/
theorem not_stuck {m k : Nat} (running : (tr.machine m).control = .running task t)
    (h : t.Meets (.until latest) token post known) (holds : known.Holds tr.history latest)
    (hstop : ∃ j, (tr.history.world j).isStopped token)
    (htime : ∀ instant, ∃ j, instant ≤ tr.history.clock j) (hmk : m ≤ k)
    (hk : tr.history.clock k ≤ latest) : ¬ tr.Stuck task k := by
  rintro ⟨s, hs, hid, never⟩
  have hmoved {m : Nat} {t : Task} (running : (tr.machine m).control = .running task t) :
      tr.machine k ≠ tr.machine m := fun heq =>
    ((tr.sound_at m).runs task t running).2.2 s (heq ▸ hs) hid
  have hunended : tr.history.ended? k task = none := hid ▸ ended?_of_waits hs
  induction t generalizing token post known m with
  | done o =>
    obtain ⟨place, hended⟩ := of_done running hmk (hmoved running)
    rw [hunended] at hended
    contradiction
  | panic payload =>
    obtain ⟨place, name, hended⟩ := of_panic running hmk (hmoved running)
    rw [hunended] at hended
    contradiction
  | endless => exact (lost_of_endless running hmk (hmoved running)).unwaiting s hs hid
  | ask r next ih =>
    by_cases hsame : s = (tr.history.world m).waiting task r next
    · subst hsame
      obtain ⟨j, hkj, hsome⟩ := History.answered_of_heeds h.1 hstop htime m k
      rw [show (tr.history.world j).answer? task ((tr.history.world m).deadline? r) r = none from
        never j hkj] at hsome
      contradiction
    · obtain ⟨j, a, hjk, answers, running, -⟩ := of_ask running hmk (hmoved running) fun hwaits =>
        hsame ((tr.sound_at k).eq_of_id hs hwaits hid)
      have hj : tr.history.clock j ≤ latest :=
        Nat.le_trans (tr.history.clock_mono (Nat.le_of_lt hjk)) hk
      exact ih a running (h.2 a (answers.justifies holds hj)) holds hstop hjk
  | spawn name parent body next ihbody ihnext =>
    obtain ⟨hlt, -, running, hbegun⟩ := of_spawn running hmk (hmoved running)
    obtain ⟨post', hbody, hnext⟩ := h
    have holds' := holds_add holds hbegun fun j k place o running hk hchild =>
      ensures running (hbody _) holds hk hchild
    exact ihnext _ running (hnext _ _) holds' hstop hlt

section Begun

variable {m k : Nat} {w : World} (hbegun : w.begun t ∈ (tr.machine m).world.suspended)
include hbegun

end Begun

end Trace

end Orchestra
