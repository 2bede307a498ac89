import Mathlib.Data.List.Perm.Subperm
import Orchestra.Proofs.Permits.Holders
import Orchestra.Proofs.Permits.Line
import Orchestra.Proofs.World.Awake

/-!
# The books of a limit

Each permit of a limit is at hand or held by a task that has not ended. Whoever stands in the line of
the limit waits for a permit, whoever waits for one stands in line or will notice that the limit was
closed, and whoever was granted a permit will have a turn. `Machine.Books` says this of one limit.
Every step of a world keeps it, with the same number of permits in all.
-/

namespace Orchestra

namespace Machine

/-- The books of a limit with a number of permits in all. -/
structure Books (id : LimitId) (l : Limit) (total : Nat) (a : Machine) : Prop where
  there : a.world.limits.get? id = some l
  tidy : l.Tidy
  balance : l.atHand + (a.world.holders id).length = total
  /-- Whoever stands in line waits for a permit, -/
  waits : ∀ task ∈ l.line, ∃ s ∈ a.world.suspended, s.id = task ∧ s.request.wants id = true
  /-- and whoever waits for a permit stands in line, unless the limit was closed meanwhile. -/
  lined : ∀ s ∈ a.world.suspended, s.request.wants id = true → s.id ∈ l.line ∨ l.closed = true
  woken : ∀ s ∈ a.world.suspended, s.request.wants id = true →
    s.id ∈ l.granted ∨ l.closed = true → a.Awake s.id
  /-- Whoever has ended holds no permit. -/
  unended : ∀ task ∈ a.world.holders id, a.world.ended? task = none

/-- The permits of a limit are all accounted for. -/
def Balanced (id : LimitId) (total : Nat) (a : Machine) : Prop :=
  ∃ l, Books id l total a

variable {id : LimitId} {l l' : Limit} {total : Nat} {w w' : World} {c : Control} {task : TaskId}

namespace Books

/-- What begins and ends nothing, and concerns other limits only, changes nothing in the books. -/
theorem steady (books : Books id l total ⟨w, c⟩) (steady : w.Steady w')
    (limit : w'.limits.get? id = w.limits.get? id)
    (held : ∀ task, w'.heldBy id task = w.heldBy id task) : Books id l total ⟨w', c⟩ := by
  have hholders : w'.holders id = w.holders id :=
    World.holders_congr (Nat.le_of_eq steady.size.symm) held
  exact
    { there := limit.trans books.there
      tidy := books.tidy
      balance := hholders.symm ▸ books.balance
      waits := steady.suspended.symm ▸ books.waits
      lined := steady.suspended.symm ▸ books.lined
      woken := fun s hs hwants hnow =>
        (books.woken s (steady.suspended ▸ hs) hwants hnow).steady steady
      unended := fun task htask =>
        (steady.ended task).trans (books.unended task (hholders ▸ htask)) }

/-- Waking tasks is nothing of that kind. -/
theorem wakeAll (books : Books id l total ⟨w, c⟩) (tasks : List TaskId) :
    Books id l total ⟨w.wakeAll tasks, c⟩ := by
  have hsame := World.same_wakeAll w tasks
  exact books.steady hsame.steady (by rw [World.limits_wakeAll])
    (World.heldBy_congr hsame.tasks id)

theorem wake (books : Books id l total ⟨w, c⟩) (task : TaskId) :
    Books id l total ⟨w.wake task, c⟩ :=
  books.wakeAll [task]

/-- The turn of a task that does not wait for a permit, or cannot have one yet, may end. -/
theorem control (books : Books id l total ⟨w, c⟩) (c' : Control)
    (h : ∀ s ∈ w.suspended, s.request.wants id = true → s.id ∈ l.granted ∨ l.closed = true →
      c ≠ .turnOf s.id ∨ c' = .turnOf s.id) : Books id l total ⟨w, c'⟩ :=
  { books with
    woken := fun s hs hwants hnow =>
      (books.woken s hs hwants hnow).imp_right fun hawake => hawake.imp_right fun hturn =>
        (h s hs hwants hnow).resolve_left fun hne => hne hturn }

/-- The rest of the program does not matter. -/
theorem rest {t : Task} (books : Books id l total ⟨w, .running task t⟩) (c' : Control) :
    Books id l total ⟨w, c'⟩ :=
  books.control c' fun _ _ _ _ => .inl nofun

/-- Whoever was granted a permit, or waits for a limit that was closed, has an answer. -/
theorem not_answered (books : Books id l total ⟨w, c⟩) {s : Suspended}
    (hwants : s.request.wants id = true) (hnow : s.id ∈ l.granted ∨ l.closed = true)
    (unanswered : w.answer? s.id s.deadline s.request = none) : False := by
  obtain ⟨token, hrequest⟩ := Request.wants_iff.mp hwants
  obtain ⟨sid, r, next, deadline, order⟩ := s
  obtain rfl : r = .acquire id token := hrequest
  obtain ⟨-, hadmit⟩ := World.of_acquire_unanswered books.there unanswered
  obtain ⟨hopen, hungranted, -⟩ := Limit.of_admit?_eq_none hadmit
  rcases hnow with hgranted | hclosed
  · exact hungranted hgranted
  · exact absurd (hopen.symm.trans hclosed) Bool.false_ne_true

/-! ### Permits that go back -/

/-- A permit that is given back is at hand again. -/
theorem release (books : Books id l total ⟨w, c⟩) :
    Books id l.release.1 (total + 1) ⟨w.release id, c⟩ := by
  have hsame : w.Same (w.release id) := World.same_changeLimit w id Limit.release
  have hholders : (w.release id).holders id = w.holders id :=
    World.holders_congr (Nat.le_of_eq hsame.steady.size.symm) (World.heldBy_congr hsame.tasks id)
  exact
    { there := by
        rw [World.release, World.get?_changeLimit, if_pos rfl,
          show w.limits.get? id = some l from books.there]
        rfl
      tidy := books.tidy.release
      balance := by
        rw [Limit.atHand_release, hholders, Nat.add_right_comm]
        exact congrArg (· + 1) books.balance
      waits := by
        rw [Limit.line_release]
        exact hsame.suspended.symm ▸ books.waits
      lined := by
        rw [Limit.line_release, Limit.closed_release]
        exact hsame.suspended.symm ▸ books.lined
      woken := fun s hs hwants hnow => by
        have hs' : s ∈ w.suspended := hsame.suspended ▸ hs
        have hold (hnow : s.id ∈ l.granted ∨ l.closed = true) : Awake ⟨w.release id, c⟩ s.id :=
          (books.woken s hs' hwants hnow).steady hsame.steady
        rw [Limit.closed_release] at hnow
        rcases hnow with hgranted | hclosed
        · rcases Limit.granted_release hgranted with hgranted | hwoken
          · exact hold (.inl hgranted)
          · exact (World.mem_queue_changeLimit books.there hwoken).imp_right fun houter =>
              .inl (hsame.outer.trans houter)
        · exact hold (.inr hclosed)
      unended := fun task htask =>
        (hsame.steady.ended task).trans (books.unended task (hholders ▸ htask)) }

/-- A change of another limit does not matter. -/
theorem changeLimit (books : Books id l total ⟨w, c⟩) {other : LimitId} (hne : other ≠ id)
    (change : Limit → Limit × Option TaskId) : Books id l total ⟨w.changeLimit other change, c⟩ := by
  have hsame := World.same_changeLimit w other change
  exact books.steady hsame.steady (by rw [World.get?_changeLimit, if_neg hne])
    (World.heldBy_congr hsame.tasks id)

/-- Permits that are given back, each to its limit. -/
theorem releaseAll (books : Books id l total ⟨w, c⟩) (limits : List LimitId) :
    ∃ l', Books id l' (total + limits.count id) ⟨w.releaseAll limits, c⟩ := by
  induction limits generalizing w l total with
  | nil => exact ⟨l, books⟩
  | cons limit rest ih =>
    by_cases heq : limit = id
    · subst heq
      obtain ⟨l', hl'⟩ := ih books.release
      refine ⟨l', ?_⟩
      rw [List.count_cons_self, ← Nat.add_assoc, Nat.add_right_comm]
      exact hl'
    · obtain ⟨l', hl'⟩ := ih (books.changeLimit heq Limit.release)
      refine ⟨l', ?_⟩
      rw [List.count_cons_of_ne heq]
      exact hl'

/-- Permits that are added from outside. -/
theorem addPermits (books : Books id l total ⟨w, c⟩) (count : Nat) :
    ∃ l', Books id l' (total + count) ⟨w.addPermits id count, c⟩ := by
  induction count generalizing w l total with
  | zero => exact ⟨l, books⟩
  | succ count ih =>
    obtain ⟨l', hl'⟩ := ih books.release
    refine ⟨l', ?_⟩
    rw [← Nat.add_assoc, Nat.add_right_comm]
    exact hl'

/-- Whoever waits for a limit that is closed will notice. -/
theorem closeLimit (books : Books id l total ⟨w, c⟩) :
    Books id l.close.1 total ⟨w.closeLimit id, c⟩ := by
  have hclose : w.closeLimit id =
      World.wakeAll { w with limits := w.limits.modify id fun _ => l.close.1 } l.queue := by
    unfold World.closeLimit
    rw [show w.limits.get? id = some l from books.there]
    rfl
  have hsame : World.Same w { w with limits := w.limits.modify id fun _ => l.close.1 } :=
    ⟨rfl, rfl, rfl, rfl, rfl, rfl, List.Subset.refl _, rfl, rfl⟩
  have hall := hsame.trans (World.same_wakeAll _ l.queue)
  rw [hclose]
  have hholders : World.holders (World.wakeAll
      { w with limits := w.limits.modify id fun _ => l.close.1 } l.queue) id = w.holders id :=
    World.holders_congr (Nat.le_of_eq hall.steady.size.symm) (World.heldBy_congr hall.tasks id)
  exact
    { there := by
        rw [World.limits_wakeAll, Table.get?_modify, if_pos rfl,
          show w.limits.get? id = some l from books.there]
        rfl
      tidy := books.tidy.close
      balance := by
        rw [hholders]
        exact books.balance
      waits := fun task htask => by
        rw [hall.suspended]
        refine books.waits task (List.mem_append_left _ ?_)
        exact (List.mem_append.mp htask).resolve_right (List.not_mem_nil)
      lined := fun _ _ _ => .inr rfl
      woken := fun s hs hwants _ => by
        have hs' : s ∈ w.suspended := hall.suspended ▸ hs
        have hold (hnow : s.id ∈ l.granted ∨ l.closed = true) :=
          (books.woken s hs' hwants hnow).steady hall.steady
        rcases books.lined s hs' hwants with hline | hclosed
        · rcases List.mem_append.mp hline with hgranted | hqueue
          · exact hold (.inl hgranted)
          · exact (World.mem_queue_wakeAll _ hqueue).imp_right fun houter =>
              .inl (hall.outer.trans houter)
        · exact hold (.inr hclosed)
      unended := fun task htask =>
        (hall.steady.ended task).trans (books.unended task (hholders ▸ htask)) }

/-- A task that ends gives back what it holds. -/
theorem finish {t : Task} (books : Books id l total ⟨w, .running task t⟩) (ending : Ending) :
    ∃ l', Books id l' total ⟨w.finish task ending, .idle⟩ := by
  cases ht : w.tasks.get? task with
  | none =>
    unfold World.finish
    rw [ht]
    exact ⟨l, books.rest .idle⟩
  | some state =>
    rw [World.finish_eq ht]
    have hsame := World.same_releaseAll w state.held
    have ht' : (w.releaseAll state.held).tasks.get? task = some state := hsame.tasks ▸ ht
    obtain ⟨l', hl'⟩ := books.releaseAll state.held
    have hheld : (w.releaseAll state.held).heldBy id task = state.held.count id := by
      rw [World.heldBy, ht']
    rw [← hheld] at hl'
    generalize w.releaseAll state.held = w₁ at *
    clear ht hsame
    have hlt := Table.lt_size_of_get? ht'
    have hmarked := w₁.heldBy_markEnded ht' ending id
    have hlength : ((w₁.markEnded task state ending).holders id).length + w₁.heldBy id task =
        (w₁.holders id).length + (w₁.markEnded task state ending).heldBy id task :=
      World.length_holders (Table.size_modify _ _ _) hlt fun task' hne => by
        rw [hmarked, if_neg hne.symm]
    rw [hmarked, if_pos rfl] at hlength
    refine ⟨l', Books.wakeAll ?_ _⟩
    exact
      { there := hl'.there
        tidy := hl'.tidy
        balance := by
          have hbalance := hl'.balance
          dsimp only at hbalance hlength ⊢
          omega
        waits := hl'.waits
        lined := hl'.lined
        woken := fun s hs hwants hnow =>
          (hl'.woken s hs hwants hnow).imp_right fun h => h.imp_right (Control.noConfusion ·)
        unended := fun task' htask' => by
          rw [World.mem_holders, hmarked] at htask'
          have hne : task ≠ task' := fun heq => by
            rw [if_pos heq] at htask'
            exact Nat.lt_irrefl 0 htask'
          rw [World.ended?_markEnded w₁ task ht', if_neg hne]
          rw [if_neg hne] at htask'
          exact hl'.unended task' (World.mem_holders.mpr htask') }

/-! ### Waits that begin and end -/

/-- The start of a task concerns nobody's permits. -/
theorem addTask (books : Books id l total ⟨w, c⟩) (name : String) (token : Option TokenId)
    (program : Task) : Books id l total ⟨w.addTask name token program, c⟩ := by
  have hheld := w.heldBy_pushTask name token program id
  have hsize : w.tasks.size ≤ (w.pushTask name token program).tasks.size :=
    Nat.le_of_lt ((Table.size_push _ _).symm ▸ Nat.lt_succ_self _)
  have hholders : (w.pushTask name token program).holders id = w.holders id :=
    World.holders_congr hsize hheld
  rw [World.addTask_eq]
  refine Books.wake ?_ _
  exact
    { there := books.there
      tidy := books.tidy
      balance := hholders.symm ▸ books.balance
      waits := fun task htask => by
        obtain ⟨s, hs, hwaits⟩ := books.waits task htask
        exact ⟨s, List.mem_append_left _ hs, hwaits⟩
      lined := List.forall_mem_append.mpr ⟨books.lined, List.forall_mem_singleton.mpr nofun⟩
      woken := List.forall_mem_append.mpr ⟨books.woken, List.forall_mem_singleton.mpr nofun⟩
      unended := fun task htask => by
        rw [← (World.same_addTask w name token program).steady.ended, World.ended?_addTask]
        exact books.unended task (hholders ▸ htask) }

theorem spawn (books : Books id l total ⟨w, c⟩) (name : String) (parent : TokenId)
    (body : TokenId → Task) : Books id l total ⟨(w.spawn name parent body).2, c⟩ := by
  have hbelow : Books id l total
      ⟨{ w with tokens := w.tokens.addBelow parent, spawned := true }, c⟩ :=
    books.steady (World.steady_addBelow w parent) rfl fun _ => rfl
  exact hbelow.addTask name _ _

/-- A wait begins: whoever waits for a permit joins the line, and has not been granted one yet. -/
theorem wait {v : World} {s : Suspended} (books : Books id l total ⟨w, .idle⟩)
    (suspended : v.suspended = w.suspended ++ [s]) (tasks : v.tasks = w.tasks)
    (queue : w.queue ⊆ v.queue) (outer : v.outer = w.outer) (there : v.limits.get? id = some l')
    (tidy : l'.Tidy) (atHand : l'.atHand = l.atHand) (granted : l'.granted = l.granted)
    (closed : l'.closed = l.closed)
    (line : ∀ task, task ∈ l'.line ↔ task ∈ l.line ∨ s.request.wants id = true ∧ task = s.id)
    (fresh : s.request.wants id = true → s.id ∉ l.granted ∧ l.closed = false) :
    Books id l' total ⟨v, .idle⟩ := by
  have hholders : v.holders id = w.holders id :=
    World.holders_congr (Nat.le_of_eq (congrArg Table.size tasks).symm) (World.heldBy_congr tasks id)
  exact
    { there := there
      tidy := tidy
      balance := by
        rw [atHand, hholders]
        exact books.balance
      waits := fun task htask => by
        rw [suspended]
        rcases (line task).mp htask with hold | ⟨hwants, rfl⟩
        · obtain ⟨s', hs', hwaits⟩ := books.waits task hold
          exact ⟨s', List.mem_append_left _ hs', hwaits⟩
        · exact ⟨s, List.mem_append_right _ (List.mem_singleton.mpr rfl), rfl, hwants⟩
      lined := fun s' hs' hwants => by
        rw [suspended] at hs'
        rw [line, closed]
        rcases List.mem_append.mp hs' with hold | hnew
        · exact (books.lined s' hold hwants).imp_left .inl
        · obtain rfl := List.mem_singleton.mp hnew
          exact .inl (.inr ⟨hwants, rfl⟩)
      woken := fun s' hs' hwants hnow => by
        rw [suspended] at hs'
        rw [granted, closed] at hnow
        rcases List.mem_append.mp hs' with hold | hnew
        · rcases books.woken s' hold hwants hnow with hqueue | houter | hturn
          · exact .inl (queue hqueue)
          · exact .inr (.inl (outer.trans houter))
          · contradiction
        · obtain rfl := List.mem_singleton.mp hnew
          obtain ⟨hungranted, hopen⟩ := fresh hwants
          rcases hnow with hgranted | hclosed
          · exact absurd hgranted hungranted
          · exact absurd (hopen.symm.trans hclosed) Bool.false_ne_true
      unended := fun task htask => by
        rw [World.ended?, tasks]
        exact books.unended task (hholders ▸ htask) }

/-- A task that begins to wait for a permit joins the line; other waits do not matter. -/
theorem suspend {r : Request} {next : r.Answer → Task}
    (books : Books id l total ⟨w, .running task (.ask r next)⟩)
    (hothers : ∀ s ∈ w.suspended, s.id ≠ task)
    (unanswered : w.answer? task (w.deadline? r) r = none) :
    ∃ l', Books id l' total ⟨w.suspend task r next, .idle⟩ := by
  obtain ⟨limits, same⟩ := World.suspend_eq w task r next
  have there := World.get?_limits_suspend w task r next id
  rw [show w.limits.get? id = some l from books.there] at there
  have hidle := books.rest .idle
  by_cases hwants : r.wants id = true
  · rw [if_pos hwants] at there
    obtain ⟨token, rfl⟩ := Request.wants_iff.mp hwants
    obtain ⟨-, hadmit⟩ := World.of_acquire_unanswered books.there unanswered
    obtain ⟨hopen, hungranted, -⟩ := Limit.of_admit?_eq_none hadmit
    have hnew : task ∉ l.line := fun hline => by
      obtain ⟨s, hs, hid, -⟩ := books.waits task hline
      exact hothers s hs hid
    refine ⟨l.enqueue task, hidle.wait same.suspended same.tasks same.queue same.outer there
      (books.tidy.enqueue hnew hadmit) rfl rfl rfl (fun task' => ?_) fun _ => ⟨hungranted, hopen⟩⟩
    simp [Limit.line_enqueue, World.waiting, hwants]
  · rw [if_neg hwants] at there
    refine ⟨l, hidle.wait same.suspended same.tasks same.queue same.outer there books.tidy rfl rfl rfl
      (fun task' => ?_) fun h => absurd h hwants⟩
    simp [World.waiting, hwants]

section Answered

variable {v : World} {t : Task} (books : Books id l total ⟨w, c⟩)
  (hc : ∀ task', c = .turnOf task' → task' = task)
  (suspended : v.suspended = w.suspended.filter fun s => s.id != task)
  (awake : ∀ task', task' ∈ w.queue ∨ w.outer = some task' → task' ∈ v.queue ∨ v.outer = some task')
include books hc suspended awake

/-- A task that has been answered waits no more. -/
theorem leave (there : v.limits.get? id = some l') (tidy : l'.Tidy) (line : l'.line = l.line.erase task)
    (closed : l'.closed = l.closed)
    (granted : ∀ task' ∈ l'.granted, task' ∈ l.granted ∨ task' ∈ v.queue ∨ v.outer = some task')
    (balance : l'.atHand + (v.holders id).length = total)
    (unended : ∀ task' ∈ v.holders id, v.ended? task' = none) :
    Books id l' total ⟨v, .running task t⟩ where
  there := there
  tidy := tidy
  balance := balance
  waits task' htask' := by
    rw [line, books.tidy.distinct.mem_erase_iff] at htask'
    obtain ⟨hne, hline⟩ := htask'
    obtain ⟨s, hs, rfl, hwants⟩ := books.waits task' hline
    refine ⟨s, ?_, rfl, hwants⟩
    rw [suspended]
    exact List.mem_filter.mpr ⟨hs, by simpa using hne⟩
  lined s hs hwants := by
    rw [suspended] at hs
    obtain ⟨hs, hne⟩ := List.mem_filter.mp hs
    rw [line, books.tidy.distinct.mem_erase_iff, closed]
    exact (books.lined s hs hwants).imp_left fun hline => ⟨by simpa using hne, hline⟩
  woken s hs hwants hnow := by
    rw [suspended] at hs
    obtain ⟨hs, hne⟩ := List.mem_filter.mp hs
    rw [closed] at hnow
    have hold (hnow : s.id ∈ l.granted ∨ l.closed = true) :
        Awake ⟨v, .running task t⟩ s.id := by
      rcases books.woken s hs hwants hnow with hqueue | houter | hturn
      · exact (awake s.id (.inl hqueue)).imp_right .inl
      · exact (awake s.id (.inr houter)).imp_right .inl
      · exact absurd (hc s.id hturn) (by simpa using hne)
    rcases hnow with hgranted | hclosed
    · rcases granted s.id hgranted with hgranted | hawake
      · exact hold (.inl hgranted)
      · exact hawake.imp_right .inl
    · exact hold (.inr hclosed)
  unended := unended

variable (ended : ∀ task', w.ended? task' = none → v.ended? task' = none)
include ended

/-- A task that is not let in gives back what it was granted. -/
theorem withdraw (there : v.limits.get? id = some (l.withdraw task).1)
    (holders : v.holders id = w.holders id)
    (woken : ∀ task', (l.withdraw task).2 = some task' → task' ∈ v.queue ∨ v.outer = some task') :
    Books id (l.withdraw task).1 total ⟨v, .running task t⟩ := by
  apply books.leave hc suspended awake there (books.tidy.withdraw task) (Limit.line_withdraw l task)
    (Limit.closed_withdraw l task)
  · exact fun task' h => (Limit.granted_withdraw h).imp_right (woken task')
  · rw [Limit.atHand_withdraw, holders]
    exact books.balance
  · exact fun task' h => ended task' (books.unended task' (holders ▸ h))

/-- A task that is let in holds the permit that it takes from the limit. -/
theorem letIn (there : v.limits.get? id = some l') (admits : l.Admits task l')
    (hsize : task < w.tasks.size) (hended : w.ended? task = none)
    (size : v.tasks.size = w.tasks.size)
    (held : ∀ task', v.heldBy id task' = w.heldBy id task' + if task = task' then 1 else 0) :
    Books id l' total ⟨v, .running task t⟩ := by
  have hlength : (v.holders id).length + w.heldBy id task =
      (w.holders id).length + v.heldBy id task :=
    World.length_holders size hsize fun task' hne => by rw [held, if_neg hne.symm, Nat.add_zero]
  rw [held, if_pos rfl] at hlength
  apply books.leave hc suspended awake there admits.tidy admits.line admits.closed
  · exact fun task' h => .inl (admits.granted h)
  · have hone := admits.atHand
    have hbalance := books.balance
    dsimp only at hbalance
    omega
  · intro task' h
    rw [World.mem_holders, held] at h
    by_cases heq : task = task'
    · exact ended task' (heq ▸ hended)
    · rw [if_neg heq, Nat.add_zero] at h
      exact ended task' (books.unended task' (World.mem_holders.mpr h))

/-- A task that does not stand in line changes nothing. -/
theorem apart (there : v.limits.get? id = some l) (hapart : task ∉ l.line)
    (holders : v.holders id = w.holders id) : Books id l total ⟨v, .running task t⟩ := by
  apply books.leave hc suspended awake there books.tidy (List.erase_of_not_mem hapart).symm rfl
  · exact fun task' => .inl
  · rw [holders]
    exact books.balance
  · exact fun task' h => ended task' (books.unended task' (holders ▸ h))

/-- A task whose wait for a permit is over has noticed a stop, was turned away, or is let in. -/
theorem acquired {deadline : Option Nat} {token : TokenId} {a : Bool} (hsize : task < w.tasks.size)
    (hended : w.ended? task = none)
    (there : w.answer? task deadline (.acquire id token) = some (a, w'))
    (same : v.limits = w'.limits ∧ v.tasks = w'.tasks ∧ v.queue = w'.queue ∧ v.outer = w'.outer) :
    ∃ l', Books id l' total ⟨v, .running task t⟩ := by
  obtain ⟨hlimits, htasks, hqueue, houter⟩ := same
  have hsame : v.tasks.size = w.tasks.size := htasks ▸ (World.steady_answer? there).size
  have hholders (heq : ∀ task', w'.heldBy id task' = w.heldBy id task') :
      v.holders id = w.holders id :=
    World.holders_congr (Nat.le_of_eq hsame.symm) fun task' =>
      (World.heldBy_congr htasks id task').trans (heq task')
  rcases World.answer?_acquire there with
    ⟨-, -, rfl⟩ | ⟨hnone, -, -⟩ | ⟨-, l₁, l', hl₁, hadmit, rfl⟩
  · -- a stop has ended the wait
    have hchanged := World.same_changeLimit w id fun l => l.withdraw task
    refine ⟨_, books.withdraw hc suspended awake ended ?_
      (hholders (World.heldBy_congr hchanged.tasks id)) fun task' h => ?_⟩
    · rw [hlimits, World.get?_changeLimit, if_pos rfl,
        show w.limits.get? id = some l from books.there]
      rfl
    · rw [hqueue, houter, hchanged.outer]
      exact World.mem_queue_changeLimit books.there h
  · cases hnone.symm.trans books.there
  · obtain rfl : l = l₁ := Option.some.inj (books.there.symm.trans hl₁)
    have hv : v.limits.get? id = some l' := by
      rw [hlimits, Table.get?_modify, if_pos rfl, hl₁]
      rfl
    cases a with
    | false =>
      obtain ⟨hclosed, rfl⟩ := Limit.of_admit?_eq_false hadmit
      refine ⟨_, books.withdraw hc suspended awake ended hv (hholders fun _ => rfl) fun task' h => ?_⟩
      rw [books.tidy.withdraw_of_closed hclosed] at h
      contradiction
    | true =>
      refine ⟨l', books.letIn hc suspended awake ended hv (books.tidy.admits hadmit) hsize
        hended hsame fun task' => ?_⟩
      have hadmitted := World.heldBy_admitted w id id task task'
      simp only [hsize, and_true] at hadmitted
      rw [World.heldBy, htasks]
      exact hadmitted

end Answered

/-- A task whose request is answered leaves the line if it stood there, with a permit that it holds
from now on or without. -/
theorem answered {v : World} {t : Task} {deadline : Option Nat} {r : Request} {a : r.Answer}
    (books : Books id l total ⟨w, c⟩) (hc : ∀ task', c = .turnOf task' → task' = task)
    (hsize : task < w.tasks.size) (hended : w.ended? task = none)
    (honly : ∀ s ∈ w.suspended, s.id = task → s.request = r)
    (there : w.answer? task deadline r = some (a, w'))
    (suspended : v.suspended = w.suspended.filter fun s => s.id != task)
    (same : v.limits = w'.limits ∧ v.tasks = w'.tasks ∧ v.queue = w'.queue ∧ v.outer = w'.outer) :
    ∃ l', Books id l' total ⟨v, .running task t⟩ := by
  obtain ⟨hlimits, htasks, hqueue, houter⟩ := same
  have hsteady := World.steady_answer? there
  have hawake (task' : TaskId) (h : task' ∈ w.queue ∨ w.outer = some task') :
      task' ∈ v.queue ∨ v.outer = some task' := by
    rw [hqueue, houter, hsteady.outer]
    exact h.imp_left fun h => hsteady.queue h
  have hunended (task' : TaskId) (h : w.ended? task' = none) : v.ended? task' = none := by
    rw [World.ended?, htasks]
    exact (hsteady.ended task').trans h
  by_cases hwants : r.wants id = true
  · obtain ⟨token, rfl⟩ := Request.wants_iff.mp hwants
    exact books.acquired hc suspended hawake hunended hsize hended there
      ⟨hlimits, htasks, hqueue, houter⟩
  · -- a request that is not for a permit concerns nobody's permits
    have hlimit := World.get?_limits_answer? there (Bool.eq_false_iff.mpr hwants)
      (Table.lt_size_of_get? books.there)
    have hheld (task' : TaskId) : w'.heldBy id task' = w.heldBy id task' := by
      refine (World.heldBy_answer? there hsize id task').resolve_right ?_
      rintro ⟨-, -, -, token, -, heq⟩
      cases heq
      exact hwants (decide_eq_true rfl)
    have hholders : v.holders id = w.holders id :=
      World.holders_congr (Nat.le_of_eq (htasks ▸ hsteady.size).symm) fun task' =>
        (World.heldBy_congr htasks id task').trans (hheld task')
    have hapart : task ∉ l.line := fun hline => by
      obtain ⟨s, hs, hid, hwants'⟩ := books.waits task hline
      exact hwants (honly s hs hid ▸ hwants')
    exact ⟨l, books.apart hc suspended hawake hunended (hlimits ▸ hlimit.trans books.there) hapart
      hholders⟩

end Books

/-! ### Every step -/

/-- Each step keeps the permits of a limit accounted for. -/
theorem Step.balanced {a b : Machine} (step : Step a b) (sound : Sound a)
    (balanced : Balanced id total a) : Balanced id total b := by
  obtain ⟨l, books⟩ := balanced
  cases step with
  | @answer w w' task r next answer there =>
    obtain ⟨hsize, hended, hothers⟩ := sound.runs _ _ rfl
    refine books.answered nofun hsize hended (fun s hs hid => absurd hid (hothers s hs)) there ?_
      ⟨rfl, rfl, rfl, rfl⟩
    rw [(World.steady_answer? there).suspended]
    exact (List.filter_eq_self.mpr fun s hs => bne_iff_ne.mpr (hothers s hs)).symm
  | suspend unanswered => exact books.suspend (sound.runs _ _ rfl).2.2 unanswered
  | spawn => exact ⟨l, (books.spawn _ _ _).rest _⟩
  | done | panic => exact books.finish _
  | endless => exact ⟨l, books.rest _⟩
  | @turn w task rest queue =>
    exact ⟨l, { books with woken := fun s hs hwants hnow => (books.woken s hs hwants hnow).turn queue }⟩
  | drive outer => exact ⟨l, books.control _ fun _ _ _ _ => .inl nofun⟩
  | @resume w w' task s answer found there =>
    have hs := List.mem_of_find?_eq_some found
    have hid : s.id = task := by simpa using List.find?_some found
    obtain ⟨hsize, hended⟩ := sound.waits s hs
    rw [hid] at hsize hended
    refine books.answered (fun task' heq => by cases heq; rfl) hsize hended
      (fun s' hs' hid' => ?_) there ?_ ⟨rfl, rfl, rfl, rfl⟩
    · exact congrArg Suspended.request (sound.eq_of_id hs' hs (hid'.trans hid.symm))
    · rw [(World.steady_answer? there).suspended]
  | @stay w task unanswered =>
    refine ⟨l, books.control _ fun s hs hwants hnow => .inl fun hturn => ?_⟩
    cases hturn
    exact books.not_answered hwants hnow (sound.unanswered hs unanswered)
  | @clock w instant =>
    have hclock : Books id l total ⟨{ w with now := instant }, .idle⟩ := { books with }
    exact ⟨l, hclock.wakeAll _⟩

/-- There are not more tasks that hold permits than permits. -/
theorem Balanced.length_le {a : Machine} (balanced : Balanced id total a) {tasks : List TaskId}
    (distinct : tasks.Nodup) (holds : ∀ task ∈ tasks, 0 < a.world.heldBy id task) :
    tasks.length ≤ total := by
  obtain ⟨l, books⟩ := balanced
  have hsub : tasks ⊆ a.world.holders id := fun task htask =>
    World.mem_holders.mpr (holds task htask)
  have hle := (distinct.subperm hsub).length_le
  have hbalance := books.balance
  omega

end Machine

end Orchestra
