import Mathlib.Data.List.Forall2
import Orchestra.Proofs.World.Later

/-!
# Tasks in step and worlds alike

Two programs go in step if they make the same requests and start the same children, apart from calls
that are recorded under names of no interest and from looks at whether their token is stopped. A
task looks and records without a pause, so a look that follows another one with nothing but records
in between shows the same.

Nobody can tell two worlds apart that differ only in such programs and such records. Whatever tasks
do and whatever is done from outside leads from worlds alike to worlds alike, so that every task ends
in both at the same place with the same outcome, and every other call is recorded as often.
-/

namespace Orchestra

/-! ### Tasks in step -/

/-- Two tasks in step. `seen` is what a look at the token has shown, if nothing but calls was recorded
since. -/
inductive Task.InStep (silent : String → Prop) (token : TokenId) : Option Bool → Task → Task → Prop
  | done {seen : Option Bool} (o : Outcome) : InStep silent token seen (.done o) (.done o)
  | panic {seen : Option Bool} (payload : Payload) :
      InStep silent token seen (.panic payload) (.panic payload)
  | endless {seen : Option Bool} : InStep silent token seen .endless .endless
  | ask {seen : Option Bool} (r : Request) {next next' : r.Answer → Task}
      (rest : ∀ a, InStep silent token none (next a) (next' a)) :
      InStep silent token seen (.ask r next) (.ask r next')
  | spawn {seen : Option Bool} (name : String) (parent : TokenId) (body : TokenId → Task)
      {next next' : Child → Task} (rest : ∀ c, InStep silent token none (next c) (next' c)) :
      InStep silent token seen (.spawn name parent body next) (.spawn name parent body next')
  | recordLeft {seen : Option Bool} {profile : ProfileId} {name : String} {failed : Bool}
      {t t' : Task} (hname : silent name) (rest : InStep silent token seen t t') :
      InStep silent token seen (.ask (.record profile name failed) fun _ => t) t'
  | recordRight {seen : Option Bool} {profile : ProfileId} {name : String} {failed : Bool}
      {t t' : Task} (hname : silent name) (rest : InStep silent token seen t t') :
      InStep silent token seen t (.ask (.record profile name failed) fun _ => t')
  | lookLeft {seen : Option Bool} {t : Bool → Task} {t' : Task}
      (rest : ∀ b, (∀ b', seen = some b' → b' = b) → InStep silent token (some b) (t b) t') :
      InStep silent token seen (.ask (.isStopped token) t) t'
  | lookRight {seen : Option Bool} {t : Task} {t' : Bool → Task}
      (rest : ∀ b, (∀ b', seen = some b' → b' = b) → InStep silent token (some b) t (t' b)) :
      InStep silent token seen t (.ask (.isStopped token) t')

namespace Task.InStep

variable {silent : String → Prop} {token : TokenId} {seen : Option Bool} {t t' : Task}

theorem symm (h : InStep silent token seen t t') : InStep silent token seen t' t := by
  induction h with
  | done o => exact .done o
  | panic payload => exact .panic payload
  | endless => exact .endless
  | ask r _ ih => exact .ask r ih
  | spawn name parent body _ ih => exact .spawn name parent body ih
  | recordLeft hname _ ih => exact .recordRight hname ih
  | recordRight hname _ ih => exact .recordLeft hname ih
  | lookLeft _ ih => exact .lookRight ih
  | lookRight _ ih => exact .lookLeft ih

/-- A look may go unused. -/
theorem know (h : InStep silent token none t t') : InStep silent token seen t t' := by
  generalize hnone : (none : Option Bool) = unknown at h
  induction h generalizing seen with
  | done o => exact .done o
  | panic payload => exact .panic payload
  | endless => exact .endless
  | ask r rest => exact .ask r rest
  | spawn name parent body rest => exact .spawn name parent body rest
  | recordLeft hname _ ih => exact .recordLeft hname (ih hnone)
  | recordRight hname _ ih => exact .recordRight hname (ih hnone)
  | lookLeft rest =>
    subst hnone
    exact .lookLeft fun b _ => rest b nofun
  | lookRight rest =>
    subst hnone
    exact .lookRight fun b _ => rest b nofun

/-- Every task is in step with itself. -/
theorem refl (t : Task) : InStep silent token seen t t := by
  induction t generalizing seen with
  | done o => exact .done o
  | panic payload => exact .panic payload
  | endless => exact .endless
  | ask r next ih => exact .ask r fun a => ih a
  | spawn name parent body next _ ih => exact .spawn name parent body fun c => ih c

/-- Tasks in step may go on in step from each outcome. -/
theorem andThen (h : InStep silent token seen t t') {k k' : Outcome → Task}
    (rest : ∀ o, InStep silent token none (k o) (k' o)) :
    InStep silent token seen (t.andThen k) (t'.andThen k') := by
  induction h with
  | done o => exact (rest o).know
  | panic payload => exact .panic payload
  | endless => exact .endless
  | ask r _ ih => exact .ask r ih
  | spawn name parent body _ ih => exact .spawn name parent body ih
  | recordLeft hname _ ih => exact .recordLeft hname ih
  | recordRight hname _ ih => exact .recordRight hname ih
  | lookLeft _ ih => exact .lookLeft ih
  | lookRight _ ih => exact .lookRight ih

/-- Tasks in step may look together. -/
theorem look {f f' : Bool → Task}
    (h : ∀ b, (∀ b', seen = some b' → b' = b) → InStep silent token (some b) (f b) (f' b)) :
    InStep silent token seen (.ask (.isStopped token) f) (.ask (.isStopped token) f') :=
  .lookLeft fun b hb => .lookRight fun b' hb' => by
    cases hb' b rfl
    exact h b hb

end Task.InStep

/-! ### Worlds alike -/

/-- Two tasks that wait for the same answer and go on in step. -/
inductive Suspended.Alike (silent : String → Prop) (token : TokenId) : Suspended → Suspended → Prop
  | mk (id : TaskId) (request : Request) {next next' : request.Answer → Task}
      (deadline : Option Nat) (order : Nat)
      (rest : ∀ a, Task.InStep silent token none (next a) (next' a)) :
      Alike silent token ⟨id, request, next, deadline, order⟩ ⟨id, request, next', deadline, order⟩

/-- Two profiles in which the same calls were recorded, apart from those under silent names. -/
inductive Profile.Alike (silent : String → Prop) : Profile → Profile → Prop
  | refl (p : Profile) : Alike silent p p
  | both {p p' : Profile} (name : String) (elapsed : Duration) (failed : Bool)
      (before : Alike silent p p') :
      Alike silent (p.record name elapsed failed) (p'.record name elapsed failed)
  | left {p p' : Profile} {name : String} {elapsed : Duration} {failed : Bool} (hname : silent name)
      (before : Alike silent p p') : Alike silent (p.record name elapsed failed) p'
  | right {p p' : Profile} {name : String} {elapsed : Duration} {failed : Bool} (hname : silent name)
      (before : Alike silent p p') : Alike silent p (p'.record name elapsed failed)

theorem Table.modify_id {α : Type} (t : Table α) (i : Nat) : t.modify i id = t := by
  obtain ⟨entries⟩ := t
  unfold modify
  congr 1
  ext j hj hj'
  · simp
  · simp [Array.getElem_modify]

namespace World

/-- The world with other waits and other profiles. -/
def dress (w : World) (suspended : List Suspended) (profiles : Table Profile) : World :=
  { w with suspended, profiles }

/-- Two worlds that differ only in tasks that go on in step and in calls that are recorded under
silent names. -/
structure Alike (silent : String → Prop) (token : TokenId) (w w' : World) : Prop where
  same : w' = w.dress w'.suspended w'.profiles
  suspended : List.Forall₂ (Suspended.Alike silent token) w.suspended w'.suspended
  size : w.profiles.size = w'.profiles.size
  profiles : ∀ id, Option.Rel (Profile.Alike silent) (w.profiles.get? id) (w'.profiles.get? id)

/-- Two worlds of which whoever looks at them from outside sees the same, apart from calls that are
recorded under silent names. -/
structure Agree (w : World) (silent : String → Prop) (w' : World) : Prop where
  clock : w'.now = w.now
  stopwatch : w'.stopwatch = w.stopwatch
  tokens : w'.tokens = w.tokens
  tasks : w'.tasks = w.tasks
  limits : w'.limits = w.limits
  cells : w'.cells = w.cells
  log : w'.log = w.log
  profiles : ∀ id, Option.Rel (Profile.Alike silent) (w.profiles.get? id) (w'.profiles.get? id)

variable {silent : String → Prop} {token : TokenId} {w w' : World} {task : TaskId}

theorem Alike.refl (w : World) : Alike silent token w w where
  same := rfl
  suspended := List.forall₂_same.mpr fun s _ => .mk s.id s.request s.deadline s.order fun _ => .refl _
  size := rfl
  profiles id := by
    cases w.profiles.get? id with
    | none => exact .none
    | some p => exact .some (.refl p)

/-- Something that neither looks at waits and profiles nor changes them. -/
def Blind (f : World → World) : Prop :=
  ∀ w suspended profiles, f (w.dress suspended profiles) = (f w).dress suspended profiles

theorem Blind.suspended {f : World → World} (hf : Blind f) (w : World) :
    (f w).suspended = w.suspended := by
  have hdress : f w = (f w).dress w.suspended w.profiles := hf w w.suspended w.profiles
  rw [hdress]
  rfl

theorem Blind.profiles {f : World → World} (hf : Blind f) (w : World) :
    (f w).profiles = w.profiles := by
  have hdress : f w = (f w).dress w.suspended w.profiles := hf w w.suspended w.profiles
  rw [hdress]
  rfl

theorem Blind.comp {f g : World → World} (hg : Blind g) (hf : Blind f) : Blind fun w => g (f w) := by
  intro w suspended profiles
  exact (congrArg g (hf w suspended profiles)).trans (hg (f w) suspended profiles)

/-- It keeps worlds alike. -/
theorem Alike.blind (h : Alike silent token w w') {f : World → World} (hf : Blind f) :
    Alike silent token (f w) (f w') where
  same := by
    rw [hf.suspended, hf.profiles, ← hf, ← h.same]
  suspended := by
    rw [hf.suspended, hf.suspended]
    exact h.suspended
  size := by
    rw [hf.profiles, hf.profiles]
    exact h.size
  profiles := by
    rw [hf.profiles, hf.profiles]
    exact h.profiles

theorem blind_foldl {α : Type} {f : World → α → World} (hf : ∀ a, Blind fun w => f w a)
    (l : List α) : Blind fun w => l.foldl f w := by
  induction l with
  | nil => exact fun _ _ _ => rfl
  | cons a l ih => exact ih.comp (hf a)

theorem blind_wake (task : TaskId) : Blind fun w => w.wake task := by
  intro w suspended profiles
  unfold wake
  dsimp only [dress]
  split <;> rfl

theorem blind_wakeAll (tasks : List TaskId) : Blind fun w => w.wakeAll tasks :=
  blind_foldl blind_wake tasks

theorem blind_changeLimit (limit : LimitId) (change : Limit → Limit × Option TaskId) :
    Blind fun w => w.changeLimit limit change := by
  intro w suspended profiles
  unfold changeLimit
  dsimp only [dress]
  cases w.limits.get? limit with
  | none => rfl
  | some l =>
    dsimp only
    split
    · exact blind_wake _ { w with limits := w.limits.modify limit fun _ => (change l).1 } _ _
    · rfl

theorem blind_addPermits (limit : LimitId) (count : Nat) :
    Blind fun w => w.addPermits limit count := by
  induction count with
  | zero => exact fun _ _ _ => rfl
  | succ count ih => exact ih.comp (blind_changeLimit limit Limit.release)

theorem blind_closeLimit (limit : LimitId) : Blind fun w => w.closeLimit limit := by
  intro w suspended profiles
  unfold closeLimit
  dsimp only [dress]
  cases w.limits.get? limit with
  | none => rfl
  | some l => exact blind_wakeAll _ { w with limits := w.limits.modify limit fun _ => l.close.1 } _ _

theorem blind_releaseAll (limits : List LimitId) : Blind fun w => w.releaseAll limits :=
  blind_foldl (fun limit => blind_changeLimit limit Limit.release) limits

theorem blind_markEnded (task : TaskId) (t : TaskState) (ending : Ending) :
    Blind fun w => w.markEnded task t ending :=
  fun _ _ _ => rfl

/-! ### What tasks see of a world -/

namespace Alike

/-- What is no wait and no profile is the same in worlds alike. -/
theorem eq_of_shared (h : Alike silent token w w') {α : Type} {f : World → α}
    (hf : ∀ w suspended profiles, f (World.dress w suspended profiles) = f w) : f w' = f w := by
  rw [h.same]
  exact hf w _ _

theorem clock (h : Alike silent token w w') : w'.now = w.now :=
  h.eq_of_shared fun _ _ _ => rfl

theorem tokens (h : Alike silent token w w') : w'.tokens = w.tokens :=
  h.eq_of_shared fun _ _ _ => rfl

theorem tasks (h : Alike silent token w w') : w'.tasks = w.tasks :=
  h.eq_of_shared fun _ _ _ => rfl

theorem queue (h : Alike silent token w w') : w'.queue = w.queue :=
  h.eq_of_shared fun _ _ _ => rfl

theorem agree (h : Alike silent token w w') : w.Agree silent w' where
  clock := h.clock
  stopwatch := h.eq_of_shared fun _ _ _ => rfl
  tokens := h.tokens
  tasks := h.tasks
  limits := h.eq_of_shared fun _ _ _ => rfl
  cells := h.eq_of_shared fun _ _ _ => rfl
  log := h.eq_of_shared fun _ _ _ => rfl
  profiles := h.profiles

/-- The same waits satisfy a condition on what is waited for. -/
theorem waiters (h : Alike silent token w w') {p : Suspended → Bool}
    (hp : ∀ s s', s.Alike silent token s' → p s = p s') : w.waiters p = w'.waiters p := by
  have hall := h.suspended
  unfold World.waiters
  generalize w.suspended = waits at hall ⊢
  generalize w'.suspended = waits' at hall ⊢
  induction hall with
  | nil => rfl
  | cons hs _ ih =>
    rw [List.filter_cons, List.filter_cons, hp _ _ hs]
    cases hs
    split
    · exact congrArg (List.cons _) ih
    · exact ih

/-- A task waits in both worlds, for the same answer, or in neither. -/
theorem find? (h : Alike silent token w w') (task : TaskId) :
    Option.Rel (Suspended.Alike silent token) (w.suspended.find? fun s => s.id = task)
      (w'.suspended.find? fun s => s.id = task) := by
  have hall := h.suspended
  generalize w.suspended = waits at hall ⊢
  generalize w'.suspended = waits' at hall ⊢
  induction hall with
  | nil => exact .none
  | @cons s s' _ _ hs _ ih =>
    rw [List.find?_cons, List.find?_cons]
    have hid : s.id = s'.id := by
      cases hs
      rfl
    rw [hid]
    split
    · exact .some hs
    · exact ih

theorem wakeWaiters (h : Alike silent token w w') {p : Suspended → Bool}
    (hp : ∀ s s', s.Alike silent token s' → p s = p s') :
    Alike silent token (w.wakeAll (w.waiters p)) (w'.wakeAll (w'.waiters p)) := by
  rw [h.waiters hp]
  exact h.blind (blind_wakeAll _)

theorem isStopped (h : Alike silent token w w') : w'.isStopped = w.isStopped :=
  h.eq_of_shared fun _ _ _ => rfl

theorem stopOne (h : Alike silent token w w') (stopped : TokenId) :
    Alike silent token (w.stopOne stopped) (w'.stopOne stopped) := by
  have hissued : Alike silent token { w with tokens := w.tokens.issueStop stopped }
      { w' with tokens := w'.tokens.issueStop stopped } :=
    h.blind (f := fun w => { w with tokens := w.tokens.issueStop stopped }) fun _ _ _ => rfl
  unfold World.stopOne
  rw [h.tokens] at hissued ⊢
  dsimp only
  generalize { w with tokens := w.tokens.issueStop stopped } = v at hissued ⊢
  generalize { w' with tokens := w.tokens.issueStop stopped } = v' at hissued ⊢
  induction w.tokens.reached stopped generalizing v v' with
  | nil =>
    rw [List.foldl_nil, List.foldl_nil, hissued.isStopped]
    refine hissued.wakeWaiters fun s s' hs => ?_
    cases hs
    rfl
  | cons t rest ih =>
    refine ih _ _ (hissued.wakeWaiters fun s s' hs => ?_)
    cases hs
    rfl

theorem stop (h : Alike silent token w w') (stopped : List TokenId) :
    Alike silent token (w.stop stopped) (w'.stop stopped) := by
  induction stopped generalizing w w' with
  | nil => exact h
  | cons t rest ih => exact ih (h.stopOne t)

theorem finish (h : Alike silent token w w') (task : TaskId) (ending : Ending) :
    Alike silent token (w.finish task ending) (w'.finish task ending) := by
  cases ht : w.tasks.get? task with
  | none =>
    have ht' : w'.tasks.get? task = none := h.tasks ▸ ht
    unfold World.finish
    rw [ht, ht']
    exact h
  | some t =>
    have ht' : w'.tasks.get? task = some t := h.tasks ▸ ht
    rw [finish_eq ht, finish_eq ht']
    refine wakeWaiters ?_ fun s s' hs => ?_
    · exact h.blind ((blind_markEnded task t ending).comp (blind_releaseAll t.held))
    · cases hs
      rfl

theorem completion? (h : Alike silent token w w') : w'.completion? = w.completion? :=
  h.eq_of_shared fun _ _ _ => rfl

/-- A change of a profile in both worlds. -/
theorem changeProfile (h : Alike silent token w w') (profile : ProfileId) {f g : Profile → Profile}
    (hf : ∀ p p', p.Alike silent p' → (f p).Alike silent (g p')) :
    Alike silent token { w with profiles := w.profiles.modify profile f }
      { w' with profiles := w'.profiles.modify profile g } where
  same := by
    rw [h.same]
    rfl
  suspended := h.suspended
  size := by
    rw [Table.size_modify, Table.size_modify, h.size]
  profiles id := by
    have hrel := h.profiles id
    rw [Table.get?_modify, Table.get?_modify]
    by_cases hid : profile = id
    · rw [if_pos hid, if_pos hid]
      generalize w.profiles.get? id = p at hrel ⊢
      generalize w'.profiles.get? id = p' at hrel ⊢
      cases hrel with
      | none => exact .none
      | some hp => exact .some (hf _ _ hp)
    · rw [if_neg hid, if_neg hid]
      exact hrel

/-- A new profile in both worlds. -/
theorem newProfile (h : Alike silent token w w') :
    Alike silent token { w with profiles := w.profiles.push .empty }
      { w' with profiles := w'.profiles.push .empty } where
  same := by
    rw [h.same]
    rfl
  suspended := h.suspended
  size := by
    rw [Table.size_push, Table.size_push, h.size]
  profiles id := by
    rw [Table.get?_push, Table.get?_push, h.size]
    split
    · exact .some (.refl _)
    · exact h.profiles id

/-- A call under a silent name is recorded in the first world only, -/
theorem recordLeft (h : Alike silent token w w') (profile : ProfileId) {name : String}
    (failed : Bool) (hname : silent name) : Alike silent token
      { w with profiles := w.profiles.modify profile fun p => p.record name .zero failed } w' := by
  have hleft := h.changeProfile profile (f := fun p => p.record name .zero failed) (g := id)
    fun _ _ => .left hname
  rwa [Table.modify_id] at hleft

/-- or in the second. -/
theorem recordRight (h : Alike silent token w w') (profile : ProfileId) {name : String}
    (failed : Bool) (hname : silent name) : Alike silent token w
      { w' with profiles := w'.profiles.modify profile fun p => p.record name .zero failed } := by
  have hright := h.changeProfile profile (f := id) (g := fun p => p.record name .zero failed)
    fun _ _ => .right hname
  rwa [Table.modify_id] at hright

theorem admit? (h : Alike silent token w w') (task : TaskId) (limit : LimitId) :
    Option.Rel (fun x x' => x.1 = x'.1 ∧ Alike silent token x.2 x'.2) (w.admit? task limit)
      (w'.admit? task limit) := by
  have hlimits : w'.limits = w.limits := h.eq_of_shared fun _ _ _ => rfl
  unfold World.admit?
  rw [hlimits]
  cases w.limits.get? limit with
  | none => exact .some ⟨rfl, h⟩
  | some l =>
    dsimp only
    cases l.admit? task with
    | none => exact .none
    | some x =>
      obtain ⟨granted, l'⟩ := x
      refine .some ⟨rfl, ?_⟩
      have hadmit := h.blind (f := fun w => { w with
        limits := w.limits.modify limit fun _ => l'
        tasks := if granted then w.tasks.modify task fun t => { t with held := limit :: t.held }
          else w.tasks }) fun _ _ _ => rfl
      rw [hlimits] at hadmit
      exact hadmit

/-- A request has the same answer in both worlds, or no answer in either. -/
theorem answer? (h : Alike silent token w w') (task : TaskId) (deadline : Option Nat) (r : Request) :
    Option.Rel (fun x x' => x.1 = x'.1 ∧ Alike silent token x.2 x'.2) (w.answer? task deadline r)
      (w'.answer? task deadline r) := by
  cases r with
  | isStopped t => exact .some ⟨congrFun h.isStopped.symm t, h⟩
  | stop tokens => exact .some ⟨rfl, h.stop tokens⟩
  | now => exact .some ⟨h.clock.symm, h⟩
  | stopwatch =>
    refine .some ⟨(h.eq_of_shared (f := fun w => w.stopwatch.next.reading) fun _ _ _ => rfl).symm, ?_⟩
    exact h.blind (f := fun w => { w with stopwatch := w.stopwatch.next }) fun _ _ _ => rfl
  | sleep span t =>
    have hdue : w'.isDue deadline = w.isDue deadline :=
      h.eq_of_shared (f := fun w => w.isDue deadline) fun _ _ _ => rfl
    simp only [World.answer?]
    rw [hdue, h.isStopped]
    split
    · exact .some ⟨rfl, h⟩
    · split
      · exact .some ⟨rfl, h⟩
      · exact .none
  | nextChild pending patience =>
    have hover : w'.patienceOver patience = w.patienceOver patience :=
      h.eq_of_shared (f := fun w => w.patienceOver patience) fun _ _ _ => rfl
    simp only [World.answer?, World.firstCompletion?]
    rw [hover, h.completion?]
    split
    · exact .some ⟨rfl, h⟩
    · split
      · exact .some ⟨rfl, h⟩
      · exact .none
  | acquire limit t =>
    simp only [World.answer?]
    rw [h.isStopped]
    split
    · exact .some ⟨rfl, h.blind (blind_changeLimit limit _)⟩
    · exact h.admit? task limit
  | newLimit permits =>
    refine .some ⟨(h.eq_of_shared (f := fun w => w.limits.size) fun _ _ _ => rfl).symm, ?_⟩
    exact h.blind (f := fun w => { w with limits := w.limits.push (.ofPermits permits) })
      fun _ _ _ => rfl
  | record profile name failed =>
    exact .some ⟨rfl, h.changeProfile profile fun _ _ => .both name .zero failed⟩
  | log entry =>
    exact .some ⟨rfl, h.blind (f := fun w => { w with log := w.log ++ [entry] }) fun _ _ _ => rfl⟩
  | count counter =>
    refine .some ⟨(h.eq_of_shared (f := fun w => (w.cells.counters.get? counter).getD 0)
      fun _ _ _ => rfl).symm, ?_⟩
    exact h.blind (f := fun w => { w with
      cells := { w.cells with counters := w.cells.counters.modify counter (· + 1) } })
      fun _ _ _ => rfl
  | offer tracker key state =>
    refine .some ⟨(h.eq_of_shared (f := fun w =>
      ((w.cells.trackers.modify tracker fun t => t.offer key state).get? tracker).bind
        Tracker.value?) fun _ _ _ => rfl).symm, ?_⟩
    exact h.blind (f := fun w => { w with
      cells := { w.cells with
        trackers := w.cells.trackers.modify tracker fun t => t.offer key state } })
      fun _ _ _ => rfl

/-! ### Running -/

/-- One more task waits in both worlds. -/
theorem wait (h : Alike silent token w w') {s s' : Suspended} (hs : s.Alike silent token s') :
    Alike silent token { w with suspended := w.suspended ++ [s] }
      { w' with suspended := w'.suspended ++ [s'] } where
  same := by
    rw [h.same]
    rfl
  suspended := List.rel_append h.suspended (.cons hs .nil)
  size := h.size
  profiles := h.profiles

theorem addTask (h : Alike silent token w w') (name : String) (own : Option TokenId)
    {program program' : Task} (hprogram : program.InStep silent token none program') :
    Alike silent token (w.addTask name own program) (w'.addTask name own program') := by
  have hsize : w'.tasks.size = w.tasks.size := congrArg Table.size h.tasks
  have horder : w'.order = w.order := h.eq_of_shared fun _ _ _ => rfl
  have hbegun : (w.begun program).Alike silent token (w'.begun program') := by
    unfold begun
    rw [hsize, horder]
    exact .mk _ .now none w.order fun _ => hprogram
  have hpushed := (h.wait hbegun).blind (f := fun w => { w with
    tasks := w.tasks.push ⟨name, own, [], none⟩
    order := w.order + 1 }) fun _ _ _ => rfl
  have hwoken := hpushed.blind (blind_wake w.tasks.size)
  rw [addTask_eq, addTask_eq, hsize]
  exact hwoken

theorem spawn (h : Alike silent token w w') (name : String) (parent : TokenId)
    {body body' : TokenId → Task}
    (hbody : (body w.tokens.size).InStep silent token none (body' w.tokens.size)) :
    (w.spawn name parent body).1 = (w'.spawn name parent body').1 ∧
      Alike silent token (w.spawn name parent body).2 (w'.spawn name parent body').2 := by
  have hsize : w'.tokens.size = w.tokens.size := congrArg Table.size h.tokens
  have hbelow := h.blind (f := fun w => { w with
    tokens := w.tokens.addBelow parent
    spawned := true }) fun _ _ _ => rfl
  have hadded := hbelow.addTask name (some w.tokens.size) hbody
  unfold World.spawn
  dsimp only
  constructor
  · rw [h.tasks, hsize]
  · rw [hsize]
    exact hadded

theorem wakeIf (h : Alike silent token w w') (again : Bool) (task : TaskId) :
    Alike silent token (if again then w.wake task else w) (if again then w'.wake task else w') := by
  cases again with
  | true => exact h.blind (blind_wake task)
  | false => exact h

theorem suspend (h : Alike silent token w w') (task : TaskId) (r : Request)
    {next next' : r.Answer → Task} (hnext : ∀ a, (next a).InStep silent token none (next' a)) :
    Alike silent token (w.suspend task r next) (w'.suspend task r next') := by
  have hdeadline : w'.deadline? r = w.deadline? r :=
    h.eq_of_shared (f := fun w => w.deadline? r) fun _ _ _ => rfl
  have horder : w'.order = w.order := h.eq_of_shared fun _ _ _ => rfl
  have hspawned : w'.spawned = w.spawned := h.eq_of_shared fun _ _ _ => rfl
  have hwaiting : (w.waiting task r next).Alike silent token (w'.waiting task r next') := by
    unfold waiting
    rw [hdeadline, horder]
    exact .mk task r _ _ hnext
  have hwait := (h.wait hwaiting).blind (f := fun w => { w with
    order := w.order + 1
    spawned := false }) fun _ _ _ => rfl
  unfold World.suspend
  rw [hspawned]
  cases r with
  | acquire limit t =>
    have hqueued := hwait.blind (f := fun w => { w with
      limits := w.limits.modify limit fun l => l.enqueue task }) fun _ _ _ => rfl
    exact hqueued.wakeIf _ task
  | _ => exact hwait.wakeIf _ task

/-- Programs in step run alike. -/
theorem exec (h : Alike silent token w w') (task : TaskId) {seen : Option Bool} {t t' : Task}
    (hstep : t.InStep silent token seen t')
    (hseen : ∀ b, seen = some b → w.isStopped token = b) :
    Alike silent token (World.exec task t w) (World.exec task t' w') := by
  induction hstep generalizing w w' with
  | done o => exact h.finish task (.returned o)
  | panic payload => exact h.finish task (.panicked payload)
  | endless => exact h
  | ask r rest ih =>
    have hdeadline : w'.deadline? r = w.deadline? r :=
      h.eq_of_shared (f := fun w => w.deadline? r) fun _ _ _ => rfl
    have hanswer := h.answer? task (w.deadline? r) r
    rw [World.exec, World.exec, hdeadline]
    generalize w.answer? task (w.deadline? r) r = x at hanswer ⊢
    generalize w'.answer? task (w.deadline? r) r = x' at hanswer ⊢
    cases hanswer with
    | none => exact h.suspend task r rest
    | @some x x' hx =>
      obtain ⟨a, v⟩ := x
      obtain ⟨a', v'⟩ := x'
      obtain ⟨rfl, hv⟩ := hx
      exact ih a hv nofun
  | spawn name parent body _ ih =>
    obtain ⟨hchild, hworld⟩ := h.spawn name parent (.refl (body w.tokens.size))
    rw [World.exec, World.exec]
    dsimp only
    rw [← hchild]
    exact ih _ hworld nofun
  | recordLeft hname _ ih => exact ih (h.recordLeft _ _ hname) hseen
  | recordRight hname _ ih => exact ih (h.recordRight _ _ hname) hseen
  | lookLeft _ ih =>
    refine ih (w.isStopped token) (fun b hb => (hseen b hb).symm) h fun b hb => ?_
    exact Option.some.inj hb
  | lookRight _ ih =>
    have hrun := ih (w.isStopped token) (fun b hb => (hseen b hb).symm) h fun b hb =>
      Option.some.inj hb
    rw [← h.isStopped] at hrun
    exact hrun

/-- A task no longer waits. -/
theorem gone (h : Alike silent token w w') (task : TaskId) :
    Alike silent token
      { w with suspended := w.suspended.filter (fun s => s.id != task), spawned := false }
      { w' with suspended := w'.suspended.filter (fun s => s.id != task), spawned := false } where
  same := by
    rw [h.same]
    rfl
  suspended := List.rel_filter (fun _ _ hs => by cases hs; rfl) h.suspended
  size := h.size
  profiles := h.profiles

/-- A task goes on in both worlds, or in neither. -/
theorem resume? (h : Alike silent token w w') (task : TaskId) :
    Option.Rel (Alike silent token) (w.resume? task) (w'.resume? task) := by
  have hfound := h.find? task
  unfold World.resume?
  generalize (w.suspended.find? fun s => s.id = task) = s at hfound ⊢
  generalize (w'.suspended.find? fun s => s.id = task) = s' at hfound ⊢
  cases hfound with
  | none => exact .none
  | some hs =>
    cases hs with
    | mk id r deadline order rest =>
      have hanswer := h.answer? task deadline r
      dsimp only
      generalize w.answer? task deadline r = x at hanswer ⊢
      generalize w'.answer? task deadline r = x' at hanswer ⊢
      cases hanswer with
      | none => exact .none
      | @some x x' hx =>
        obtain ⟨a, v⟩ := x
        obtain ⟨a', v'⟩ := x'
        obtain ⟨rfl, hv⟩ := hx
        exact .some ((hv.gone task).exec task (rest a) nofun)

/-- A turn that has no effect is one all the same. -/
theorem resume (h : Alike silent token w w') (task : TaskId) :
    Alike silent token ((w.resume? task).getD w) ((w'.resume? task).getD w') := by
  have hresume := h.resume? task
  generalize w.resume? task = v at hresume ⊢
  generalize w'.resume? task = v' at hresume ⊢
  cases hresume with
  | none => exact h
  | some hv => exact hv

theorem turn? (h : Alike silent token w w') :
    Option.Rel (Alike silent token) w.turn? w'.turn? := by
  unfold World.turn?
  rw [h.queue]
  cases w.queue with
  | nil => exact .none
  | cons task rest =>
    have hturn := h.blind (f := fun w => { w with queue := rest }) fun _ _ _ => rfl
    exact .some (hturn.resume task)

theorem settle (h : Alike silent token w w') (count : Nat) :
    Alike silent token (w.settle count) (w'.settle count) := by
  induction count generalizing w w' with
  | zero => exact h
  | succ count ih =>
    have hturn := h.turn?
    unfold World.settle
    generalize w.turn? = v at hturn ⊢
    generalize w'.turn? = v' at hturn ⊢
    cases hturn with
    | none => exact h
    | some hv => exact ih hv

theorem nextDeadline? (h : Alike silent token w w') : w.nextDeadline? = w'.nextDeadline? := by
  have hmap : w.suspended.map Suspended.deadline = w'.suspended.map Suspended.deadline := by
    have hall := h.suspended
    generalize w.suspended = waits at hall ⊢
    generalize w'.suspended = waits' at hall ⊢
    induction hall with
    | nil => rfl
    | cons hs _ ih =>
      cases hs
      exact congrArg (List.cons _) ih
  rw [World.nextDeadline?, World.nextDeadline?, hmap]

theorem moveTo (h : Alike silent token w w') (instant : Nat) :
    Alike silent token (w.moveTo instant) (w'.moveTo instant) := by
  have hclock := h.blind (f := fun w => { w with now := instant }) fun _ _ _ => rfl
  exact hclock.wakeWaiters fun s s' hs => by
    cases hs
    rfl

theorem advanceTo (h : Alike silent token w w') (instant count : Nat) :
    Alike silent token (w.advanceTo instant count) (w'.advanceTo instant count) := by
  induction count generalizing w w' with
  | zero => exact h
  | succ count ih =>
    have hsettled := h.settle horizon
    have hclock := hsettled.blind (f := fun w => { w with now := instant }) fun _ _ _ => rfl
    unfold World.advanceTo
    dsimp only
    rw [← hsettled.nextDeadline?]
    split
    · split
      · exact ih (hsettled.moveTo _)
      · exact hclock
    · exact hclock

theorem advance (h : Alike silent token w w') (span : Duration) :
    Alike silent token (w.advance span) (w'.advance span) := by
  unfold World.advance
  rw [h.clock]
  exact h.advanceTo _ _

theorem ending? (h : Alike silent token w w') : w'.ending? = w.ending? :=
  h.eq_of_shared fun _ _ _ => rfl

theorem timerFired (h : Alike silent token w w') (task : TaskId) :
    w.timerFired task = w'.timerFired task := by
  have hall := h.suspended
  unfold World.timerFired
  rw [h.clock]
  generalize w.suspended = waits at hall ⊢
  generalize w'.suspended = waits' at hall ⊢
  induction hall with
  | nil => rfl
  | cons hs _ ih =>
    cases hs
    rw [List.any_cons, List.any_cons, ih]
    rfl

theorem drive (h : Alike silent token w w') (task : TaskId) (count : Nat) :
    Alike silent token (World.drive task count w) (World.drive task count w') := by
  induction count generalizing w w' with
  | zero => exact h
  | succ count ih =>
    have hturn := h.turn?
    have hresume := h.resume? task
    unfold World.drive
    rw [h.ending?]
    split
    · exact h
    generalize w.turn? = v at hturn ⊢
    generalize w'.turn? = v' at hturn ⊢
    cases hturn with
    | some hv => exact ih hv
    | none =>
      dsimp only
      generalize w.resume? task = v at hresume ⊢
      generalize w'.resume? task = v' at hresume ⊢
      cases hresume with
      | some hv => exact ih hv
      | none =>
        dsimp only
        rw [← h.nextDeadline?]
        split
        · exact h
        · next due _ =>
          have hmoved := h.moveTo due
          rw [← hmoved.timerFired]
          split
          · exact ih (hmoved.resume task)
          · exact ih hmoved

/-- Programs in step that are performed end alike, and leave worlds alike behind. -/
theorem perform (h : Alike silent token w w') {program program' : Task}
    (hprogram : program.InStep silent token none program') :
    (w.perform program).1 = (w'.perform program').1 ∧
      Alike silent token (w.perform program).2 (w'.perform program').2 := by
  have houter := h.blind (f := fun v => { v with outer := some w.tasks.size }) fun _ _ _ => rfl
  have hdriven := ((houter.addTask "" none hprogram).resume w.tasks.size).drive w.tasks.size horizon
  have hsize : w'.tasks.size = w.tasks.size := congrArg Table.size h.tasks
  unfold World.perform
  rw [hsize]
  dsimp only
  constructor
  · rw [hdriven.ending?]
  · exact hdriven.blind (f := fun v => { v with outer := none }) fun _ _ _ => rfl

end Alike

/-- What is done to a world from outside. -/
inductive Act where
  | stop (tokens : List TokenId)
  | advance (span : Duration)
  /-- Starts a run. -/
  | spawn (name : String) (parent : TokenId) (body : TokenId → Task)
  /-- Runs a program to its end. -/
  | perform (program : Task)
  | addPermits (limit : LimitId) (count : Nat)
  | closeLimit (limit : LimitId)
  | newProfile
  | resetProfile (profile : ProfileId)
  /-- Something else that has to do neither with waits nor with profiles, such as a new token. -/
  | other (change : World → World) (blind : Blind change)

/-- Does it. -/
def act (w : World) : Act → World
  | .stop tokens => w.stop tokens
  | .advance span => w.advance span
  | .spawn name parent body => (w.spawn name parent body).2
  | .perform program => (w.perform program).2
  | .addPermits limit count => w.addPermits limit count
  | .closeLimit limit => w.closeLimit limit
  | .newProfile => { w with profiles := w.profiles.push .empty }
  | .resetProfile profile => { w with profiles := w.profiles.modify profile fun _ => .empty }
  | .other change _ => change w

/-- Whatever is done to worlds alike, they remain so. -/
theorem Alike.acts (h : Alike silent token w w') (acts : List Act) :
    Alike silent token (acts.foldl act w) (acts.foldl act w') := by
  induction acts generalizing w w' with
  | nil => exact h
  | cons a rest ih =>
    refine ih ?_
    cases a with
    | stop tokens => exact h.stop tokens
    | advance span => exact h.advance span
    | spawn name parent body => exact (h.spawn name parent (.refl (body w.tokens.size))).2
    | perform program => exact (h.perform (.refl program)).2
    | addPermits limit count => exact h.blind (blind_addPermits limit count)
    | closeLimit limit => exact h.blind (blind_closeLimit limit)
    | newProfile => exact h.newProfile
    | resetProfile profile => exact h.changeProfile profile fun _ _ _ => .refl _
    | other change blind => exact h.blind blind

end World

end Orchestra
