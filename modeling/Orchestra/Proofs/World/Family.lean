import Orchestra.Proofs.Children.Accounts
import Orchestra.Proofs.World.Awake

/-!
# Where stops reach

What has happened to tokens is a list of events, the latest first: a token was made, by itself or
below another, or a stop was issued on one. Tokens are numbered in the order in which they were made.
Such a list, the family of the tokens, says by itself which tokens are above which and where the
stops have reached, without any account of how a world keeps its tokens. The tokens of a world follow
a family if they agree with it on the ancestors and on the issued stops; then a token is stopped in
the world exactly if in the family a stop was issued on it or above it. Each step of a world leads
from tokens that follow a family to tokens that follow its continuation.
-/

namespace Orchestra

/-- Something that happens to tokens. -/
inductive TokenEvent where
  /-- A token is made that is below no other. -/
  | root
  /-- A token is made below another. -/
  | below (parent : TokenId)
  /-- A stop is issued on a token. -/
  | stop (token : TokenId)
deriving DecidableEq, Repr

/-- What has happened to tokens, the latest first. -/
abbrev Family := List TokenEvent

namespace Family

/-- How many tokens were made. The next one gets this number. -/
def made : Family → Nat
  | [] => 0
  | .stop _ :: earlier => made earlier
  | _ :: earlier => made earlier + 1

/-- A token is another one itself, or above the token below which that one was made. -/
def Above : Family → TokenId → TokenId → Prop
  | [], x, y => x = y
  | .below parent :: earlier, x, y =>
    Above earlier x y ∨ (y = made earlier ∧ Above earlier x parent)
  | _ :: earlier, x, y => Above earlier x y

/-- A stop was issued on a token that was there. -/
def Issued : Family → TokenId → Prop
  | [], _ => False
  | .stop token :: earlier, x => (x = token ∧ x < made earlier) ∨ Issued earlier x
  | _ :: earlier, x => Issued earlier x

/-- A stop was issued on a token or above it. -/
def Stopped (f : Family) (y : TokenId) : Prop :=
  ∃ x, f.Issued x ∧ f.Above x y

/-- A token was made directly below another. -/
def Derived : Family → TokenId → TokenId → Prop
  | [], _, _ => False
  | .below p :: earlier, parent, child =>
    (parent = p ∧ child = made earlier) ∨ Derived earlier parent child
  | _ :: earlier, parent, child => Derived earlier parent child

/-- Every token was made below a token that was there. -/
def Proper : Family → Prop
  | [] => True
  | .below parent :: earlier => parent < made earlier ∧ Proper earlier
  | _ :: earlier => Proper earlier

instance decidableProper : (f : Family) → Decidable f.Proper
  | [] => inferInstanceAs (Decidable True)
  | .below parent :: earlier =>
    have := decidableProper earlier
    inferInstanceAs (Decidable (parent < made earlier ∧ Proper earlier))
  | .root :: earlier => decidableProper earlier
  | .stop _ :: earlier => decidableProper earlier

variable {f : Family} {x y parent child child' : TokenId} {e : TokenEvent}

theorem above_self (f : Family) (y : TokenId) : f.Above y y := by
  induction f with
  | nil => rfl
  | cons e earlier ih =>
    cases e with
    | below parent => exact .inl ih
    | root | stop => exact ih

/-- Later events leave a token below those above it, -/
theorem Above.cons (h : f.Above x y) : Above (e :: f) x y := by
  cases e with
  | below parent => exact .inl h
  | root | stop => exact h

/-- and a stop issued. -/
theorem Issued.cons (h : f.Issued x) : Issued (e :: f) x := by
  cases e with
  | stop token => exact .inr h
  | root | below => exact h

/-- So a stopped token stays stopped. -/
theorem Stopped.append (h : f.Stopped y) (events : Family) : Stopped (events ++ f) y := by
  induction events with
  | nil => exact h
  | cons e events ih =>
    obtain ⟨x, issued, above⟩ := ih
    exact ⟨x, issued.cons, above.cons⟩

/-- Only itself is above a token that was not made yet. -/
theorem Above.eq_of_made_le (h : f.Above x y) (hy : f.made ≤ y) : x = y := by
  induction f with
  | nil => exact h
  | cons e earlier ih =>
    cases e with
    | root => exact ih h (Nat.le_of_succ_le hy)
    | stop token => exact ih h hy
    | below parent =>
      rcases h with h | ⟨rfl, -⟩
      · exact ih h (Nat.le_of_succ_le hy)
      · exact absurd hy (Nat.not_succ_le_self _)

/-- A stop newly reaches what is below the token on which it is issued, and nothing else. -/
theorem stopped_stop_iff (hx : x < f.made) :
    Stopped (.stop x :: f) y ↔ f.Stopped y ∨ f.Above x y := by
  constructor
  · rintro ⟨x', ⟨rfl, -⟩ | issued, above⟩
    · exact .inr above
    · exact .inl ⟨x', issued, above⟩
  · rintro (⟨x', issued, above⟩ | above)
    · exact ⟨x', .inr issued, above⟩
    · exact ⟨x, .inl ⟨rfl, hx⟩, above⟩

/-- What is above a token is not younger. -/
theorem Proper.le_of_above (proper : f.Proper) (h : f.Above x y) : x ≤ y := by
  induction f generalizing y with
  | nil => exact Nat.le_of_eq h
  | cons e earlier ih =>
    cases e with
    | root | stop => exact ih proper h
    | below parent =>
      obtain ⟨hparent, proper⟩ := proper
      rcases h with h | ⟨rfl, h⟩
      · exact ih proper h
      · exact Nat.le_of_lt (Nat.lt_of_le_of_lt (ih proper h) hparent)

/-- A token is younger than the one it was made below, -/
theorem Proper.lt_of_derived (proper : f.Proper) (h : f.Derived parent child) :
    parent < child ∧ child < f.made := by
  induction f with
  | nil => contradiction
  | cons e earlier ih =>
    cases e with
    | root => exact (ih proper h).imp_right Nat.lt_succ_of_lt
    | stop => exact ih proper h
    | below p =>
      obtain ⟨hp, proper⟩ := proper
      rcases h with ⟨rfl, rfl⟩ | h
      · exact ⟨hp, Nat.lt_succ_self _⟩
      · exact (ih proper h).imp_right Nat.lt_succ_of_lt

/-- and what is above it is itself or above that one. -/
theorem Proper.above_of_derived (proper : f.Proper) (h : f.Derived parent child)
    (above : f.Above x child) : x = child ∨ f.Above x parent := by
  induction f with
  | nil => contradiction
  | cons e earlier ih =>
    cases e with
    | root | stop => exact ih proper h above
    | below p =>
      obtain ⟨hp, proper⟩ := proper
      rcases h with ⟨rfl, rfl⟩ | h
      · rcases above with above | ⟨-, above⟩
        · exact .inl (above.eq_of_made_le (Nat.le_refl _))
        · exact .inr (.inl above)
      · rcases above with above | ⟨rfl, above⟩
        · exact (ih proper h above).imp_right Or.inl
        · exact absurd (proper.lt_of_derived h).2 (Nat.lt_irrefl _)

/-- A token is not above the one it was made below, -/
theorem Proper.not_above_parent (proper : f.Proper) (h : f.Derived parent child) :
    ¬ f.Above child parent := fun above =>
  absurd (proper.le_of_above above) (Nat.not_le_of_lt (proper.lt_of_derived h).1)

/-- nor above another one made there. -/
theorem Proper.not_above_sibling (proper : f.Proper) (h : f.Derived parent child)
    (h' : f.Derived parent child') (hne : child ≠ child') : ¬ f.Above child child' := fun above =>
  (proper.above_of_derived h' above).elim hne (proper.not_above_parent h)

end Family

/-! ### Tokens that follow a family -/

namespace Tokens

/-- The tokens are those of a family, with its ancestors and its stops. -/
structure Follow (t : Tokens) (f : Family) : Prop where
  size : t.size = f.made
  lineage : ∀ x y, x ∈ t.lineage y ↔ f.Above x y
  issued : ∀ x, t.stopIssued x = true ↔ f.Issued x

variable {t t' : Tokens} {f : Family}

/-- They are stopped exactly where the stops of the family have reached. -/
theorem Follow.isStopped_iff (follow : t.Follow f) (id : TokenId) :
    t.isStopped id = true ↔ f.Stopped id := by
  rw [isStopped, List.any_eq_true]
  constructor
  · rintro ⟨x, hx, hissued⟩
    exact ⟨x, (follow.issued x).mp hissued, (follow.lineage x id).mp hx⟩
  · rintro ⟨x, hissued, hx⟩
    exact ⟨x, (follow.lineage x id).mpr hx, (follow.issued x).mpr hissued⟩

/-- Only ancestors and stops matter. -/
theorem Follow.congr (follow : t.Follow f) (size : t'.size = t.size)
    (lineage : ∀ y, t'.lineage y = t.lineage y) (issued : ∀ x, t'.stopIssued x = t.stopIssued x) :
    t'.Follow f where
  size := size.trans follow.size
  lineage x y := by rw [lineage, follow.lineage]
  issued x := by rw [issued, follow.issued]

theorem follow_empty : Follow .empty [] where
  size := rfl
  lineage x y := by
    have hnone : lineage .empty y = [y] := by simp [Tokens.lineage]
    rw [hnone, List.mem_singleton]
    rfl
  issued x := by
    have hnone : stopIssued .empty x = false := by simp [stopIssued]
    rw [hnone]
    exact iff_of_false Bool.false_ne_true id

/-- Before it was made nobody but itself was above a new token, and no stop was issued on it. -/
theorem Follow.unmade (follow : t.Follow f) :
    t.lineage f.made = [f.made] ∧ t.stopIssued f.made = false := by
  have hnone : t.get? f.made = none := (t.get?_eq_none_iff _).mpr (Nat.le_of_eq follow.size)
  simp [Tokens.lineage, stopIssued, hnone]

theorem Follow.root (follow : t.Follow f) : t.addRoot.Follow (.root :: f) where
  size := by rw [addRoot, Table.size_push, follow.size]; rfl
  lineage x y := by
    have hsame : t.addRoot.lineage y = t.lineage y := by
      by_cases hy : y = t.size
      · rw [hy, follow.size, follow.unmade.1]
        simp [addRoot, Tokens.lineage, Table.get?_push, follow.size]
      · simp [addRoot, Tokens.lineage, Table.get?_push, hy]
    rw [hsame]
    exact follow.lineage x y
  issued x := by
    have hsame : t.addRoot.stopIssued x = t.stopIssued x := by
      by_cases hx : x = t.size
      · rw [hx, follow.size, follow.unmade.2]
        simp [addRoot, stopIssued, Table.get?_push, follow.size]
      · simp [addRoot, stopIssued, Table.get?_push, hx]
    rw [hsame]
    exact follow.issued x

theorem Follow.below (follow : t.Follow f) (parent : TokenId) :
    (t.addBelow parent).Follow (.below parent :: f) := by
  have hpush : Follow (t.push ⟨t.size :: t.lineage parent, false, []⟩) (.below parent :: f) := by
    refine ⟨?_, fun x y => ?_, fun x => ?_⟩
    · rw [Table.size_push, follow.size]
      rfl
    · by_cases hy : y = t.size
      · have hnew : Tokens.lineage (t.push ⟨t.size :: t.lineage parent, false, []⟩) y =
            y :: t.lineage parent := by
          simp [Tokens.lineage, Table.get?_push, hy]
        rw [hnew, List.mem_cons, follow.lineage]
        refine or_congr ⟨fun h => h ▸ f.above_self y, fun above => ?_⟩
          ⟨fun above => ⟨hy.trans follow.size, above⟩, And.right⟩
        exact above.eq_of_made_le (Nat.le_of_eq (hy.trans follow.size).symm)
      · have hold : Tokens.lineage (t.push ⟨t.size :: t.lineage parent, false, []⟩) y =
            t.lineage y := by
          simp [Tokens.lineage, Table.get?_push, hy]
        rw [hold, follow.lineage]
        exact ⟨.inl, fun above => above.resolve_right fun h => hy (h.1.trans follow.size.symm)⟩
    · have hsame : stopIssued (t.push ⟨t.size :: t.lineage parent, false, []⟩) x =
          t.stopIssued x := by
        by_cases hx : x = t.size
        · rw [hx, follow.size, follow.unmade.2]
          simp [stopIssued, Table.get?_push, follow.size]
        · simp [stopIssued, Table.get?_push, hx]
      rw [hsame]
      exact follow.issued x
  refine hpush.congr (Table.size_modify _ _ _) (fun y => ?_) fun x => ?_
  · exact lineage_modify _ parent (fun _ => by rfl) y
  · exact stopIssued_modify _ parent (fun _ => by rfl) x

theorem Follow.stop (follow : t.Follow f) (token : TokenId) :
    (t.issueStop token).Follow (.stop token :: f) where
  size := (Table.size_modify _ _ _).trans follow.size
  lineage x y := by
    rw [issueStop, lineage_modify t token fun _ => by rfl]
    exact follow.lineage x y
  issued x := by
    have hissue : (t.issueStop token).stopIssued x = true ↔
        (x = token ∧ x < t.size) ∨ t.stopIssued x = true := by
      rw [issueStop, stopIssued, stopIssued, Table.get?_modify]
      cases hx : t.get? x with
      | none =>
        have hge := (t.get?_eq_none_iff x).mp hx
        by_cases heq : token = x <;> simp [heq, Nat.not_lt_of_le hge]
      | some old =>
        have hlt := Table.lt_size_of_get? hx
        by_cases heq : token = x
        · simp [heq, hlt]
        · simp [heq, Ne.symm heq]
    rw [hissue, follow.size, follow.issued]
    rfl

theorem Follow.close (follow : t.Follow f) (closed : TokenId) : (t.close closed).Follow f := by
  unfold Tokens.close
  split
  · next parent _ _ =>
    exact follow.congr (Table.size_modify _ _ _) (lineage_modify t parent fun _ => by rfl)
      (stopIssued_modify t parent fun _ => by rfl)
  · exact follow

end Tokens

/-! ### Steps of a world -/

/-- Two changes of one entry are one. -/
theorem Table.modify_modify {α : Type} (t : Table α) (i : Nat) (f g : α → α) :
    (t.modify i f).modify i g = t.modify i (g ∘ f) := by
  obtain ⟨entries⟩ := t
  unfold modify
  congr 1
  ext j hj hj'
  · simp
  · simp only [Array.getElem_modify]
    split <;> rfl

/-- The events when tokens are stopped one after the other. -/
def Family.stops (tokens : List TokenId) : Family :=
  (tokens.map TokenEvent.stop).reverse

namespace World

variable {w w' : World} {f : Family}

theorem follow_stop (follow : w.tokens.Follow f) (tokens : List TokenId) :
    (w.stop tokens).tokens.Follow (Family.stops tokens ++ f) := by
  induction tokens generalizing w f with
  | nil => exact follow
  | cons token rest ih =>
    have hone : (w.stopOne token).tokens.Follow (.stop token :: f) := by
      rw [(same_stopOne w token).tokens]
      exact follow.stop token
    rw [Family.stops, List.map_cons, List.reverse_cons, List.append_assoc]
    exact ih hone

/-- Whoever may go on already is not woken again. -/
theorem wakeAll_eq_self {tasks : List TaskId}
    (h : ∀ task ∈ tasks, task ∈ w.queue ∨ w.outer = some task) : w.wakeAll tasks = w := by
  induction tasks with
  | nil => rfl
  | cons task rest ih =>
    have hwake : w.wake task = w := by
      rw [wake, if_pos]
      rw [Bool.or_eq_true, decide_eq_true_eq, List.contains_iff_mem]
      exact (h task List.mem_cons_self).symm
    rw [wakeAll, List.foldl_cons, hwake]
    exact ih fun task' htask' => h task' (List.mem_cons_of_mem task htask')

/-- The tasks whose waits a stop has ended. -/
def stoppedWaiters (w : World) : List TaskId :=
  w.waiters fun s => s.request.endedBy w.isStopped

theorem stoppedWaiters_wakeAll (w : World) (tasks : List TaskId) :
    (w.wakeAll tasks).stoppedWaiters = w.stoppedWaiters := by
  have hsame := same_wakeAll w tasks
  have hstops : (w.wakeAll tasks).isStopped = w.isStopped :=
    funext fun token => by rw [isStopped, hsame.tokens]; rfl
  rw [stoppedWaiters, waiters, hsame.suspended, hstops]
  rfl

/-- After a stop all these may go on. -/
theorem mem_queue_of_stoppedWaiters {token : TokenId} {task : TaskId}
    (h : task ∈ (w.stopOne token).stoppedWaiters) :
    task ∈ (w.stopOne token).queue ∨ (w.stopOne token).outer = some task := by
  unfold stopOne at h ⊢
  dsimp only at h ⊢
  rw [stoppedWaiters_wakeAll] at h
  rw [(same_wakeAll _ _).outer]
  exact mem_queue_wakeAll _ h

/-- A stop issued once more changes nothing. -/
theorem stopOne_stopOne {token : TokenId} (has : w.tokens.Has token) :
    (w.stopOne token).stopOne token = w.stopOne token := by
  have htokens : (w.stopOne token).tokens = w.tokens.issueStop token := (same_stopOne w token).tokens
  have hstopped : (w.stopOne token).tokens.isStopped token = true :=
    htokens ▸ has.isStopped_issueStop
  have hissue : (w.stopOne token).tokens.issueStop token = (w.stopOne token).tokens := by
    rw [htokens, Tokens.issueStop, Tokens.issueStop, Table.modify_modify]
    rfl
  rw [stopOne, Tokens.reached, if_pos hstopped, hissue]
  exact wakeAll_eq_self fun _ => mem_queue_of_stoppedWaiters

theorem follow_finish (follow : w.tokens.Follow f) (task : TaskId) (ending : Ending) :
    (w.finish task ending).tokens.Follow f := by
  cases ht : w.tasks.get? task with
  | none =>
    unfold finish
    rw [ht]
    exact follow
  | some t =>
    rw [finish_eq ht, (same_wakeAll _ _).tokens]
    have hgive : (w.releaseAll t.held).tokens = w.tokens := (same_releaseAll w t.held).tokens
    unfold markEnded
    dsimp only
    rw [hgive]
    split
    · exact follow.close _
    · exact follow

theorem follow_answer? {task : TaskId} {deadline : Option Nat} {r : Request} {a : r.Answer}
    (follow : w.tokens.Follow f) (there : w.answer? task deadline r = some (a, w')) :
    w'.tokens.Follow (Family.stops r.stops ++ f) := by
  rcases tokens_answer? there with ⟨hnone, htokens⟩ | rfl
  · rw [hnone, htokens]
    exact follow
  · exact follow_stop follow r.stops

theorem follow_spawn (follow : w.tokens.Follow f) (name : String) (parent : TokenId)
    (body : TokenId → Task) :
    (w.spawn name parent body).2.tokens.Follow (.below parent :: f) := by
  rw [tokens_spawn]
  exact follow.below parent

end World

namespace Machine

/-- What happens to tokens in the step that a machine makes. -/
def tokenEvents (a : Machine) : Family :=
  match a.control with
  | .running _ (.ask r _) => Family.stops r.stops
  | .running _ (.spawn _ parent _ _) => [.below parent]
  | .turnOf task =>
    match a.world.suspended.find? fun s => s.id = task with
    | some s => Family.stops s.request.stops
    | none => []
  | _ => []

/-- A request that has no answer stops nothing. -/
theorem stops_of_unanswered {w : World} {task : TaskId} {deadline : Option Nat} {r : Request}
    (unanswered : w.answer? task deadline r = none) : r.stops = [] := by
  cases r with
  | stop tokens => contradiction
  | _ => rfl

/-- After a step the tokens follow the continued family. -/
theorem Step.follow {a b : Machine} {f : Family} (step : Step a b)
    (follow : a.world.tokens.Follow f) : b.world.tokens.Follow (a.tokenEvents ++ f) := by
  cases step with
  | answer there => exact World.follow_answer? follow there
  | @suspend w task r next unanswered =>
    obtain ⟨limits, hsame⟩ := World.suspend_eq w task r next
    have hnone := stops_of_unanswered unanswered
    simp only [tokenEvents, hnone]
    rw [hsame.tokens]
    exact follow
  | spawn => exact World.follow_spawn follow _ _ _
  | done | panic => exact World.follow_finish follow _ _
  | endless | turn | drive => exact follow
  | resume found there =>
    simp only [tokenEvents, found]
    exact World.follow_answer? follow there
  | @stay w task unanswered =>
    suffices hnone : tokenEvents ⟨w, .turnOf task⟩ = [] by
      rw [hnone]
      exact follow
    unfold World.resume? at unanswered
    unfold tokenEvents
    dsimp only
    cases hfound : w.suspended.find? fun s => s.id = task with
    | none => rfl
    | some s =>
      rw [hfound] at unanswered
      dsimp only at unanswered ⊢
      split at unanswered
      · next hanswer => rw [stops_of_unanswered hanswer]; rfl
      · contradiction
  | @clock w instant =>
    rw [show (w.moveTo instant).tokens = w.tokens from (World.same_wakeAll _ _).tokens]
    exact follow

end Machine

end Orchestra
