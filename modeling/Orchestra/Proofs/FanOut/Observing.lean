import Mathlib.Data.List.Perm.Subperm
import Orchestra.Proofs.FanOut.Race

/-!
# Every child is observed once

A fan-out is used by calls: to wait for the next child, to take one that has finished already, to stop
every child, and to take those that finish within a grace period. Whatever is called and however the
children end, each of them is either pending or observed, at one place and with the outcome it ended
with. A grace period is used up by children that do not end: who ends before it is over is observed, who
ends afterwards is not, and nobody waits for longer than that.
-/

namespace Orchestra

namespace FanOut

/-! ### Calls -/

/-- A call on a fan-out. -/
inductive Call where
  /-- Waits for the next child to finish, and if a token is given no longer than until it is stopped. -/
  | next (token : Option TokenId)
  /-- Takes a child that has finished already. -/
  | tryNext
  /-- Stops every child. -/
  | stopAll
  /-- Takes the children that finish within a grace period. -/
  | collectWithin (grace : Duration)

/-- Waits for one completion, and goes on with it or without one. -/
def await (patience : Patience) (f : FanOut) (next : FanOut → List Completion → Task) : Task :=
  .ask (.nextChild f.pending patience) fun
    | some c => next (f.take c.index) [c]
    | none => next f []

/-- Makes a call, and goes on with the completions that it has taken. -/
def Call.perform : Call → FanOut → (FanOut → List Completion → Task) → Task
  | .next none, f, rest => f.await .forever rest
  | .next (some token), f, rest => f.await (.untilStopped token) rest
  | .tryNext, f, rest => f.await .none rest
  | .stopAll, f, rest => f.stopAll (rest f [])
  | .collectWithin grace, f, rest => f.collectWithin grace rest

/-- Whoever uses a fan-out: makes a call, or asks for something else, and goes on as the answer says. -/
inductive Caller where
  | done
  | call (c : Call) (next : List Completion → Caller)
  | ask (r : Request) (next : r.Answer → Caller)

/-- Goes on with the completions observed until the caller is done. -/
def Caller.use : Caller → FanOut → List Completion → (FanOut → List Completion → Task) → Task
  | done, f, seen, next => next f seen
  | call c rest, f, seen, next =>
    c.perform f fun f' new => (rest new).use f' (seen ++ new) next
  | ask r rest, f, seen, next => .ask r fun a => (rest a).use f seen next

end FanOut

namespace History

open FanOut

variable {h : History} {task : TaskId} {m m' k k' n : Nat} {es : List Exchange} {o : Outcome}
variable {f f' : FanOut} {seen : List Completion}

/-! ### What is observed so far -/

/-- Of the children that were started from moment `m` on, each is observed or pending at moment `k`, and
what is observed is how the child at this position has ended. -/
structure Observed (h : History) (m n k : Nat) (f : FanOut) (seen : List Completion) : Prop where
  sorted : f.Sorted
  once : (seen.map Completion.index ++ f.pending.map Pending.index).Perm (List.range n)
  waits : ∀ p ∈ f.pending, p.id = h.childAt m p.index
  results : ∀ c ∈ seen, ∃ place, h.endings k m c.index = some (place, c.outcome)

/-- At first every child is pending. -/
theorem Started.observed {names : List String} (start : h.Started m names f) :
    h.Observed m names.length k f [] where
  sorted := start.sorted
  once := by
    rw [start.waits, startedAt, List.map_map]
    exact .of_eq (List.map_id _)
  waits p hp := by
    rw [start.waits] at hp
    exact (mem_startedAt.mp hp).2
  results := nofun

namespace Observed

/-- No two completions have one position. -/
theorem nodup (observed : h.Observed m n k f seen) : (seen.map Completion.index).Nodup :=
  (observed.once.nodup_iff.mpr List.nodup_range).of_append_left

/-- Time changes nothing about it. -/
theorem later (observed : h.Observed m n k f seen) (hk : k ≤ k') : h.Observed m n k' f seen :=
  { observed with
    results := fun c hc => by
      obtain ⟨place, hended⟩ := observed.results c hc
      exact ⟨place, (h.later_of_le hk).ended _ _ hended⟩ }

/-- A completion that is taken is no longer pending but observed. -/
theorem take (observed : h.Observed m n k f seen) {c : Completion}
    (hfirst : (h.world k).firstCompletion? f.pending = some c) :
    h.Observed m n k (f.take c.index) (seen ++ [c]) := by
  obtain ⟨p, place, hperm, hindex, hended⟩ := FanOut.take_first observed.sorted hfirst
  have hp : p ∈ f.pending := hperm.mem_iff.mpr List.mem_cons_self
  refine ⟨observed.sorted.take _, ?_, fun q hq => ?_, List.forall_mem_append.mpr
    ⟨observed.results, List.forall_mem_singleton.mpr ⟨place, ?_⟩⟩⟩
  · calc ((seen ++ [c]).map Completion.index ++ (f.take c.index).pending.map Pending.index)
      _ = seen.map Completion.index ++ (p :: (f.take c.index).pending).map Pending.index := by
          rw [List.map_append, List.append_assoc, List.map_cons, List.map_cons, hindex]
          rfl
      _ |>.Perm (seen.map Completion.index ++ f.pending.map Pending.index) :=
          (hperm.symm.map _).append_left _
      _ |>.Perm (List.range n) := observed.once
  · exact observed.waits q (List.mem_of_mem_filter hq)
  · rw [endings, World.endings, ← hindex, ← observed.waits p hp]
    exact hended

/-- So are those that are taken in a loop. -/
theorem collect (observed : h.Observed m n k f seen) {patience : Patience} {e k₁ : Nat}
    {new : List (Nat × Completion)} (collected : h.Collected f patience k e k₁ new f') :
    h.Observed m n k₁ f' (seen ++ new.map Prod.snd) := by
  have hsplit : (f.pending.map Pending.index).Perm
      ((new.map Prod.snd).map Completion.index ++ f'.pending.map Pending.index) := by
    refine (List.subperm_of_subset observed.sorted.nodup_index fun i hi => ?_).perm_of_length_le ?_
    · obtain ⟨p, hp, rfl⟩ := List.mem_map.mp hi
      cases hended : h.ended? e p.id with
      | none =>
        exact List.mem_append_right _ (List.mem_map_of_mem ((collected.pending p).mpr ⟨hp, hended⟩))
      | some x =>
        refine List.mem_append_left _ (List.mem_map.mpr ⟨⟨p.index, x.2⟩, ?_, rfl⟩)
        exact (mem_completes collected.completes).mpr ⟨p, hp, rfl, x.1, hended⟩
    · have hleft := collected.left
      simp only [List.length_append, List.length_map, FanOut.outstanding] at hleft ⊢
      omega
  refine ⟨collected.sorted, ?_, fun p hp => observed.waits p ((collected.pending p).mp hp).1,
    List.forall_mem_append.mpr ⟨(observed.later ?_).results, fun c hc => ?_⟩⟩
  · rw [List.map_append, List.append_assoc]
    exact (hsplit.symm.append_left _).trans observed.once
  · exact Nat.le_trans collected.from_le collected.le
  · obtain ⟨q, hq, hindex, place, hended⟩ := (mem_completes collected.completes).mp hc
    refine ⟨place, ?_⟩
    rw [endings, World.endings, ← hindex, ← observed.waits q hq]
    exact (h.later_of_le collected.le).ended _ _ hended

end Observed

/-! ### What calls observe -/

section Calls

variable {Q : Nat → Task → Task → List Exchange → Prop} (goes : h.Goes task Q)
include goes

/-- Waiting for a completion observes at most one child. -/
theorem Goes.await {patience : Patience} {next next' : FanOut → List Completion → Task}
    (observed : h.Observed m n k f seen) (q : Q k (f.await patience next) (f.await patience next') es) :
    ∃ k₁ f' new es₁, k ≤ k₁ ∧ h.Observed m n k₁ f' (seen ++ new) ∧
      Q k₁ (next f' new) (next' f' new) es₁ := by
  obtain ⟨k₁, a, answers, q⟩ := goes.ask q
  have hk : k ≤ k₁ + 1 := Nat.le_succ_of_le answers.le
  cases a with
  | none =>
    refine ⟨k₁ + 1, f, [], _, hk, ?_, q⟩
    rw [List.append_nil]
    exact observed.later hk
  | some c =>
    have htaken := (observed.later answers.le).take answers.nextChild_some
    exact ⟨k₁ + 1, f.take c.index, [c], _, hk, htaken.later (Nat.le_succ k₁), q⟩

/-- Every call leaves each child observed or pending. -/
theorem Goes.perform {c : Call} {next next' : FanOut → List Completion → Task}
    (observed : h.Observed m n k f seen) (q : Q k (c.perform f next) (c.perform f next') es) :
    ∃ k₁ f' new es₁, k ≤ k₁ ∧ h.Observed m n k₁ f' (seen ++ new) ∧
      Q k₁ (next f' new) (next' f' new) es₁ := by
  cases c with
  | next token =>
    cases token with
    | none => exact goes.await observed q
    | some token => exact goes.await observed q
  | tryNext => exact goes.await observed q
  | stopAll =>
    obtain ⟨k₁, _, answers, q⟩ := goes.ask q
    have hk : k ≤ k₁ + 1 := Nat.le_succ_of_le answers.le
    refine ⟨k₁ + 1, f, [], _, hk, ?_, q⟩
    rw [List.append_nil]
    exact observed.later hk
  | collectWithin grace =>
    obtain ⟨e, k₁, new, f', es₀, collected, -, -, -, q⟩ :=
      goes.collectWithin next' es observed.sorted q
    exact ⟨k₁, f', _, _, Nat.le_trans collected.from_le collected.le, observed.collect collected, q⟩

/-- So does whoever makes such calls. -/
theorem Goes.use {caller : Caller} {next next' : FanOut → List Completion → Task}
    (observed : h.Observed m n k f seen) (q : Q k (caller.use f seen next) (caller.use f seen next') es) :
    ∃ k₁ f' seen' es₁, k ≤ k₁ ∧ h.Observed m n k₁ f' seen' ∧
      Q k₁ (next f' seen') (next' f' seen') es₁ := by
  induction caller generalizing k f seen es with
  | done => exact ⟨k, f, seen, es, Nat.le_refl k, observed, q⟩
  | call c rest ih =>
    obtain ⟨k₁, f₁, new, es₁, hk, observed₁, q₁⟩ := goes.perform observed q
    obtain ⟨k₂, f₂, seen₂, es₂, hk', observed₂, q₂⟩ := ih new observed₁ q₁
    exact ⟨k₂, f₂, seen₂, es₂, Nat.le_trans hk hk', observed₂, q₂⟩
  | ask r rest ih =>
    obtain ⟨k₁, a, answers, q₁⟩ := goes.ask q
    have hk : k ≤ k₁ + 1 := Nat.le_succ_of_le answers.le
    obtain ⟨k₂, f₂, seen₂, es₂, hk', observed₂, q₂⟩ := ih a (observed.later hk) q₁
    exact ⟨k₂, f₂, seen₂, es₂, Nat.le_trans hk hk', observed₂, q₂⟩

end Calls

end History

end Orchestra
