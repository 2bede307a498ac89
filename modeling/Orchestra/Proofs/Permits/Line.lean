import Mathlib.Data.List.Nodup
import Orchestra.World.Limit

/-!
# The line before a limit

The tasks that wait for a permit stand in line, those that have been granted one first. A permit that
is given back goes along the line and changes nobody's place in it; a task that is let in, refused or
withdrawn leaves the line, and what it was granted goes to the next. So permits are neither made nor
lost: each of these changes keeps the permits at hand, except that the one that is taken up is gone
from them and the one that is given back is there again.
-/

namespace Orchestra.Limit

/-- The tasks that wait, those with a permit that they have not taken up yet first. -/
def line (l : Limit) : List TaskId :=
  l.granted ++ l.queue

/-- The number of permits that no task holds. -/
def atHand (l : Limit) : Nat :=
  l.available + l.granted.length

/-- No task stands in line twice, nobody waits while a permit is available, and nobody waits for a
limit that is closed. -/
structure Tidy (l : Limit) : Prop where
  distinct : l.line.Nodup
  exhausted : l.queue ≠ [] → l.available = 0
  shut : l.closed = true → l.queue = []

variable {l l' : Limit} {task task' : TaskId}

theorem tidy_ofPermits (permits : Nat) : (ofPermits permits).Tidy where
  distinct := .nil
  exhausted h := absurd rfl h
  shut _ := rfl

/-! ### Giving a permit back -/

@[simp] theorem line_release (l : Limit) : l.release.1.line = l.line := by
  unfold release line
  cases l.queue with
  | nil => rfl
  | cons first rest => exact List.append_assoc _ _ _

@[simp] theorem closed_release (l : Limit) : l.release.1.closed = l.closed := by
  unfold release
  cases l.queue <;> rfl

theorem atHand_release (l : Limit) : l.release.1.atHand = l.atHand + 1 := by
  unfold release atHand
  cases l.queue with
  | nil => exact Nat.add_right_comm _ _ _
  | cons first rest =>
    dsimp only
    rw [List.length_append, List.length_singleton, Nat.add_assoc]

/-- Whoever has a permit granted had it before, or is to be woken. -/
theorem granted_release (h : task ∈ l.release.1.granted) :
    task ∈ l.granted ∨ l.release.2 = some task := by
  unfold release at h ⊢
  cases hqueue : l.queue with
  | nil => exact .inl (by simpa only [hqueue] using h)
  | cons first rest =>
    simp only [hqueue, List.mem_append, List.mem_singleton] at h
    exact h.imp_right fun heq => by rw [heq]

theorem queue_release (h : task ∈ l.release.1.queue) : task ∈ l.queue := by
  unfold release at h
  cases hqueue : l.queue with
  | nil => simp [hqueue] at h
  | cons first rest =>
    simp only [hqueue] at h
    exact List.mem_cons_of_mem first h

theorem Tidy.release (tidy : l.Tidy) : l.release.1.Tidy := by
  refine ⟨(line_release l).symm ▸ tidy.distinct, fun hne => ?_, fun hclosed => ?_⟩
  · obtain ⟨waiting, hmem⟩ := List.exists_mem_of_ne_nil _ hne
    have hwaits : l.queue ≠ [] := List.ne_nil_of_mem (queue_release hmem)
    obtain ⟨first, rest, hqueue⟩ := List.exists_cons_of_ne_nil hwaits
    simpa only [Limit.release, hqueue] using tidy.exhausted hwaits
  · refine List.eq_nil_iff_forall_not_mem.mpr fun waiting hmem => ?_
    have hnil := tidy.shut ((closed_release l).symm.trans hclosed)
    exact List.not_mem_nil (hnil ▸ queue_release hmem)

/-! ### Leaving the line -/

@[simp] theorem line_withdraw (l : Limit) (task : TaskId) :
    (l.withdraw task).1.line = l.line.erase task := by
  unfold withdraw
  split
  · next h =>
    rw [line_release, line, line, List.erase_append, if_pos (List.contains_iff_mem.mp h)]
  · next h =>
    rw [line, line, List.erase_append, if_neg fun hmem => h (List.contains_iff_mem.mpr hmem)]

@[simp] theorem closed_withdraw (l : Limit) (task : TaskId) :
    (l.withdraw task).1.closed = l.closed := by
  unfold withdraw
  split
  · exact closed_release _
  · rfl

theorem length_erase_granted (h : task ∈ l.granted) :
    (l.granted.erase task).length + 1 = l.granted.length := by
  rw [List.length_erase_of_mem h]
  exact Nat.succ_pred_eq_of_pos (List.length_pos_of_mem h)

theorem atHand_withdraw (l : Limit) (task : TaskId) :
    (l.withdraw task).1.atHand = l.atHand := by
  unfold withdraw
  split
  · next h =>
    have hone := length_erase_granted (List.contains_iff_mem.mp h)
    rw [atHand_release, atHand, atHand]
    dsimp only
    omega
  · rfl

/-- Whoever has a permit granted had it before, or is to be woken. -/
theorem granted_withdraw (h : task' ∈ (l.withdraw task).1.granted) :
    task' ∈ l.granted ∨ (l.withdraw task).2 = some task' := by
  unfold withdraw at h ⊢
  split at h
  · next hmem =>
    rw [if_pos hmem]
    exact (granted_release h).imp_left List.mem_of_mem_erase
  · exact .inl h

/-- Nobody is woken by a limit that is closed. -/
theorem Tidy.withdraw_of_closed (tidy : l.Tidy) (h : l.closed = true) (task : TaskId) :
    (l.withdraw task).2 = none := by
  unfold Limit.withdraw Limit.release
  rw [tidy.shut h]
  split <;> rfl

/-- A limit from which one task leaves the line. -/
theorem Tidy.erase (tidy : l.Tidy) (line : l'.line = l.line.erase task)
    (queue : l'.queue ⊆ l.queue) (available : l'.available ≤ l.available)
    (closed : l'.closed = l.closed) : l'.Tidy where
  distinct := line ▸ tidy.distinct.erase task
  exhausted hne := by
    obtain ⟨waiting, hmem⟩ := List.exists_mem_of_ne_nil _ hne
    exact Nat.le_zero.mp (tidy.exhausted (List.ne_nil_of_mem (queue hmem)) ▸ available)
  shut hclosed := by
    have hnil := tidy.shut (closed ▸ hclosed)
    exact List.subset_nil.mp (hnil ▸ queue)

theorem Tidy.withdraw (tidy : l.Tidy) (task : TaskId) : (l.withdraw task).1.Tidy := by
  have hline := line_withdraw l task
  unfold Limit.withdraw at hline ⊢
  split
  · next h =>
    have hone : Limit.line { l with granted := l.granted.erase task } = l.line.erase task := by
      rw [line, line, List.erase_append, if_pos (List.contains_iff_mem.mp h)]
    exact Tidy.release (tidy.erase hone (List.Subset.refl _) (Nat.le_refl _) rfl)
  · next h =>
    rw [if_neg h] at hline
    exact tidy.erase hline (List.erase_subset) (Nat.le_refl _) rfl

/-- A task that has no answer yet has no permit granted, none is available, and the limit is open. -/
theorem of_admit?_eq_none (h : l.admit? task = none) :
    l.closed = false ∧ task ∉ l.granted ∧ l.available = 0 := by
  unfold admit? at h
  split at h
  · contradiction
  split at h
  · contradiction
  split at h
  · contradiction
  · next hclosed hgranted havailable =>
    exact ⟨Bool.eq_false_iff.mpr hclosed, fun hmem => hgranted (List.contains_iff_mem.mpr hmem),
      Nat.eq_zero_of_not_pos havailable⟩

/-- Only a limit that is closed refuses a task, which then leaves the line. -/
theorem of_admit?_eq_false (h : l.admit? task = some (false, l')) :
    l.closed = true ∧ l' = (l.withdraw task).1 := by
  unfold admit? at h
  split at h
  · next hclosed =>
    cases h
    exact ⟨hclosed, rfl⟩
  split at h
  · cases h
  split at h <;> cases h

/-- A task that is let in leaves the line and takes one permit from those at hand. -/
structure Admits (l : Limit) (task : TaskId) (l' : Limit) : Prop where
  tidy : l'.Tidy
  line : l'.line = l.line.erase task
  atHand : l'.atHand + 1 = l.atHand
  closed : l'.closed = l.closed
  granted : l'.granted ⊆ l.granted

theorem Tidy.admits (tidy : l.Tidy) (h : l.admit? task = some (true, l')) : l.Admits task l' := by
  unfold admit? at h
  split at h
  · cases h
  split at h
  · next hclosed hgranted =>
    cases h
    have hmem : task ∈ l.granted := List.contains_iff_mem.mp hgranted
    have hline : Limit.line { l with granted := l.granted.erase task } = l.line.erase task := by
      rw [line, line, List.erase_append, if_pos hmem]
    have hone := length_erase_granted hmem
    refine ⟨tidy.erase hline (List.Subset.refl _) (Nat.le_refl _) rfl, hline, ?_, rfl,
      List.erase_subset⟩
    unfold Limit.atHand
    dsimp only
    omega
  split at h
  · next hclosed hgranted havailable =>
    cases h
    -- while a permit is available nobody waits, so the task does not stand in line
    have hnil : l.queue = [] := by
      by_contra hne
      rw [tidy.exhausted hne] at havailable
      exact Nat.lt_irrefl 0 havailable
    have hline : Limit.line { l with available := l.available - 1 } = l.line.erase task := by
      rw [line, line, hnil, List.append_nil, List.erase_of_not_mem]
      exact fun hmem => hgranted (List.contains_iff_mem.mpr hmem)
    refine ⟨tidy.erase hline (List.Subset.refl _) (Nat.sub_le _ _) rfl, hline, ?_, rfl,
      List.Subset.refl _⟩
    unfold Limit.atHand
    dsimp only
    omega
  · contradiction

/-! ### Joining the line, and closing -/

@[simp] theorem line_enqueue (l : Limit) (task : TaskId) :
    (l.enqueue task).line = l.line ++ [task] :=
  (List.append_assoc _ _ _).symm

/-- A task without an answer joins the line. -/
theorem Tidy.enqueue (tidy : l.Tidy) (hnew : task ∉ l.line) (h : l.admit? task = none) :
    (l.enqueue task).Tidy := by
  obtain ⟨hopen, -, havailable⟩ := of_admit?_eq_none h
  refine ⟨?_, fun _ => havailable, fun hclosed => ?_⟩
  · rw [line_enqueue, List.nodup_append]
    refine ⟨tidy.distinct, List.nodup_singleton task, fun t ht t' ht' => ?_⟩
    rintro rfl
    exact hnew (List.mem_singleton.mp ht' ▸ ht)
  · exact absurd (hopen.symm.trans hclosed) Bool.false_ne_true

theorem Tidy.close (tidy : l.Tidy) : l.close.1.Tidy where
  distinct := by
    have hsub : (l.granted ++ []).Sublist l.line :=
      (List.Sublist.refl _).append (List.nil_sublist _)
    exact tidy.distinct.sublist hsub
  exhausted h := absurd rfl h
  shut _ := rfl

end Orchestra.Limit
