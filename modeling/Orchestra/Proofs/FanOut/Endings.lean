import Mathlib.Data.List.Nodup
import Orchestra.FanOut
import Orchestra.Proofs.World.Later

/-!
# The order of completions

Children end one after the other, and a fan-out takes the completion that comes first among those it
can see. Completions are ordered by the place of the ending, and by declared position where the
places agree. However many looks it takes, the completions taken are exactly those of the children
that have ended by the last look, in this order.
-/

namespace Orchestra

/-! ### The earliest completion -/

/-- One completion with its place comes before another. -/
def Before (a b : Nat × Completion) : Prop :=
  a.1 < b.1 ∨ a.1 = b.1 ∧ a.2.index < b.2.index

theorem Before.trans {a b c : Nat × Completion} (hab : Before a b) (hbc : Before b c) :
    Before a c := by
  unfold Before at *
  omega

namespace World

variable {w w' : World}

/-- One more completion does not change which one is least if another one comes before it. -/
theorem least_insert {l l' : List (Nat × Completion)} {b y z : Nat × Completion}
    (hperm : l'.Perm (z :: l)) (hy : y ∈ l) (hyz : Before y z)
    (hleast : b ∈ l ∧ ∀ c ∈ l, c = b ∨ Before b c) : b ∈ l' ∧ ∀ c ∈ l', c = b ∨ Before b c := by
  obtain ⟨hmem, hleast⟩ := hleast
  refine ⟨hperm.mem_iff.mpr (List.mem_cons_of_mem z hmem), fun c hc => ?_⟩
  rcases List.mem_cons.mp (hperm.mem_iff.mp hc) with rfl | hc
  · rcases hleast y hy with rfl | hby
    · exact .inr hyz
    · exact .inr (hby.trans hyz)
  · exact hleast c hc

/-- The earliest of completions in declared order is one of them and comes before all others. -/
theorem foldl_earlier (f : Pending → Option (Nat × Completion)) (pending : List Pending)
    (best : Option (Nat × Completion))
    (hsorted : (best.toList ++ pending.filterMap f).Pairwise (·.2.index < ·.2.index)) :
    match pending.foldl (fun best p => earlier best (f p)) best with
    | none => best.toList ++ pending.filterMap f = []
    | some b => b ∈ best.toList ++ pending.filterMap f ∧
        ∀ c ∈ best.toList ++ pending.filterMap f, c = b ∨ Before b c := by
  induction pending generalizing best with
  | nil => cases best <;> simp
  | cons p rest ih =>
    rw [List.foldl_cons]
    cases hp : f p with
    | none =>
      have heq : earlier best none = best := by cases best <;> rfl
      rw [List.filterMap_cons_none hp] at hsorted ⊢
      rw [heq]
      exact ih best hsorted
    | some x =>
      rw [List.filterMap_cons_some hp] at hsorted ⊢
      cases best with
      | none => exact ih (some x) hsorted
      | some a =>
        simp only [Option.toList_some, List.cons_append, List.nil_append] at hsorted ⊢
        obtain ⟨ha, hx⟩ := List.pairwise_cons.mp hsorted
        by_cases hlt : x.1 < a.1
        · have hbest := ih (some x) hx
          rw [show earlier (some a) (some x) = some x from if_pos hlt]
          revert hbest
          split
          · simp
          · exact least_insert .rfl List.mem_cons_self (.inl hlt)
        · have hsorted' := hsorted.sublist ((List.sublist_cons_self x (rest.filterMap f)).cons_cons a)
          have hbest := ih (some a) hsorted'
          have hbefore : Before a x := by
            have hax := ha x List.mem_cons_self
            unfold Before
            omega
          rw [show earlier (some a) (some x) = some a from if_neg hlt]
          revert hbest
          split
          · simp
          · exact least_insert (.swap x a _) List.mem_cons_self hbefore

/-- A completion stands under the declared position of its child, with the outcome of that. -/
theorem completion?_eq_some {p : Pending} {place : Nat} {c : Completion} :
    w.completion? p = some (place, c) ↔
      p.index = c.index ∧ w.ended? p.id = some (place, c.outcome) := by
  rw [completion?_eq, Option.map_eq_some_iff]
  constructor
  · rintro ⟨e, he, heq⟩
    cases heq
    exact ⟨rfl, he⟩
  · rintro ⟨hindex, he⟩
    refine ⟨_, he, ?_⟩
    rw [hindex]

theorem completion?_index {p : Pending} {x : Nat × Completion} (h : w.completion? p = some x) :
    x.2.index = p.index :=
  (completion?_eq_some.mp h).1.symm

/-- A completion remains. -/
theorem Later.completion? (h : w.Later w') {p : Pending} {x : Nat × Completion}
    (hx : w.completion? p = some x) : w'.completion? p = some x := by
  rw [completion?_eq] at hx ⊢
  obtain ⟨e, he, rfl⟩ := Option.map_eq_some_iff.mp hx
  rw [h.ended p.id e he]
  rfl

theorem pairwise_completions {pending : List Pending}
    (hsorted : pending.Pairwise (·.index < ·.index)) :
    (pending.filterMap w.completion?).Pairwise (·.2.index < ·.2.index) := by
  refine hsorted.filterMap w.completion? fun p q hpq x hx y hy => ?_
  rw [completion?_index hx, completion?_index hy]
  exact hpq

/-- The first completion seen is that of the pending child that ended first. -/
theorem firstCompletion?_eq_some {pending : List Pending}
    (hsorted : pending.Pairwise (·.index < ·.index)) {c : Completion}
    (h : w.firstCompletion? pending = some c) :
    ∃ p ∈ pending, ∃ place, w.completion? p = some (place, c) ∧
      ∀ q ∈ pending, ∀ x, w.completion? q = some x → x = (place, c) ∨ Before (place, c) x := by
  have hfold := foldl_earlier w.completion? pending none (pairwise_completions hsorted)
  simp only [Option.toList_none, List.nil_append] at hfold
  obtain ⟨⟨place, c'⟩, hc, rfl⟩ := Option.map_eq_some_iff.mp h
  rw [hc] at hfold
  obtain ⟨hmem, hleast⟩ := hfold
  obtain ⟨p, hp, hcp⟩ := List.mem_filterMap.mp hmem
  exact ⟨p, hp, place, hcp, fun q hq x hx => hleast x (List.mem_filterMap.mpr ⟨q, hq, hx⟩)⟩

end World

/-! ### Taking completions -/

namespace FanOut

variable {f : FanOut}

/-- The pending children stand in declared order. -/
def Sorted (f : FanOut) : Prop :=
  f.pending.Pairwise (·.index < ·.index)

theorem Sorted.take (h : f.Sorted) (index : Nat) : (f.take index).Sorted :=
  h.filter _

/-- No two pending children have one position. -/
theorem Sorted.nodup_index (h : f.Sorted) : (f.pending.map Pending.index).Nodup :=
  (List.pairwise_map.mpr h).imp Nat.ne_of_lt

/-- Taking a completion removes one child from those that are pending. -/
theorem take_perm (h : f.Sorted) {p : Pending} (hp : p ∈ f.pending) :
    f.pending.Perm (p :: (f.take p.index).pending) := by
  have hnodup : f.pending.Nodup := h.nodup_index.of_map
  have hsame (q : Pending) (hq : q ∈ f.pending) : (q.index != p.index) = (q != p) := by
    have hiff : q.index = p.index ↔ q = p :=
      ⟨fun heq => List.inj_on_of_nodup_map h.nodup_index hq hp heq, congrArg Pending.index⟩
    rw [Bool.eq_iff_iff, bne_iff_ne, bne_iff_ne]
    exact not_congr hiff
  have hfilter : (f.take p.index).pending = f.pending.erase p := by
    rw [hnodup.erase_eq_filter]
    exact List.filter_congr hsame
  rw [hfilter]
  exact List.perm_cons_erase hp

/-- The child whose completion is seen first, and those that are left, are those that were pending. -/
theorem take_first (h : f.Sorted) {w : World} {c : Completion}
    (hfirst : w.firstCompletion? f.pending = some c) :
    ∃ p place, f.pending.Perm (p :: (f.take c.index).pending) ∧ p.index = c.index ∧
      w.ended? p.id = some (place, c.outcome) := by
  obtain ⟨p, hp, place, hcp, -⟩ := World.firstCompletion?_eq_some h hfirst
  obtain ⟨hindex, hended⟩ := World.completion?_eq_some.mp hcp
  exact ⟨p, place, hindex ▸ f.take_perm h hp, hindex, hended⟩

/-- Taking the first completion leaves one child less. -/
theorem outstanding_take (h : f.Sorted) {w : World} {c : Completion}
    (hfirst : w.firstCompletion? f.pending = some c) :
    f.outstanding = (f.take c.index).outstanding + 1 := by
  obtain ⟨p, -, hperm, -⟩ := take_first h hfirst
  exact hperm.length_eq

end FanOut

namespace World

variable {w w' : World}

/-- The completions in a list, with their places, are those of the pending children that have ended,
in their order. -/
structure Completes (w : World) (pending : List Pending) (taken : List (Nat × Completion)) :
    Prop where
  perm : taken.Perm (pending.filterMap w.completion?)
  ordered : taken.Pairwise Before

/-- Where no pending child has ended, nothing is taken. -/
theorem completes_nil {pending : List Pending} (h : ∀ p ∈ pending, w.ended? p.id = none) :
    w.Completes pending [] where
  perm := by
    have hnil : pending.filterMap w.completion? = [] :=
      List.filterMap_eq_nil_iff.mpr fun p hp => completion?_eq_none.mpr (h p hp)
    rw [hnil]
  ordered := .nil

/-- The first completion seen comes before those of the remaining children, whenever they end. -/
theorem completes_cons {f : FanOut} (hsorted : f.Sorted) {c : Completion}
    (hfirst : w.firstCompletion? f.pending = some c) :
    ∃ place, ∀ w', w.Later w' → ∀ taken, w'.Completes (f.take c.index).pending taken →
      w'.Completes f.pending ((place, c) :: taken) := by
  obtain ⟨p, hp, place, hcp, hleast⟩ := firstCompletion?_eq_some hsorted hfirst
  have hindex : c.index = p.index := completion?_index hcp
  have hperm : f.pending.Perm (p :: (f.take c.index).pending) := hindex ▸ f.take_perm hsorted hp
  refine ⟨place, fun w' hlater taken hrest =>
    ⟨?_, List.pairwise_cons.mpr ⟨fun x hx => ?_, hrest.ordered⟩⟩⟩
  · calc ((place, c) :: taken).Perm
          ((place, c) :: (f.take c.index).pending.filterMap w'.completion?) := hrest.perm.cons _
      _ = (p :: (f.take c.index).pending).filterMap w'.completion? :=
          (List.filterMap_cons_some (hlater.completion? hcp)).symm
      _ |>.Perm (f.pending.filterMap w'.completion?) := (hperm.filterMap _).symm
  · obtain ⟨q, hq, hxq⟩ := List.mem_filterMap.mp (hrest.perm.mem_iff.mp hx)
    obtain ⟨hqf, hne⟩ := List.mem_filter.mp hq
    cases hold : w.completion? q with
    | some y =>
      have hyx : y = x := Option.some.inj ((hlater.completion? hold).symm.trans hxq)
      subst hyx
      rcases hleast q hqf y hold with heq | hbefore
      · rw [← completion?_index hold, heq] at hne
        simp at hne
      · exact hbefore
    | none =>
      -- whoever ends later has a later place
      rw [completion?_eq] at hxq
      obtain ⟨e', he', rfl⟩ := Option.map_eq_some_iff.mp hxq
      obtain ⟨-, he⟩ := completion?_eq_some.mp hcp
      exact .inl (hlater.place p.id q.id _ e' he (completion?_eq_none.mp hold) he')

/-- The completions to be seen at a moment can be listed. -/
theorem exists_completes (w : World) {f : FanOut} (hsorted : f.Sorted) :
    ∃ taken, w.Completes f.pending taken := by
  induction hn : f.outstanding generalizing f with
  | zero =>
    refine ⟨[], completes_nil fun p hp => ?_⟩
    rw [List.eq_nil_of_length_eq_zero hn] at hp
    contradiction
  | succ n ih =>
    cases hfirst : w.firstCompletion? f.pending with
    | none => exact ⟨[], completes_nil (firstCompletion?_eq_none.mp hfirst)⟩
    | some c =>
      have hlength : (f.take c.index).outstanding = n := by
        have htaken := FanOut.outstanding_take hsorted hfirst
        omega
      obtain ⟨taken, hrest⟩ := ih (hsorted.take c.index) hlength
      obtain ⟨place, hcons⟩ := completes_cons hsorted hfirst
      exact ⟨(place, c) :: taken, hcons w (.refl w) taken hrest⟩

end World

end Orchestra
