import Orchestra.FanOut.Race
import Orchestra.Proofs.FanOut.Collecting
import Orchestra.Proofs.FanOut.Results

/-!
# The turns of a race

A race goes on in turns. It waits until a child has ended and then takes every completion there is,
ranked by declared position, before it waits again. No time passes between the ending of a child
that is waited for and the end of the turn that sees it. So the first completion of a kind, in the
order in which a race looks at them, is that of a child that ended at the earliest instant, was seen
in the earliest turn, and has the least position among those.
-/

namespace Orchestra

namespace History

variable {h : History}

/-- The child at a position is the first that ends in a certain way, as a race with the given
exchanges sees it at moment `t`. -/
structure SeenFirst (h : History) (es : List Exchange) (pending : List Pending)
    (p : Outcome → Prop) (t i : Nat) (o : Outcome) : Prop where
  ended : ∃ q ∈ pending, q.index = i ∧ ∃ place, h.ended? t q.id = some (place, o)
  holds : p o
  /-- A turn ends at moment `t`, for no child is left that has ended and was not taken. -/
  turn : (∃ x ∈ es, x.endsTurn ∧ x.moment = t) ∨ ∀ q ∈ pending, (h.ended? t q.id).isSome
  /-- When earlier turns ended, no child had ended so, -/
  earlier : ∀ x ∈ es, x.endsTurn → x.moment < t →
    ∀ q ∈ pending, ∀ e, h.ended? x.moment q.id = some e → ¬ p e.2
  /-- nor does any child end so at an earlier instant, -/
  instant : ∀ q ∈ pending, ∀ k e, h.ended? k q.id = some e → p e.2 → h.clock t ≤ h.clock k
  /-- and of those that have ended so by the end of the turn none has a lower position. -/
  index : ∀ q ∈ pending, ∀ e, h.ended? t q.id = some e → p e.2 → i ≤ q.index

/-- Exchanges that end a turn no earlier do not matter, -/
theorem SeenFirst.append_later {es es' : List Exchange} {pending : List Pending}
    {p : Outcome → Prop} {t i : Nat} {o : Outcome} (hfirst : h.SeenFirst es pending p t i o)
    (hes' : ∀ x ∈ es', x.endsTurn → t ≤ x.moment) : h.SeenFirst (es ++ es') pending p t i o :=
  { hfirst with
    turn := hfirst.turn.imp_left fun ⟨x, hx, hends⟩ => ⟨x, List.mem_append_left es' hx, hends⟩
    earlier := fun x hx hends hlt => by
      rcases List.mem_append.mp hx with hx | hx
      · exact hfirst.earlier x hx hends hlt
      · exact absurd hlt (Nat.not_lt_of_le (hes' x hx hends)) }

/-- nor do those that end no turn at all. -/
theorem SeenFirst.append {es es' : List Exchange} {pending : List Pending} {p : Outcome → Prop}
    {t i : Nat} {o : Outcome} (hfirst : h.SeenFirst es pending p t i o)
    (hes' : ∀ x ∈ es', x.endsTurn = false) : h.SeenFirst (es ++ es') pending p t i o :=
  hfirst.append_later fun x hx hends => by
    rw [hes' x hx] at hends
    contradiction

/-- One turn of a race. It begins no earlier than moment `t₀` and ends at moment `t`; by then it has
taken every completion there is, and no time has passed since the first child ended. -/
structure Turn (h : History) (t₀ : Nat) (f : FanOut) (es : List Exchange)
    (new : List (Nat × Completion)) (t : Nat) (f₁ : FanOut) : Prop where
  le : t₀ ≤ t
  sorted : f.Sorted
  completes : (h.world t).Completes f.pending new
  pending : ∀ q, q ∈ f₁.pending ↔ q ∈ f.pending ∧ h.ended? t q.id = none
  prompt : ∀ q ∈ f.pending, ∀ k, (h.ended? k q.id).isSome → h.clock t ≤ h.clock k
  looks : ∀ x ∈ es, x.endsTurn → x.moment = t
  ends : (∃ x ∈ es, x.endsTurn ∧ x.moment = t) ∨ ∀ q ∈ f.pending, (h.ended? t q.id).isSome

/-- The turns of a race, from a moment at which no pending child has ended: the exchanges, the
completions in the order in which they are looked at, and the end of the last turn. -/
inductive Turns (h : History) :
    Nat → FanOut → List Exchange → List Completion → Nat → FanOut → Prop
  | nil {t : Nat} {f : FanOut} (unended : ∀ q ∈ f.pending, h.ended? t q.id = none) :
      Turns h t f [] [] t f
  | cons {t₀ t t' : Nat} {f f₁ f' : FanOut} {es es' : List Exchange}
      {new : List (Nat × Completion)} {cs : List Completion} (le : t₀ ≤ t) (sorted : f.Sorted)
      (completes : (h.world t).Completes f.pending new)
      (pending : ∀ q, q ∈ f₁.pending ↔ q ∈ f.pending ∧ h.ended? t q.id = none)
      (prompt : ∀ q ∈ f.pending, ∀ k, (h.ended? k q.id).isSome → h.clock t ≤ h.clock k)
      (looks : ∀ x ∈ es, x.endsTurn → x.moment = t)
      (ends : (∃ x ∈ es, x.endsTurn ∧ x.moment = t) ∨
        ∀ q ∈ f.pending, (h.ended? t q.id).isSome)
      (rest : Turns h t f₁ es' cs t' f') :
      Turns h t₀ f (es ++ es') (Race.ranked (new.map Prod.snd) ++ cs) t' f'

/-- A completion is taken exactly if a pending child has ended so. -/
theorem mem_completes {t : Nat} {pending : List Pending} {new : List (Nat × Completion)}
    (completes : (h.world t).Completes pending new) {c : Completion} :
    c ∈ new.map Prod.snd ↔
      ∃ q ∈ pending, q.index = c.index ∧ ∃ place, h.ended? t q.id = some (place, c.outcome) := by
  rw [List.mem_map]
  constructor
  · rintro ⟨⟨place, c'⟩, hmem, rfl⟩
    obtain ⟨q, hq, hx⟩ := List.mem_filterMap.mp (completes.perm.mem_iff.mp hmem)
    obtain ⟨hindex, hended⟩ := World.completion?_eq_some.mp hx
    exact ⟨q, hq, hindex, place, hended⟩
  · rintro ⟨q, hq, hindex, place, hended⟩
    refine ⟨(place, c), completes.perm.mem_iff.mpr (List.mem_filterMap.mpr ⟨q, hq, ?_⟩), rfl⟩
    exact World.completion?_eq_some.mpr ⟨hindex, hended⟩

/-- A batch is made of the completions taken. -/
theorem mem_batch {t : Nat} {pending : List Pending} {new : List (Nat × Completion)}
    (completes : (h.world t).Completes pending new) {c : Completion} :
    c ∈ Race.ranked (new.map Prod.snd) ↔
      ∃ q ∈ pending, q.index = c.index ∧ ∃ place, h.ended? t q.id = some (place, c.outcome) := by
  rw [Race.ranked, List.mem_mergeSort, mem_completes completes]

/-- A batch is ranked by position. -/
theorem pairwise_batch {f : FanOut} {t : Nat} {new : List (Nat × Completion)} (hsorted : f.Sorted)
    (completes : (h.world t).Completes f.pending new) :
    (Race.ranked (new.map Prod.snd)).Pairwise (·.index < ·.index) := by
  have hpairwise : ((f.pending.filterMap (h.world t).completion?).map Prod.snd).Pairwise
      (·.index < ·.index) := List.pairwise_map.mpr (World.pairwise_completions hsorted)
  have hranked : Race.ranked (new.map Prod.snd) = _ :=
    mergeSort_eq_of_perm Completion.index (completes.perm.map Prod.snd) hpairwise
  rw [hranked]
  exact hpairwise

/-- The completions are those of the pending children that have ended by a moment, none of them
twice. -/
structure Exhausts (h : History) (pending : List Pending) (t : Nat) (cs : List Completion) :
    Prop where
  mem_iff : ∀ c, c ∈ cs ↔
    ∃ q ∈ pending, q.index = c.index ∧ ∃ place, h.ended? t q.id = some (place, c.outcome)
  nodup : (cs.map Completion.index).Nodup

namespace Exhausts

variable {t e : Nat} {f f₁ : FanOut} {cs cs' : List Completion}

theorem of_completes (hsorted : f.Sorted) {new : List (Nat × Completion)}
    (completes : (h.world t).Completes f.pending new) :
    h.Exhausts f.pending t (new.map Prod.snd) where
  mem_iff _ := mem_completes completes
  nodup := by
    have hpairwise : ((f.pending.filterMap (h.world t).completion?).map Prod.snd).Pairwise
        (·.index < ·.index) := List.pairwise_map.mpr (World.pairwise_completions hsorted)
    refine ((completes.perm.map Prod.snd).map Completion.index).nodup_iff.mpr ?_
    exact (List.pairwise_map.mpr hpairwise).imp Nat.ne_of_lt

theorem ranked (hcs : h.Exhausts f.pending t cs) : h.Exhausts f.pending t (Race.ranked cs) where
  mem_iff c := List.mem_mergeSort.trans (hcs.mem_iff c)
  nodup := ((List.mergeSort_perm cs _).map Completion.index).nodup_iff.mpr hcs.nodup

/-- Completions of one moment and those of the children that are left, by a later one, make up all
that there are. -/
theorem append (hcs : h.Exhausts f.pending t cs) (hcs' : h.Exhausts f₁.pending e cs')
    (hsorted : f.Sorted) (hle : t ≤ e)
    (hpending : ∀ q, q ∈ f₁.pending ↔ q ∈ f.pending ∧ h.ended? t q.id = none) :
    h.Exhausts f.pending e (cs ++ cs') where
  mem_iff c := by
    rw [List.mem_append, hcs.mem_iff, hcs'.mem_iff]
    constructor
    · rintro (⟨q, hq, hindex, place, hended⟩ | ⟨q, hq, hindex, place, hended⟩)
      · exact ⟨q, hq, hindex, place, (h.later_of_le hle).ended _ _ hended⟩
      · exact ⟨q, ((hpending q).mp hq).1, hindex, place, hended⟩
    · rintro ⟨q, hq, hindex, place, hended⟩
      cases hold : h.ended? t q.id with
      | none => exact .inr ⟨q, (hpending q).mpr ⟨hq, hold⟩, hindex, place, hended⟩
      | some x =>
        have hsame : h.ended? e q.id = some x := (h.later_of_le hle).ended q.id x hold
        rw [hended] at hsame
        cases hsame
        exact .inl ⟨q, hq, hindex, place, hold⟩
  nodup := by
    rw [List.map_append, List.nodup_append]
    refine ⟨hcs.nodup, hcs'.nodup, fun i hi j hj => ?_⟩
    rintro rfl
    obtain ⟨c, hc, hci⟩ := List.mem_map.mp hi
    obtain ⟨c', hc', hci'⟩ := List.mem_map.mp hj
    obtain ⟨q, hq, hindex, place, hended⟩ := (hcs.mem_iff c).mp hc
    obtain ⟨q', hq', hindex', -⟩ := (hcs'.mem_iff c').mp hc'
    obtain ⟨hq'f, hnone⟩ := (hpending q').mp hq'
    have hsame : q' = q := by
      refine List.inj_on_of_nodup_map hsorted.nodup_index hq'f hq ?_
      rw [hindex', hindex, hci, hci']
    rw [hsame, hended] at hnone
    contradiction

/-- For children that have just been started these are their results. -/
theorem lists {m n : Nat} (hcs : h.Exhausts f.pending e cs) (hstart : f.pending = h.startedAt m n) :
    ((h.world e).endings (h.childAt m)).results.Lists n cs := by
  refine .of_mem_iff hcs.nodup fun c => (hcs.mem_iff c).trans ?_
  rw [hstart]
  constructor
  · rintro ⟨q, hq, hindex, place, hended⟩
    obtain ⟨i, hi, rfl⟩ := List.mem_map.mp hq
    rw [← hindex]
    exact ⟨List.mem_range.mp hi, Option.map_eq_some_iff.mpr ⟨_, hended, rfl⟩⟩
  · rintro ⟨hi, hresult⟩
    obtain ⟨⟨place, o⟩, hended, rfl⟩ := Option.map_eq_some_iff.mp hresult
    exact ⟨⟨c.index, h.childAt m c.index⟩,
      List.mem_map.mpr ⟨c.index, List.mem_range.mpr hi, rfl⟩, rfl, place, hended⟩

end Exhausts

namespace Turns

variable {t t' : Nat} {f f' : FanOut} {es : List Exchange} {cs : List Completion}

theorem le (turns : h.Turns t f es cs t' f') : t ≤ t' := by
  induction turns with
  | nil => exact Nat.le_refl _
  | cons le _ _ _ _ _ _ _ ih => exact Nat.le_trans le ih

/-- No turn ends before the turns begin. -/
theorem moment_le (turns : h.Turns t f es cs t' f') :
    ∀ x ∈ es, x.endsTurn → t ≤ x.moment := by
  induction turns with
  | nil =>
    intro x hx
    contradiction
  | cons le _ _ _ _ looks _ _ ih =>
    intro x hx hends
    rcases List.mem_append.mp hx with hx | hx
    · rw [looks x hx hends]
      exact le
    · exact Nat.le_trans le (ih x hx hends)

/-- Whoever is pending after the turns has not ended by then. -/
theorem mem_pending (turns : h.Turns t f es cs t' f') :
    ∀ q, q ∈ f'.pending ↔ q ∈ f.pending ∧ h.ended? t' q.id = none := by
  induction turns with
  | nil unended => exact fun q => ⟨fun hq => ⟨hq, unended q hq⟩, And.left⟩
  | cons le _ _ pending _ _ _ rest ih =>
    intro q
    rw [ih q, pending q]
    constructor
    · rintro ⟨⟨hq, -⟩, hnone⟩
      exact ⟨hq, hnone⟩
    · rintro ⟨hq, hnone⟩
      exact ⟨⟨hq, ended?_eq_none rest.le hnone⟩, hnone⟩

/-- The completions looked at are those of the children that have ended by the last turn. -/
theorem exhausts (turns : h.Turns t f es cs t' f') : h.Exhausts f.pending t' cs := by
  induction turns with
  | nil unended =>
    refine ⟨fun c => ⟨fun hc => absurd hc List.not_mem_nil, ?_⟩, List.nodup_nil⟩
    rintro ⟨q, hq, -, place, hended⟩
    rw [unended q hq] at hended
    contradiction
  | cons le sorted completes pending prompt looks ends rest ih =>
    exact (Exhausts.of_completes sorted completes).ranked.append ih sorted rest.le pending

/-- The completions looked at in the turns and those taken afterwards are all there are. -/
theorem lists_append {m n e : Nat} {new : List (Nat × Completion)}
    (turns : h.Turns t f es cs t' f') (hsorted : f.Sorted) (hsorted' : f'.Sorted)
    (hstart : f.pending = h.startedAt m n) (hle : t' ≤ e)
    (completes : (h.world e).Completes f'.pending new) :
    ((h.world e).endings (h.childAt m)).results.Lists n (cs ++ new.map Prod.snd) :=
  (turns.exhausts.append (.of_completes hsorted' completes) hsorted hle turns.mem_pending).lists hstart

/-- An element of two lists in a row is in the first one, or it follows all of that. -/
theorem append_eq_append_cons {α : Type} {l l' before after : List α} {a : α}
    (heq : l ++ l' = before ++ a :: after) :
    (∃ after', l = before ++ a :: after') ∨
      ∃ before', before = l ++ before' ∧ l' = before' ++ a :: after := by
  rcases List.append_eq_append_iff.mp heq with ⟨before', hbefore, hrest⟩ | ⟨rest, hl, hrest⟩
  · exact .inr ⟨before', hbefore, hrest⟩
  · cases rest with
    | nil =>
      rw [List.append_nil] at hl
      exact .inr ⟨[], by rw [hl, List.append_nil], hrest.symm⟩
    | cons b rest =>
      cases hrest
      exact .inl ⟨rest, hl⟩

end Turns

namespace Turn

variable {t₀ t t' : Nat} {f f₁ f' : FanOut} {es es' : List Exchange} {cs : List Completion}
variable {new : List (Nat × Completion)} {p : Outcome → Prop}

/-- Exchanges that end no turn belong to the turn that they follow. -/
theorem append (turn : h.Turn t₀ f es new t f₁) (hes' : ∀ x ∈ es', x.endsTurn = false) :
    h.Turn t₀ f (es ++ es') new t f₁ :=
  { turn with
    looks := fun x hx hends => by
      rcases List.mem_append.mp hx with hx | hx
      · exact turn.looks x hx hends
      · rw [hes' x hx] at hends
        contradiction
    ends := turn.ends.imp_left fun ⟨x, hx, hends⟩ => ⟨x, List.mem_append_left es' hx, hends⟩ }

/-- A turn comes before those that follow it. -/
theorem cons (turn : h.Turn t₀ f es new t f₁) (rest : h.Turns t f₁ es' cs t' f') :
    h.Turns t₀ f (es ++ es') (Race.ranked (new.map Prod.snd) ++ cs) t' f' :=
  .cons turn.le turn.sorted turn.completes turn.pending turn.prompt turn.looks turn.ends rest

theorem unended (turn : h.Turn t₀ f es new t f₁) : ∀ q ∈ f₁.pending, h.ended? t q.id = none :=
  fun q hq => ((turn.pending q).mp hq).2

/-- A single turn. -/
theorem turns (turn : h.Turn t₀ f es new t f₁) :
    h.Turns t₀ f es (Race.ranked (new.map Prod.snd)) t f₁ := by
  have hturns := turn.cons (.nil turn.unended)
  rw [List.append_nil, List.append_nil] at hturns
  exact hturns

/-- Whoever has ended by the end of the turn is among its completions. -/
theorem mem_of_ended (turn : h.Turn t₀ f es new t f₁) {q : Pending} (hq : q ∈ f.pending)
    {e : Nat × Outcome} (he : h.ended? t q.id = some e) :
    (⟨q.index, e.2⟩ : Completion) ∈ Race.ranked (new.map Prod.snd) :=
  (mem_batch turn.completes).mpr ⟨q, hq, rfl, e.1, he⟩

/-- A turn accounts for everybody who is pending no more. -/
theorem accounted (turn : h.Turn t₀ f es new t f₁) :
    h.Accounted f.pending f₁.pending (Race.ranked (new.map Prod.snd)) := by
  intro q hq
  cases hold : h.ended? t q.id with
  | none => exact .inl ((turn.pending q).mpr ⟨hq, hold⟩)
  | some e => exact .inr ⟨_, turn.mem_of_ended hq hold, t, e.1, hold⟩

/-- If no completion of the turn is of a kind, whoever ends so is pending after it. -/
theorem pending_of_holds (turn : h.Turn t₀ f es new t f₁)
    (hnone : ∀ c ∈ Race.ranked (new.map Prod.snd), ¬ p c.outcome) {q : Pending}
    (hq : q ∈ f.pending) {k : Nat} {e : Nat × Outcome} (he : h.ended? k q.id = some e) (hp : p e.2) :
    q ∈ f₁.pending := by
  refine (turn.pending q).mpr ⟨hq, ?_⟩
  cases hold : h.ended? t q.id with
  | none => rfl
  | some e' =>
    have heq : e' = e := ended?_unique hold he
    exact absurd (heq ▸ hp) (hnone _ (turn.mem_of_ended hq hold))

/-- The first completion of a kind in a turn is that of the child that is seen first to end so. -/
theorem seenFirst (turn : h.Turn t₀ f es new t f₁) {before after : List Completion} {c : Completion}
    (hbatch : Race.ranked (new.map Prod.snd) = before ++ c :: after) (hc : p c.outcome)
    (hbefore : ∀ x ∈ before, ¬ p x.outcome) :
    h.SeenFirst es f.pending p t c.index c.outcome where
  ended := (mem_batch turn.completes).mp (hbatch ▸ List.mem_append_right before List.mem_cons_self)
  holds := hc
  turn := turn.ends
  earlier x hx hends hlt := by
    rw [turn.looks x hx hends] at hlt
    exact absurd hlt (Nat.lt_irrefl t)
  instant q hq k e he _ := turn.prompt q hq k (by rw [he]; rfl)
  index q hq e he hp := by
    have hmem := turn.mem_of_ended hq he
    rw [hbatch] at hmem
    rcases List.mem_append.mp hmem with hin | hin
    · exact absurd hp (hbefore _ hin)
    rcases List.mem_cons.mp hin with heq | hin
    · exact Nat.le_of_eq (congrArg Completion.index heq).symm
    · have hpairwise := pairwise_batch turn.sorted turn.completes
      rw [hbatch] at hpairwise
      exact Nat.le_of_lt ((List.pairwise_cons.mp (List.pairwise_append.mp hpairwise).2.1).1 _ hin)

/-- Whoever is seen first in later turns is seen first in all of them, if no child is seen to end so
in this one. -/
theorem seenFirst_later (turn : h.Turn t₀ f es new t f₁)
    (hnone : ∀ c ∈ Race.ranked (new.map Prod.snd), ¬ p c.outcome) {t₁ i : Nat} {o : Outcome}
    (hle : t ≤ t₁) (hfirst : h.SeenFirst es' f₁.pending p t₁ i o) :
    h.SeenFirst (es ++ es') f.pending p t₁ i o where
  ended := by
    obtain ⟨q, hq, hended⟩ := hfirst.ended
    exact ⟨q, ((turn.pending q).mp hq).1, hended⟩
  holds := hfirst.holds
  turn := by
    rcases hfirst.turn with ⟨x, hx, hends⟩ | hall
    · exact .inl ⟨x, List.mem_append_right es hx, hends⟩
    · refine .inr fun q hq => ?_
      cases hold : h.ended? t q.id with
      | none => exact hall q ((turn.pending q).mpr ⟨hq, hold⟩)
      | some e => exact isSome_ended? hle (by rw [hold]; rfl)
  earlier x hx hends hlt q hq e he hp := by
    rcases List.mem_append.mp hx with hx | hx
    · rw [turn.looks x hx hends] at he
      exact hnone _ (turn.mem_of_ended hq he) hp
    · exact hfirst.earlier x hx hends hlt q (turn.pending_of_holds hnone hq he hp) e he hp
  instant q hq k e he hp := hfirst.instant q (turn.pending_of_holds hnone hq he hp) k e he hp
  index q hq e he hp := hfirst.index q (turn.pending_of_holds hnone hq he hp) e he hp

end Turn

/-- The first completion of a kind is that of the child that is seen first to end so. -/
theorem Turns.seenFirst {t t' : Nat} {f f' : FanOut} {es : List Exchange} {cs : List Completion}
    (turns : h.Turns t f es cs t' f') {p : Outcome → Prop} {before after : List Completion}
    {c : Completion} (hcs : cs = before ++ c :: after) (hc : p c.outcome)
    (hbefore : ∀ x ∈ before, ¬ p x.outcome) :
    ∃ t₁, t ≤ t₁ ∧ t₁ ≤ t' ∧ h.SeenFirst es f.pending p t₁ c.index c.outcome := by
  induction turns generalizing before with
  | nil => simp at hcs
  | @cons t₀ t t' f f₁ f' es es' new cs le sorted completes pending prompt looks ends rest ih =>
    have turn : h.Turn t₀ f es new t f₁ := ⟨le, sorted, completes, pending, prompt, looks, ends⟩
    rcases append_eq_append_cons hcs with ⟨after', hbatch⟩ | ⟨before', rfl, hrest⟩
    · -- the completion comes in this turn
      exact ⟨t, le, rest.le, (turn.seenFirst hbatch hc hbefore).append_later rest.moment_le⟩
    · -- the completion comes in a later turn
      obtain ⟨hbatch, hbefore⟩ := List.forall_mem_append.mp hbefore
      obtain ⟨t₁, hle₁, ht₁, hfirst⟩ := ih hrest hbefore
      exact ⟨t₁, Nat.le_trans le hle₁, ht₁, turn.seenFirst_later hbatch hle₁ hfirst⟩

end History

end Orchestra
