import Orchestra.Leaf.Counted
import Orchestra.Proofs.Rely.Soundness
import Orchestra.Proofs.Tracking.Updates

/-!
# Calls of a shared tracking leaf

A tracking leaf changes its tracker in a single step, in which it also learns what it puts out. Between
two calls anything may happen: calls by others, resets, and whatever leaves the tracker alone. So the
calls of concurrent tasks are a list in which they are mixed in some order, and all that matters of it are
the states put in since the last reset: the tracker is the one to which these were offered.
-/

namespace Orchestra

/-- A tracking leaf, of which several tasks may have the same instance. -/
structure TrackingLeaf where
  key : Key
  outputBest : Bool
  tracker : TrackerId

namespace TrackingLeaf

/-- The leaf. -/
def runnable (l : TrackingLeaf) : Runnable :=
  Leaf.track l.key l.outputBest l.tracker

/-- What may happen to the tracker of a leaf: a call, which puts a state in and gets one out, or a reset. -/
inductive Act where
  | call (input output : State)
  | reset

/-- The calls since the last reset, with what was put in and what came out. -/
def sinceReset (acts : List Act) : List (State × State) :=
  acts.foldl
    (fun calls act => match act with
      | .call input output => calls ++ [(input, output)]
      | .reset => []) []

/-- The states put in since the last reset. -/
def inputs (acts : List Act) : List State :=
  (sinceReset acts).map Prod.fst

/-- A call of the leaf in a world: its program comes to its end in one step, whoever runs it. -/
def Calls (l : TrackingLeaf) (w : World) (input output : State) (w' : World) : Prop :=
  ∃ task ctx, Machine.Step ⟨w, .running task (l.runnable.next ctx (.one input))⟩
    ⟨w', .running task (.succeed (.one output))⟩

/-- The world has the tracker of the leaf, and nothing was offered to it. -/
def Fresh (l : TrackingLeaf) (w : World) : Prop :=
  w.cells.trackers.get? l.tracker = some .empty

/-- Calls of the leaf and resets of its tracker follow each other in any order, from one world to another.
Whatever else happens in between leaves the tracker alone. -/
inductive Interleaves (l : TrackingLeaf) (w : World) : List Act → World → Prop
  | start : Interleaves l w [] w
  | call {acts : List Act} {w' w'' : World} {input output : State}
    (before : Interleaves l w acts w') (call : l.Calls w' input output w'') :
    Interleaves l w (acts ++ [.call input output]) w''
  | reset {acts : List Act} {w' w'' : World} (before : Interleaves l w acts w')
    (cleared : w''.cells.trackers = w'.cells.trackers.modify l.tracker fun _ => .empty) :
    Interleaves l w (acts ++ [.reset]) w''
  | other {acts : List Act} {w' w'' : World} (before : Interleaves l w acts w')
    (same : w''.cells.trackers.get? l.tracker = w'.cells.trackers.get? l.tracker) :
    Interleaves l w acts w''

variable {l : TrackingLeaf} {w w' : World} {acts : List Act} {input output : State}
  {calls : List (State × State)} {t : Tracker State}

@[simp] theorem sinceReset_call :
    sinceReset (acts ++ [.call input output]) = sinceReset acts ++ [(input, output)] :=
  List.foldl_append

@[simp] theorem sinceReset_reset : sinceReset (acts ++ [.reset]) = [] :=
  List.foldl_append

@[simp] theorem inputs_call : inputs (acts ++ [.call input output]) = inputs acts ++ [input] := by
  simp [inputs]

@[simp] theorem inputs_reset : inputs (acts ++ [.reset]) = [] := by
  simp [inputs]

/-! ### One call -/

/-- The world that a call leaves. -/
def after (l : TrackingLeaf) (w : World) (input : State) : World :=
  { w with cells := { w.cells with
      trackers := w.cells.trackers.modify l.tracker fun t => t.offer (l.key input) input } }

/-- What a call puts out that leaves a world. -/
def putsOut (l : TrackingLeaf) (w : World) (input : State) : State :=
  if l.outputBest then ((w.cells.trackers.get? l.tracker).bind Tracker.value?).getD input else input

/-- A call offers its state and does nothing else, whoever makes it. -/
theorem calls_iff : l.Calls w input output w' ↔
    w' = l.after w input ∧ output = l.putsOut (l.after w input) input := by
  constructor
  · rintro ⟨task, ctx, step⟩
    have hstep : Machine.Step
        ⟨w, .running task (.ask (.offer l.tracker (l.key input) input) fun best =>
          .succeed (.one (if l.outputBest then best.getD input else input)))⟩
        ⟨w', .running task (.succeed (.one output))⟩ := step
    cases hstep with
    | answer there =>
      cases there
      exact ⟨rfl, rfl⟩
  · rintro ⟨rfl, rfl⟩
    exact ⟨0, ⟨0, .default, 0⟩, .answer rfl⟩

/-- A call is answered at once, in every world. -/
theorem exists_calls (l : TrackingLeaf) (w : World) (input : State) :
    ∃ output w', l.Calls w input output w' :=
  ⟨_, _, calls_iff.mpr ⟨rfl, rfl⟩⟩

/-- What a call puts out when the tracker is then as given. -/
def emitted (l : TrackingLeaf) (t : Tracker State) (input : State) : State :=
  if l.outputBest then t.value?.getD input else input

theorem Calls.offered (call : l.Calls w input output w')
    (ht : w.cells.trackers.get? l.tracker = some t) :
    w'.cells.trackers.get? l.tracker = some (t.offer (l.key input) input) ∧
      output = l.emitted (t.offer (l.key input) input) input := by
  obtain ⟨rfl, rfl⟩ := calls_iff.mp call
  have hafter : (l.after w input).cells.trackers.get? l.tracker =
      some (t.offer (l.key input) input) := by
    rw [after, Table.get?_modify, if_pos rfl, ht]
    rfl
  refine ⟨hafter, ?_⟩
  rw [putsOut, hafter]
  rfl

/-! ### Calls in any order -/

/-- What came out is the best of what had been put in by then, or else what was put in. -/
def Emits (l : TrackingLeaf) (calls : List (State × State)) : Prop :=
  ∀ (i : Nat) input output, calls[i]? = some (input, output) →
    output = l.emitted (.ofOffers l.key ((calls.take (i + 1)).map Prod.fst)) input

theorem Emits.append (h : l.Emits calls)
    (last : output = l.emitted (.ofOffers l.key (calls.map Prod.fst ++ [input])) input) :
    l.Emits (calls ++ [(input, output)]) := by
  intro i input' output' hi
  rcases Nat.lt_trichotomy i calls.length with hlt | rfl | hgt
  · rw [List.getElem?_append_left hlt] at hi
    rw [List.take_append_of_le_length hlt]
    exact h i input' output' hi
  · rw [List.getElem?_append_right (Nat.le_refl _), Nat.sub_self] at hi
    cases hi
    rw [List.take_of_length_le (by simp), List.map_append]
    exact last
  · rw [List.getElem?_eq_none (by simpa using Nat.succ_le_of_lt hgt)] at hi
    contradiction

/-- The tracker is the one to which the states since the last reset were offered, and every call put out
what it then held. -/
theorem Interleaves.tracker (h : l.Interleaves w acts w') (fresh : l.Fresh w) :
    w'.cells.trackers.get? l.tracker = some (.ofOffers l.key (inputs acts)) ∧
      l.Emits (sinceReset acts) := by
  induction h with
  | start => exact ⟨fresh, nofun⟩
  | call _ call ih =>
    obtain ⟨ht, hemits⟩ := ih
    obtain ⟨ht', houtput⟩ := call.offered ht
    rw [← Tracker.ofOffers_append] at ht' houtput
    rw [inputs_call, sinceReset_call]
    exact ⟨ht', hemits.append houtput⟩
  | reset _ cleared ih =>
    rw [cleared, Table.get?_modify, if_pos rfl, ih.1, sinceReset_reset, inputs_reset]
    exact ⟨rfl, nofun⟩
  | other _ same ih => exact ⟨same.trans ih.1, ih.2⟩

/-- States may be put in one after the other, and nothing else happens. -/
theorem exists_interleaves (l : TrackingLeaf) (w : World) (states : List State) :
    ∃ acts w', l.Interleaves w acts w' ∧ inputs acts = states := by
  induction states using List.reverseRecOn with
  | nil => exact ⟨[], w, .start, rfl⟩
  | append_singleton states s ih =>
    obtain ⟨acts, w', h, rfl⟩ := ih
    obtain ⟨output, w'', call⟩ := exists_calls l w' s
    exact ⟨_, w'', h.call call, inputs_call⟩

/-! ### What the tracker and the outputs say -/

/-- What the tracker and the outputs say of the calls since the last reset. The least key is a matter of
which states were put in, and not of their order. -/
structure OrderSafe (l : TrackingLeaf) (calls : List (State × State)) (t : Tracker State) : Prop where
  used : calls ≠ [] → t.key?.isSome
  least : ∀ k, t.key? = some k ↔
    (∃ call ∈ calls, l.key call.1 = k) ∧ ∀ call ∈ calls, k.rank ≤ (l.key call.1).rank
  earliest : ∀ x, t.value? = some x ↔ ∃ i, EarliestLeast l.key (calls.map Prod.fst) i x
  /-- A call puts out the best of the states that were put in by then. -/
  emits : l.outputBest = true → ∀ (i : Nat) input output, calls[i]? = some (input, output) →
    ∃ j, EarliestLeast l.key ((calls.take (i + 1)).map Prod.fst) j output
  /-- It is no worse than its own state and than what any call before it put out. -/
  improves : l.outputBest = true → ∀ (i : Nat) input output, calls[i]? = some (input, output) →
    (l.key output).rank ≤ (l.key input).rank ∧ ∀ j : Nat, j < i → ∀ input' output',
      calls[j]? = some (input', output') → (l.key output).rank ≤ (l.key output').rank
  passes : l.outputBest = false → ∀ (i : Nat) input output, calls[i]? = some (input, output) →
    output = input

namespace Emits

variable {i : Nat}

theorem earliest (h : l.Emits calls) (best : l.outputBest = true)
    (hi : calls[i]? = some (input, output)) :
    ∃ j, EarliestLeast l.key ((calls.take (i + 1)).map Prod.fst) j output := by
  have hlt : i < calls.length := (List.getElem?_eq_some_iff.mp hi).1
  have hne : (calls.take (i + 1)).map Prod.fst ≠ [] := by
    refine List.ne_nil_of_length_pos ?_
    rw [List.length_map, List.length_take]
    omega
  obtain ⟨j, x, hx, -⟩ := Tracker.exists_earliestLeast l.key _ hne
  have houtput := h i input output hi
  rw [emitted, if_pos best, Tracker.value?, Tracker.best_ofOffers hx] at houtput
  exact ⟨j, houtput ▸ hx⟩

/-- An output is no worse than any state that was put in by then. -/
theorem le (h : l.Emits calls) (best : l.outputBest = true)
    (hi : calls[i]? = some (input, output)) {j : Nat} (hj : j ≤ i) {call : State × State}
    (hcall : calls[j]? = some call) : (l.key output).rank ≤ (l.key call.1).rank := by
  obtain ⟨k, hearliest⟩ := h.earliest best hi
  have hmem : call ∈ calls.take (i + 1) := by
    rw [List.mem_iff_getElem?]
    exact ⟨j, by rwa [List.getElem?_take_of_lt (Nat.lt_succ_of_le hj)]⟩
  exact hearliest.least _ (List.mem_map_of_mem hmem)

theorem orderSafe (h : l.Emits calls) :
    l.OrderSafe calls (.ofOffers l.key (calls.map Prod.fst)) where
  used hne := by
    obtain ⟨i, x, hx, -⟩ := Tracker.exists_earliestLeast l.key (calls.map Prod.fst) (by simpa using hne)
    rw [Tracker.key?, Tracker.best_ofOffers hx]
    rfl
  least k := by
    rw [Tracker.key?_ofOffers, List.forall_mem_map]
    simp only [List.mem_map, exists_exists_and_eq_and]
  earliest x := Tracker.value?_ofOffers
  emits best i input output := h.earliest best
  improves best i input output hi := by
    refine ⟨h.le best hi (Nat.le_refl _) hi, fun j hj input' output' hj' => ?_⟩
    -- What an earlier call put out is a state that had been put in by then.
    obtain ⟨k, hearliest⟩ := h.earliest best hj'
    obtain ⟨call, hcall, rfl⟩ := List.mem_map.mp (List.mem_of_getElem? hearliest.entry)
    obtain ⟨m, hm⟩ := List.mem_iff_getElem?.mp hcall
    rw [List.getElem?_take] at hm
    split at hm
    · exact h.le best hi (by omega) hm
    · contradiction
  passes own i input output hi := by
    have houtput := h i input output hi
    rwa [emitted, own, if_neg Bool.false_ne_true] at houtput

end Emits

end TrackingLeaf

/-! ### Tracking and selecting -/

/-- A list of states leads to the same one whether it is searched, or offered to a tracker state by state,
or put into a leaf with a fresh tracker. The tracker has then counted the states, and its updates are the
positions of those with a key below all keys before, up to the one that a search finds. -/
theorem tracking_selects (key : Key) (states : List State) (hne : states ≠ []) :
    ∃ position best, EarliestLeast key states position best ∧ argmin key states = .ok position ∧
      (∀ ctx failures,
        (Leaf.select key).next ctx (.many ⟨states, failures⟩) = .succeed (.one best)) ∧
      (Tracker.ofOffers key states).Follows key states position best ∧
      ∀ l : TrackingLeaf, l.key = key → ∀ w, l.Fresh w →
        (∃ acts w', l.Interleaves w acts w' ∧ TrackingLeaf.inputs acts = states) ∧
        ∀ acts w', l.Interleaves w acts w' → TrackingLeaf.inputs acts = states →
          ∃ t, w'.cells.trackers.get? l.tracker = some t ∧ t.Follows key states position best := by
  obtain ⟨position, best, hbest, -⟩ := exists_bestPosition key states hne
  refine ⟨position, best, hbest, hbest.argmin_eq, hbest.next_select, Tracker.follows_ofOffers hbest, ?_⟩
  rintro l rfl w fresh
  refine ⟨l.exists_interleaves w states, fun acts w' interleaves hinputs => ?_⟩
  refine ⟨_, (interleaves.tracker fresh).1, ?_⟩
  rw [hinputs]
  exact Tracker.follows_ofOffers hbest

/-- Of two negative zeros the earlier one is held, behind a NaN and a positive zero that both were once. -/
theorem tracking_selects_of_zeros :
    let states := [⟨0x7ff8000000000000⟩, .zero, ⟨0x8000000000000000⟩, ⟨0x8000000000000000⟩].map
      State.empty.withEnergy
    let l : TrackingLeaf := ⟨State.minEnergy, true, 0⟩
    let w := { World.empty with cells := ⟨.empty, Table.empty.push .empty⟩ }
    argmin State.minEnergy states = .ok 2 ∧ ∃ acts w' t, l.Interleaves w acts w' ∧
      TrackingLeaf.inputs acts = states ∧ w'.cells.trackers.get? 0 = some t ∧
      t.value? = states[2]? ∧ t.observed = 4 ∧ 1 ∈ t.updates ∧ t.updates.getLast? = some 2 := by
  intro states l w
  obtain ⟨position, best, hbest, hargmin, -, -, hleaf⟩ :=
    tracking_selects State.minEnergy states (by simp [states])
  have htwo : argmin State.minEnergy states = .ok 2 := by with_unfolding_all rfl
  obtain rfl : position = 2 := Except.ok.inj (hargmin.symm.trans htwo)
  obtain ⟨⟨acts, w', interleaves, hinputs⟩, hfollows⟩ := hleaf l rfl w rfl
  obtain ⟨t, ht, follows⟩ := hfollows acts w' interleaves hinputs
  refine ⟨htwo, acts, w', t, interleaves, hinputs, ht, follows.held.trans hbest.entry.symm,
    follows.observed, (follows.update 1).mpr ⟨_, rfl, fun j hj y hy => ?_⟩, follows.last⟩
  obtain rfl := Nat.lt_one_iff.mp hj
  obtain rfl := Option.some.inj hy
  decide +kernel

end Orchestra
