import Orchestra.Proofs.Loop.Stopping
import Orchestra.Reduce

/-!
# The course of a fold

A fold combines the items with what it holds, one after the other from the left, and looks at its token
before each. So at every moment it has combined the first few of the items, and it ends in one of three
ways: with what all of them come to, cancelled because it saw a stop before the next one, or with the
error of the combine that failed. What it has made of some items it never hands over while others are
left. A fold of one list after another is the fold of the second from what the first came to.
-/

namespace Orchestra

namespace Reduce

/-! ### The program of a fold -/

/-- What a fold takes of what its runnable came to: a single state, or an error. -/
def taken (body : Runnable) : Outcome → Except RunError State
  | .ok output => output.toState body.name
  | .error e => .error e

/-- What follows a combine. -/
def following (next : State → Script) : Except RunError State → Script
  | .ok s => next s
  | .error e => .done (.error e)

/-- What follows a look that shows no stop. -/
def combining (r : Reduce) (held item : State) (next : State → Script) : Script :=
  match r.combiner with
  | .function f => following next (f held item)
  | .runnable body => .call body (.ofList [held, item]) fun o => following next (taken body o)

/-- The program of a fold that holds a state. -/
def foldScript (r : Reduce) : List State → State → Script
  | [], held => .done (.ok (.one held))
  | item :: rest, held => .look fun stopped =>
    if stopped then .done (.error .cancelled) else r.combining held item (r.foldScript rest)

/-- What a fold begins with: the state that it holds, and the items to be combined with it. -/
def start (r : Reduce) (items : List State) : Option (State × List State) :=
  match r.initial, items with
  | some initial, _ => some (initial, items)
  | none, first :: rest => some (first, rest)
  | none, [] => none

/-- The program of a fold. -/
def script (r : Reduce) (items : List State) : Script :=
  match r.start items with
  | some (first, rest) => r.foldScript rest first
  | none => .done (.error (.emptyInput "Reduce"))

variable {r : Reduce} {ctx : Context} {first held item : State} {items rest : List State}

/-- A call whose outcome is followed in this way combines two states. -/
theorem task_combining {next : State → Script} :
    (r.combining held item next).task ctx =
      r.combine ctx held item fun s => (next s).task ctx := by
  unfold combining combine
  cases r.combiner with
  | function f =>
    dsimp only
    cases f held item <;> rfl
  | runnable body =>
    refine congrArg (ctx.execute body (.ofList [held, item])).andThen (funext fun o => ?_)
    cases o with
    | error e => rfl
    | ok output =>
      dsimp only [taken]
      cases output.toState body.name <;> rfl

theorem task_foldScript (r : Reduce) (ctx : Context) (items : List State) (held : State) :
    (r.foldScript items held).task ctx = r.fold ctx items held := by
  induction items generalizing held with
  | nil => rfl
  | cons item rest ih =>
    refine congrArg (Task.ask (.isStopped ctx.token)) (funext fun stopped => ?_)
    cases stopped with
    | true => rfl
    | false => exact task_combining.trans (congrArg (r.combine ctx held item) (funext ih))

/-- It is the program of the fold. -/
theorem task_script (r : Reduce) (ctx : Context) (states : States) :
    (r.script states.items).task ctx = r.runnable.next ctx (.many states) := by
  change (r.script states.items).task ctx = r.foldList ctx states.items
  unfold script start foldList
  cases r.initial with
  | some initial => exact task_foldScript r ctx _ initial
  | none =>
    cases states.items with
    | nil => rfl
    | cons first rest => exact task_foldScript r ctx rest first

/-! ### Where a fold stands -/

/-- What the combine of two states comes to, and what is seen of it: a function is not seen. -/
inductive CombinedTo (r : Reduce) (held item : State) : List Event → Except RunError State → Prop
  | function {f : State → State → Except RunError State} (h : r.combiner = .function f) :
    CombinedTo r held item [] (f held item)
  | runnable {body : Runnable} (h : r.combiner = .runnable body) (o : Outcome) :
    CombinedTo r held item [.returned body (.ofList [held, item]) o] (taken body o)

/-- The left fold of items from a state, each of them combined with what those before it came to. -/
inductive FoldedTo (r : Reduce) : State → List State → List Event → State → Prop
  | nil (held : State) : FoldedTo r held [] [] held
  | cons {held item s last : State} {rest : List State} {es fs : List Event}
    (combined : r.CombinedTo held item es (.ok s)) (folded : FoldedTo r s rest fs last) :
    FoldedTo r held (item :: rest) (.looked false :: (es ++ fs)) last

/-- Where a fold stands with the rest of its items, by what it has seen since the last combine, and how
it goes on. -/
inductive Stands (r : Reduce) : List State → State → List Event → Script → Prop
  | finished {held : State} : Stands r [] held [] (.done (.ok (.one held)))
  | looking {held item : State} {rest : List State} :
    Stands r (item :: rest) held [] (r.foldScript (item :: rest) held)
  | stopped {held item : State} {rest : List State} :
    Stands r (item :: rest) held [.looked true] (.done (.error .cancelled))
  | calling {held item : State} {rest : List State} {body : Runnable}
    (h : r.combiner = .runnable body) : Stands r (item :: rest) held [.looked false]
      (.call body (.ofList [held, item]) fun o => following (r.foldScript rest) (taken body o))
  | failed {held item : State} {rest : List State} {es : List Event} {e : RunError}
    (combined : r.CombinedTo held item es (.error e)) :
    Stands r (item :: rest) held (.looked false :: es) (.done (.error e))

variable {es fs : List Event} {s : Script}

/-- A combine that has begun has not returned yet, or has failed, or the fold has gone on. -/
theorem goes_of_combining {next : State → Script}
    (goes : (r.combining held item next).Goes es s) :
    (∃ body, r.combiner = .runnable body ∧ es = [] ∧
      s = .call body (.ofList [held, item]) fun o => following next (taken body o)) ∨
    (∃ e, r.CombinedTo held item es (.error e) ∧ s = .done (.error e)) ∨
    ∃ fs gs last, es = fs ++ gs ∧ r.CombinedTo held item fs (.ok last) ∧ (next last).Goes gs s := by
  have hafter {fs gs : List Event} {result : Except RunError State}
      (combined : r.CombinedTo held item fs result) (goes : (following next result).Goes gs s) :
      (∃ e, r.CombinedTo held item (fs ++ gs) (.error e) ∧ s = .done (.error e)) ∨
        ∃ fs' gs' last, fs ++ gs = fs' ++ gs' ∧ r.CombinedTo held item fs' (.ok last) ∧
          (next last).Goes gs' s := by
    cases result with
    | ok last => exact .inr ⟨fs, gs, last, rfl, combined, goes⟩
    | error e =>
      obtain ⟨rfl, rfl⟩ := Script.Goes.of_done goes
      exact .inl ⟨e, by rwa [List.append_nil], rfl⟩
  unfold combining at goes
  cases hcombiner : r.combiner with
  | function f =>
    rw [hcombiner] at goes
    exact .inr (hafter (.function hcombiner) goes)
  | runnable body =>
    rw [hcombiner] at goes
    cases goes with
    | nil => exact .inl ⟨body, rfl, rfl, rfl⟩
    | call o goes => exact .inr (hafter (.runnable hcombiner o) goes)

/-- At every moment a fold has combined the first of its items and stands before the next one. -/
theorem exists_stands (goes : (r.foldScript items first).Goes es s) :
    ∃ before rest held fs gs, items = before ++ rest ∧ es = fs ++ gs ∧
      r.FoldedTo first before fs held ∧ r.Stands rest held gs s := by
  induction items generalizing first es with
  | nil =>
    obtain ⟨rfl, rfl⟩ := Script.Goes.of_done goes
    exact ⟨[], [], first, [], [], rfl, rfl, .nil first, .finished⟩
  | cons item rest ih =>
    have hhere {es : List Event} (stands : r.Stands (item :: rest) first es s) :
        ∃ before rest' held fs gs, item :: rest = before ++ rest' ∧ es = fs ++ gs ∧
          r.FoldedTo first before fs held ∧ r.Stands rest' held gs s :=
      ⟨[], item :: rest, first, [], es, rfl, rfl, .nil first, stands⟩
    cases goes with
    | nil => exact hhere .looking
    | look stopped goes =>
      cases stopped with
      | true =>
        obtain ⟨rfl, rfl⟩ := Script.Goes.of_done goes
        exact hhere .stopped
      | false =>
        rcases goes_of_combining goes with ⟨body, hbody, rfl, rfl⟩ | ⟨e, combined, rfl⟩ |
          ⟨fs, gs, last, rfl, combined, goes⟩
        · exact hhere (.calling hbody)
        · exact hhere (.failed combined)
        · -- what follows is the fold of the rest from what the combine came to
          obtain ⟨before, rest', held, fs', gs', rfl, rfl, folded, stands⟩ := ih goes
          refine ⟨item :: before, rest', held, _, gs', rfl, ?_, .cons combined folded, stands⟩
          simp only [List.cons_append, List.append_assoc]

/-! ### How a fold ends -/

/-- How a fold ends, by the number of combines that have begun, what it has seen, and whether its token
is stopped in the end: all items are combined, or it saw a stop before the next one, or the last combine
failed. -/
inductive Ending (r : Reduce) (first : State) (items : List State) (stopped : Bool) :
    Nat → List Event → Outcome → Prop
  | finished {es : List Event} {s : State} (folded : r.FoldedTo first items es s) :
    Ending r first items stopped items.length es (.ok (.one s))
  | stopped {before rest : List State} {held item : State} {es : List Event}
    (more : items = before ++ item :: rest) (folded : r.FoldedTo first before es held)
    (now : stopped = true) :
    Ending r first items stopped before.length (es ++ [.looked true]) (.error .cancelled)
  | failed {before rest : List State} {held item : State} {es fs : List Event} {e : RunError}
    (more : items = before ++ item :: rest) (folded : r.FoldedTo first before es held)
    (combined : r.CombinedTo held item fs (.error e)) :
    Ending r first items stopped (before.length + 1) (es ++ .looked false :: fs) (.error e)

/-- A runnable is called once for a combine, -/
theorem CombinedTo.length_calls {result : Except RunError State} {body : Runnable}
    (hbody : r.combiner = .runnable body) (combined : r.CombinedTo held item es result) :
    (Event.calls es).length = 1 := by
  cases combined with
  | function h => cases hbody.symm.trans h
  | runnable => rfl

/-- and once for each item that is folded. -/
theorem FoldedTo.length_calls {s : State} {body : Runnable} (hbody : r.combiner = .runnable body)
    (folded : r.FoldedTo first items es s) : (Event.calls es).length = items.length := by
  induction folded with
  | nil => rfl
  | cons combined _ ih =>
    rw [Event.calls_looked, Event.calls_append, List.length_append, combined.length_calls hbody, ih,
      List.length_cons, Nat.add_comm]

/-- The calls are those that are counted. -/
theorem Ending.length_calls {stopped : Bool} {made : Nat} {o : Outcome} {body : Runnable}
    (hbody : r.combiner = .runnable body) (ending : Ending r first items stopped made es o) :
    (Event.calls es).length = made := by
  cases ending with
  | finished folded => exact folded.length_calls hbody
  | stopped _ folded =>
    rw [Event.calls_append, List.length_append, folded.length_calls hbody]
    rfl
  | failed _ folded combined =>
    rw [Event.calls_append, Event.calls_looked, List.length_append, folded.length_calls hbody,
      combined.length_calls hbody]

/-- What was folded has not failed. -/
theorem FoldedTo.not_failed {s : State} (folded : r.FoldedTo first items es s) {part : Runnable}
    {d : Data} {o : Outcome} (h : .returned part d o ∈ es) : ∃ t, taken part o = .ok t := by
  induction folded with
  | nil => exact absurd h List.not_mem_nil
  | @cons _ _ s _ _ _ fs combined _ ih =>
    rcases List.mem_append.mp ((List.mem_cons.mp h).resolve_left nofun) with h | h
    · generalize hresult : Except.ok s = result at combined
      cases combined with
      | function => exact absurd h List.not_mem_nil
      | runnable =>
        cases List.mem_singleton.mp h
        exact ⟨s, hresult.symm⟩
    · exact ih h

/-- After a failure nothing happens any more. -/
theorem Stands.of_failed (stands : r.Stands rest held es s) {part : Runnable} {d : Data}
    {o : Outcome} {e : RunError} (h : .returned part d o ∈ es) (failed : taken part o = .error e) :
    s = .done (.error e) ∧ ∃ before, es = before ++ [.returned part d o] := by
  cases stands with
  | finished | looking | stopped | calling => simp at h
  | @failed _ _ _ es e' combined =>
    have h := (List.mem_cons.mp h).resolve_left nofun
    generalize hresult : Except.error e' = result at combined
    cases combined with
    | function => exact absurd h List.not_mem_nil
    | runnable =>
      cases List.mem_singleton.mp h
      cases hresult.trans failed
      exact ⟨rfl, [.looked false], rfl⟩

variable {sched : Schedule} {task : TaskId} {p q : Point}

/-- A fold that is over has ended in one of these ways. -/
theorem exists_ending {o : Outcome}
    (plays : Script.Plays sched task ctx p (r.foldScript items first) es q (.done o)) :
    ∃ made, Ending r first items (q.world.isStopped ctx.token) made es o := by
  obtain ⟨before, rest, held, fs, gs, rfl, rfl, folded, stands⟩ := exists_stands plays.goes
  generalize hs : Script.done o = s at stands
  cases stands with
  | finished =>
    cases hs
    rw [List.append_nil, List.append_nil]
    exact ⟨_, .finished folded⟩
  | stopped =>
    cases hs
    exact ⟨_, .stopped rfl folded plays.stopped_eq⟩
  | failed combined =>
    cases hs
    exact ⟨_, .failed rfl folded combined⟩
  | looking | calling => cases hs

/-- A fold that is about to look gives up if it sees a stop. -/
theorem eq_of_goes_look {next : Bool → Script}
    (goes : (r.foldScript items first).Goes es (.look next)) : next true = .done (.error .cancelled) := by
  obtain ⟨before, rest, held, fs, gs, rfl, rfl, folded, stands⟩ := exists_stands goes
  generalize hs : Script.look next = s at stands
  cases stands with
  | looking =>
    cases hs
    rfl
  | _ => cases hs

/-- A call combines what is held with the next item, after a look that showed no stop. -/
theorem of_goes_call {part : Runnable} {d : Data} {next : Outcome → Script}
    (goes : (r.foldScript items first).Goes es (.call part d next)) :
    r.combiner = .runnable part ∧ ∃ before item rest held fs, items = before ++ item :: rest ∧
      es = fs ++ [.looked false] ∧ r.FoldedTo first before fs held ∧ d = .ofList [held, item] := by
  obtain ⟨before, rest, held, fs, gs, rfl, rfl, folded, stands⟩ := exists_stands goes
  generalize hs : Script.call part d next = s at stands
  cases stands with
  | calling hbody =>
    cases hs
    exact ⟨hbody, before, _, _, held, fs, rfl, rfl, folded, rfl⟩
  | _ => cases hs

theorem not_goes_endless : ¬ (r.foldScript items first).Goes es .endless := by
  intro goes
  obtain ⟨before, rest, held, fs, gs, rfl, rfl, folded, stands⟩ := exists_stands goes
  generalize hs : Script.endless = s at stands
  cases stands <;> cases hs

/-! ### Folds that compute -/

/-- Where the runnable of a fold computes a function, or the fold combines by one, the fold goes on with
its value. -/
theorem exists_plays_combining {g : State → State → Except RunError State} {next : State → Script}
    (hfunction : ∀ f, r.combiner = .function f → f = g)
    (computes : ∀ body, r.combiner = .runnable body → ∃ k o,
      (body.next ctx (.ofList [held, item])).Comes sched task p k o ∧ taken body o = g held item) :
    ∃ es q, Script.Plays sched task ctx p (r.combining held item next) es q
      (following next (g held item)) := by
  unfold combining
  cases hcombiner : r.combiner with
  | function f =>
    rw [hfunction f hcombiner]
    exact ⟨[], p, .nil _ _⟩
  | runnable body =>
    obtain ⟨k, o, comes, htaken⟩ := computes body hcombiner
    rw [← htaken]
    exact ⟨_, _, .call comes (.nil _ _)⟩

/-- A fold that is not stopped computes the left fold. -/
theorem plays_foldlM {g : State → State → Except RunError State}
    (hfunction : ∀ f, r.combiner = .function f → f = g)
    (unstopped : ∀ es q next, Script.Plays sched task ctx p (r.foldScript items first) es q
      (.look next) → q.world.isStopped ctx.token = false)
    (computes : ∀ es q body held item next, Script.Plays sched task ctx p (r.foldScript items first)
      es q (.call body (.ofList [held, item]) next) → ∃ k o,
        (body.next ctx (.ofList [held, item])).Comes sched task q k o ∧ taken body o = g held item) :
    ∃ es q, Script.Plays sched task ctx p (r.foldScript items first) es q
      (.done ((items.foldlM g first).map .one)) := by
  induction items generalizing p first with
  | nil => exact ⟨[], p, .nil _ _⟩
  | cons item rest ih =>
    have hlook : p.world.isStopped ctx.token = false := unstopped _ _ _ (.nil _ _)
    have hcombining : Script.Plays sched task ctx p (r.foldScript (item :: rest) first) [.looked false]
        p.looked (r.combining first item (r.foldScript rest)) :=
      .look_of_eq hlook (.nil _ _)
    obtain ⟨es, k, hplays⟩ : ∃ es k, Script.Plays sched task ctx p.looked
        (r.combining first item (r.foldScript rest)) es k
        (following (r.foldScript rest) (g first item)) := by
      refine exists_plays_combining hfunction fun body hbody => ?_
      unfold combining at hcombining
      rw [hbody] at hcombining
      exact computes _ _ body first item _ hcombining
    have hplays := hcombining.append hplays
    rw [List.foldlM_cons]
    cases hresult : g first item with
    | error e =>
      rw [hresult] at hplays
      exact ⟨_, k, hplays⟩
    | ok s =>
      rw [hresult] at hplays
      -- whatever holds on the way of the rest holds on the way of all, once the first is combined
      obtain ⟨fs, q, plays⟩ := ih (fun fs q next plays => unstopped _ _ _ (hplays.append plays))
        fun fs q body held item next plays => computes _ _ _ _ _ _ (hplays.append plays)
      exact ⟨_, q, hplays.append plays⟩

/-! ### One list after another -/

/-- What follows a combine may be followed by more. -/
theorem combine_andThenOk (next : State → Task) (K : Data → Task) :
    (r.combine ctx held item next).andThenOk K =
      r.combine ctx held item fun s => (next s).andThenOk K := by
  unfold combine
  cases r.combiner with
  | function f =>
    dsimp only
    cases f held item <;> rfl
  | runnable body =>
    refine (Task.andThen_assoc _ _ _).trans (congrArg (ctx.execute body _).andThen (funext fun o => ?_))
    cases o with
    | error e => rfl
    | ok output =>
      dsimp only
      cases output.toState body.name <;> rfl

/-- A fold that begins with what another one came to. -/
def onward (r : Reduce) (ctx : Context) (items : List State) : Data → Task
  | .one s => r.fold ctx items s
  | .many states => .succeed (.many states)

/-- The fold of one list after another goes on with the second from what the first came to. -/
theorem fold_append (xs ys : List State) (held : State) :
    r.fold ctx (xs ++ ys) held = (r.fold ctx xs held).andThenOk (r.onward ctx ys) := by
  induction xs generalizing held with
  | nil => rfl
  | cons item rest ih =>
    refine congrArg (Task.ask (.isStopped ctx.token)) (funext fun stopped => ?_)
    cases stopped with
    | true => rfl
    | false =>
      exact (congrArg (r.combine ctx held item) (funext ih)).trans (combine_andThenOk _ _).symm

/-- A fold that holds a state does not look at what it began with. -/
theorem fold_withInitial (initial : Option State) (items : List State) (held : State) :
    ({ r with initial := initial } : Reduce).fold ctx items held = r.fold ctx items held := by
  induction items generalizing held with
  | nil => rfl
  | cons item rest ih =>
    refine congrArg (Task.ask (.isStopped ctx.token)) (funext fun stopped => ?_)
    cases stopped with
    | true => rfl
    | false => exact congrArg (r.combine ctx held item) (funext ih)

theorem foldList_append {xs : List State} (hne : xs ≠ []) (ys : List State) :
    r.foldList ctx (xs ++ ys) = (r.foldList ctx xs).andThenOk (r.onward ctx ys) := by
  unfold foldList
  cases r.initial with
  | some initial => exact fold_append xs ys initial
  | none =>
    cases xs with
    | nil => contradiction
    | cons first rest => exact fold_append rest ys first

/-- For every way to combine, initial state, list, starting point and schedule of stops. Without an
initial state a fold of the empty list fails, and with one it returns that. Otherwise it begins with the
initial state or else the first item. When it comes to an outcome, it has begun `made` combines, a
runnable being called once for each, and ended in one of three ways: it has combined all items from left
to right, and returns what they came to; or it saw a stop before the next combine, and is cancelled; or
it fails as the last combine did. So it is cancelled at once when it sees a stop, it begins no combine
without having seen that there is none, and nothing happens after a combine has failed. It comes to an
outcome if every call does. If no look shows a stop and the combines compute a function, it computes the
left fold. And to fold one list after another is to fold the second from what the first came to. -/
theorem folds_whole_list (r : Reduce) (ctx : Context) {sched : Schedule} {task : TaskId} {p : Point}
    (ready : p.Ready task) :
    let fold := fun (r : Reduce) (states : States) => r.runnable.next ctx (.many states)
    (∀ failures, r.initial = none →
      fold r ⟨[], failures⟩ = .fail (.emptyInput "Reduce")) ∧
    (∀ failures initial, r.initial = some initial →
      fold r ⟨[], failures⟩ = .succeed (.one initial)) ∧
    (∀ states first rest, r.start states.items = some (first, rest) →
      let plays := Script.Plays sched task ctx p (r.foldScript rest first)
      fold r states = (r.foldScript rest first).task ctx ∧
      (∀ q o, (fold r states).Comes sched task p q o → ∃ es made, plays es q (.done o) ∧
        (∀ body, r.combiner = .runnable body → (Event.calls es).length = made) ∧
        Ending r first rest (q.world.isStopped ctx.token) made es o) ∧
      (∀ es q next, plays es q (.look next) → q.world.isStopped ctx.token = true →
        (fold r states).Comes sched task p q.looked (.error .cancelled)) ∧
      (∀ es q part d next, plays es q (.call part d next) →
        q.world.isStopped ctx.token = false ∧ r.combiner = .runnable part ∧
          ∃ before item after held fs, rest = before ++ item :: after ∧
            es = fs ++ [.looked false] ∧ r.FoldedTo first before fs held ∧
            d = .ofList [held, item]) ∧
      (∀ es q s part d o e, plays es q s → .returned part d o ∈ es → taken part o = .error e →
        s = .done (.error e) ∧ ∃ before, es = before ++ [.returned part d o]) ∧
      ((∀ es q part d next, plays es q (.call part d next) →
          ∃ k o, (part.next ctx d).Comes sched task q k o) →
        ∃ q o, (fold r states).Comes sched task p q o) ∧
      ∀ g : State → State → Except RunError State, (∀ f, r.combiner = .function f → f = g) →
        (∀ es q next, plays es q (.look next) → q.world.isStopped ctx.token = false) →
        (∀ es q body held item next, plays es q (.call body (.ofList [held, item]) next) →
          ∃ k o, (body.next ctx (.ofList [held, item])).Comes sched task q k o ∧
            taken body o = g held item) →
        ∃ q, (fold r states).Comes sched task p q ((rest.foldlM g first).map .one)) ∧
    ∀ xs ys : List State, xs ≠ [] →
      (∀ q s, (fold r (.ofList xs)).Comes sched task p q (.ok (.one s)) → ∀ q' o,
        (fold r (.ofList (xs ++ ys))).Comes sched task p q' o ↔
          (fold { r with initial := some s } (.ofList ys)).Comes sched task q q' o) ∧
      ∀ q e, (fold r (.ofList xs)).Comes sched task p q (.error e) →
        (fold r (.ofList (xs ++ ys))).Comes sched task p q (.error e) := by
  intro fold
  refine ⟨fun failures hinitial => ?_, fun failures initial hinitial => ?_,
    fun states first rest hstart => ?_, fun xs ys hne => ?_⟩
  · change r.foldList ctx [] = _
    unfold foldList
    rw [hinitial]
  · change r.foldList ctx [] = _
    unfold foldList
    rw [hinitial]
    rfl
  · intro plays
    have hfold : fold r states = (r.foldScript rest first).task ctx := by
      change r.runnable.next ctx (.many states) = _
      rw [← task_script, script, hstart]
    have hcomes {q : Point} {o : Outcome} :
        (fold r states).Comes sched task p q o ↔ ∃ es, plays es q (.done o) := by
      rw [hfold]
      exact Script.comes_iff ready
    refine ⟨hfold, fun q o comes => ?_, fun es q next hplays hstopped => ?_,
      fun es q part d next hplays => ?_, fun es q s part d o e hplays h failed => ?_,
      fun returns => ?_, fun g hfunction unstopped computes => ?_⟩
    · obtain ⟨es, hplays⟩ := hcomes.mp comes
      obtain ⟨made, ending⟩ := exists_ending hplays
      exact ⟨es, made, hplays, fun body hbody => ending.length_calls hbody, ending⟩
    · rw [hfold, hplays.comes_iff ready, Script.comes_look_iff, hstopped,
        eq_of_goes_look hplays.goes]
      exact Task.comes_done_iff.mpr ⟨rfl, rfl⟩
    · obtain ⟨hbody, before, item, after, held, fs, hrest, rfl, folded, hd⟩ :=
        of_goes_call hplays.goes
      exact ⟨hplays.stopped_eq, hbody, before, item, after, held, fs, hrest, rfl, folded, hd⟩
    · obtain ⟨before, after, held, fs, gs, rfl, rfl, folded, stands⟩ := exists_stands hplays.goes
      rcases List.mem_append.mp h with hfolded | hlast
      · obtain ⟨t, ht⟩ := folded.not_failed hfolded
        cases ht.symm.trans failed
      · obtain ⟨hs, before, rfl⟩ := stands.of_failed hlast failed
        exact ⟨hs, fs ++ before, (List.append_assoc ..).symm⟩
    · obtain ⟨es, q, o, hplays⟩ :=
        Script.exists_plays_done (fun _ _ hplays => not_goes_endless hplays.goes) returns
      exact ⟨q, o, hcomes.mpr ⟨es, hplays⟩⟩
    · obtain ⟨es, q, hplays⟩ := plays_foldlM hfunction unstopped computes
      exact ⟨q, hcomes.mpr ⟨es, hplays⟩⟩
  · have hwhole : fold r (.ofList (xs ++ ys)) = (fold r (.ofList xs)).andThenOk (r.onward ctx ys) :=
      foldList_append hne ys
    refine ⟨fun q s hfirst q' o => ?_, fun q e hfirst => ?_⟩
    · have hsecond : fold { r with initial := some s } (.ofList ys) = r.fold ctx ys s :=
        fold_withInitial (some s) ys s
      rw [hwhole, hsecond, Task.andThenOk, Task.comes_andThen_iff ready]
      constructor
      · rintro ⟨k, o', hfirst', hrest⟩
        obtain ⟨rfl, rfl⟩ := hfirst.unique hfirst'
        exact hrest
      · exact fun hrest => ⟨q, _, hfirst, hrest⟩
    · rw [hwhole, Task.andThenOk, Task.comes_andThen_iff ready]
      exact ⟨q, _, hfirst, Task.comes_done_iff.mpr ⟨rfl, rfl⟩⟩

/-- Merges a list of states and then stops the run. -/
def mergeThenStop : Runnable :=
  ⟨"MergeThenStop", fun _ => "MergeThenStop", fun ctx input =>
    .ask (.stop [ctx.token]) fun _ => (Leaf.mergeStates false).next ctx input⟩

/-- A fold that stops the run as it combines two states. -/
def halting : Reduce :=
  ⟨.runnable mergeThenStop, none⟩

/-- Stopped in the first of two combines, the fold makes no second one. What the first one hands over, it
does not return. -/
theorem folds_whole_list_of_halting :
    let ctx : Context := ⟨1, .default, 0⟩
    let plays := Script.Plays (fun _ => .next) 0 ctx .first
    let states := [⟨1⟩, ⟨2⟩, ⟨3⟩].map State.empty.withEnergy
    let merged := State.empty.withSamples ⟨[.observed [0] ⟨1⟩, .observed [0] ⟨2⟩]⟩
    ∃ q, q.world.isStopped 1 = true ∧
      plays (halting.script states)
        [.looked false, .returned mergeThenStop (.ofList (states.take 2)) (.ok (.one merged))] q
        (halting.foldScript (states.drop 2) merged) ∧
      (halting.runnable.next ctx (.ofList states)).Comes (fun _ => .next) 0 .first q.looked
        (.error .cancelled) ∧
      ∃ es made, (Event.calls es).length = made ∧
        Ending halting (State.empty.withEnergy ⟨1⟩) (states.drop 1) true made es
          (.error .cancelled) := by
  intro ctx plays states merged
  let stopped := Point.first.looked.next (Point.first.world.stop [1])
  let q := stopped.noted ctx mergeThenStop.name false
  have hstopped : q.world.isStopped 1 = true := by decide +kernel
  have hcombined : (mergeThenStop.next ctx (.ofList (states.take 2))).Comes (fun _ => .next) 0
      Point.first.looked stopped (.ok (.one merged)) :=
    (Task.comes_ask_iff rfl).mpr (Task.comes_done_iff.mpr ⟨rfl, rfl⟩)
  have hplays : plays (halting.script states)
      [.looked false, .returned mergeThenStop (.ofList (states.take 2)) (.ok (.one merged))] q
      (halting.foldScript (states.drop 2) merged) :=
    .look_of_eq (by with_unfolding_all rfl) (.call hcombined (.nil _ _))
  obtain ⟨-, -, hcourse, -⟩ :=
    @folds_whole_list halting ctx (fun _ => .next) 0 .first Point.ready_first
  obtain ⟨-, hends, hstops, -⟩ := hcourse (.ofList states) _ _ rfl
  have comes := hstops _ _ _ hplays hstopped
  obtain ⟨es, made, -, hcalls, ending⟩ := hends _ _ comes
  rw [show q.looked.world.isStopped ctx.token = true from hstopped] at ending
  exact ⟨q, hstopped, hplays, comes, es, made, hcalls mergeThenStop rfl, ending⟩

end Reduce

end Orchestra
