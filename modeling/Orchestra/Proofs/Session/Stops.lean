import Orchestra.Proofs.Session.Ledger
import Orchestra.Proofs.World.Alone

/-!
# Stops of contexts and runs

The user of a session may do something between any two steps of the runs. What they have done and
what the runs have done to tokens is entered in a ledger, which says without a world what a stop
reaches: everything whose token is the stopped one or below it, whether it is there already or made
later, and nothing else. In every moment that comes, this is what contexts and handles show.
-/

namespace Orchestra

/-! ### Moments -/

/-- A session between two steps of its world, with its ledger. -/
structure Moment where
  session : Session
  control : Control
  ledger : Ledger

namespace Moment

/-- The world of the session, between two steps. -/
def machine (m : Moment) : Machine :=
  ⟨m.session.world, m.control⟩

/-- What may come next. While no task is running the user may do something about tokens, or something
else that touches neither tokens nor what is held, such as making a limit or beginning to wait for a
run. -/
inductive Next : Moment → Moment → Prop
  | act (s : Session) (g : Ledger) (a : UserAct) : Next ⟨s, .idle, g⟩ ⟨s.act a, .idle, g.act a⟩
  | step {s : Session} {g : Ledger} {control control' : Control} {w : World}
      (step : Machine.Step ⟨s.world, control⟩ ⟨w, control'⟩) :
      Next ⟨s, control, g⟩ ⟨{ s with world := w }, control',
        { g with family := Machine.tokenEvents ⟨s.world, control⟩ ++ g.family }⟩
  | aside {s s' : Session} {g : Ledger} (touch : Machine.Touch ⟨s.world, .idle⟩ ⟨s'.world, .idle⟩)
      (tokens : s'.world.tokens = s.world.tokens) (contexts : s'.contexts = s.contexts)
      (handles : s'.handles = s.handles) : Next ⟨s, .idle, g⟩ ⟨s', .idle, g⟩

/-- What may come at some time. -/
abbrev Leads : Moment → Moment → Prop :=
  Relation.ReflTransGen Next

/-- The moment at which nothing has been done. -/
def first (config : Config) : Moment :=
  ⟨.ofConfig config, .idle, .first⟩

/-- The moments that come at some time. -/
def Reached (config : Config) (m : Moment) : Prop :=
  Leads (first config) m

variable {m m' : Moment} {config : Config}

theorem made_append (events f : Family) : Family.made f ≤ Family.made (events ++ f) := by
  induction events with
  | nil => exact Nat.le_refl _
  | cons e events ih =>
    cases e with
    | stop => exact ih
    | root | below => exact Nat.le_succ_of_le ih

/-- The ledger remains right. -/
theorem Next.kept (next : Next m m') (kept : m.session.Kept m.ledger) :
    m'.session.Kept m'.ledger := by
  cases next with
  | act s g a => exact kept.act a
  | step step => exact kept.keep rfl rfl (step.follow kept.follow) (made_append _ _)
  | aside touch tokens contexts handles =>
    exact kept.keep contexts handles (by rw [tokens]; exact kept.follow) (Nat.le_refl _)

theorem Reached.kept (reached : Reached config m) : m.session.Kept m.ledger := by
  induction reached with
  | refl => exact Session.kept_first config
  | tail _ next ih => exact next.kept ih

/-- What has happened stays in the family. -/
theorem act_family (g : Ledger) (a : UserAct) : ∃ events, (g.act a).family = events ++ g.family := by
  cases a with
  | context config token profile =>
    cases token with
    | none => exact ⟨[.root], rfl⟩
    | some holder =>
      simp only [Ledger.act]
      split <;> exact ⟨[], rfl⟩
  | child parent =>
    simp only [Ledger.act]
    split
    · exact ⟨[.below _], rfl⟩
    · exact ⟨[], rfl⟩
  | copy number =>
    simp only [Ledger.act]
    split <;> exact ⟨[], rfl⟩
  | start number handle r input limit =>
    simp only [Ledger.act]
    split
    · exact ⟨[.below _], rfl⟩
    · exact ⟨[], rfl⟩
  | startAlone handle r input => exact ⟨[.below _, .root], rfl⟩
  | stop holder =>
    simp only [Ledger.act]
    split
    · exact ⟨[.stop _], rfl⟩
    · exact ⟨[], rfl⟩
  | drop handle => exact ⟨[], rfl⟩

theorem Next.family (next : Next m m') :
    ∃ events, m'.ledger.family = events ++ m.ledger.family := by
  cases next with
  | act s g a => exact act_family g a
  | step => exact ⟨_, rfl⟩
  | aside => exact ⟨[], rfl⟩

theorem Leads.family (leads : Leads m m') :
    ∃ events, m'.ledger.family = events ++ m.ledger.family := by
  induction leads with
  | refl => exact ⟨[], rfl⟩
  | tail _ next ih =>
    obtain ⟨before, hbefore⟩ := ih
    obtain ⟨events, hevents⟩ := next.family
    refine ⟨events ++ before, ?_⟩
    rw [hevents, hbefore, List.append_assoc]

/-! ### Sessions that run -/

/-- The user acts on a world from outside. -/
theorem moves_act (s : Session) (a : UserAct) :
    Machine.Moves ⟨s.world, .idle⟩ ⟨(s.act a).world, .idle⟩ := by
  have hchange {w : World} (steady : s.world.Steady w) :
      Machine.Moves ⟨s.world, .idle⟩ ⟨w, .idle⟩ := .single (.inr (.change steady))
  have hgrow (tokens : Tokens) (profiles : Table Profile) (grows : s.world.tokens.Grows tokens) :
      s.world.Steady { s.world with tokens, profiles } :=
    ⟨rfl, rfl, rfl, grows, rfl, fun _ => rfl, rfl, List.Subset.refl _⟩
  have hroot : s.world.tokens.Grows s.world.tokens.addRoot := Tokens.grows_push _ _
  cases a with
  | context config token profile =>
    cases token with
    | none => exact hchange (hgrow _ _ hroot)
    | some holder =>
      simp only [Session.act]
      split
      · exact hchange (hgrow _ _ (.refl _))
      · exact .refl
  | child parent =>
    simp only [Session.act]
    split
    · exact hchange (hgrow _ _ (Tokens.grows_addBelow _ _))
    · exact .refl
  | copy number =>
    simp only [Session.act]
    split <;> exact .refl
  | start number handle r input limit =>
    simp only [Session.act]
    split
    · exact .single (.inr (.start s.world _ _ _))
    · exact .refl
  | startAlone handle r input =>
    simp only [Session.act, Session.startAlone]
    split
    · refine .tail (hchange (hgrow _ _ hroot)) (.inr (.start _ _ _ _))
    · exact .refl
  | stop holder =>
    simp only [Session.act]
    split
    · exact hchange (World.steady_stop _ _)
    · exact .refl
  | drop handle => exact .refl

theorem Next.moves (next : Next m m') : Machine.Moves m.machine m'.machine := by
  cases next with
  | act s g a => exact moves_act s a
  | step step => exact .single (.inl step)
  | aside touch => exact .single (.inr touch)

theorem Reached.sound (reached : Reached config m) : m.machine.Sound := by
  induction reached with
  | refl => exact Machine.sound_of_no_tasks rfl rfl
  | tail _ next ih => exact next.moves.sound ih

/-- Steps of the world are steps of the session. -/
theorem leads_steps {s : Session} {g : Ledger} {w : World}
    (steps : Machine.Steps ⟨s.world, .idle⟩ ⟨w, .idle⟩) :
    ∃ g', Leads ⟨s, .idle, g⟩ ⟨{ s with world := w }, .idle, g'⟩ := by
  have hsteps {b : Machine} (steps : Machine.Steps ⟨s.world, .idle⟩ b) :
      ∃ g', Leads ⟨s, .idle, g⟩ ⟨{ s with world := b.world }, b.control, g'⟩ := by
    induction steps with
    | refl => exact ⟨g, .refl⟩
    | tail _ step ih =>
      obtain ⟨g', leads⟩ := ih
      exact ⟨_, leads.tail (.step step)⟩
  exact hsteps steps

/-- Everything that is due in some time runs in such steps, -/
theorem Reached.advance {s : Session} {g : Ledger} (reached : Reached config ⟨s, .idle, g⟩)
    (outer : s.world.outer = none) (ms : Nat)
    (settles : Machine.Settles (s.world.now + (Duration.ofMillis ms).nanos) World.horizon s.world) :
    ∃ g', Reached config ⟨s.advance ms, .idle, g'⟩ := by
  obtain ⟨g', leads⟩ := leads_steps (Machine.steps_advanceTo World.horizon reached.sound outer
    (Nat.le_add_right _ _) settles)
  exact ⟨g', reached.trans leads⟩

/-- and so does a program that the user runs to its end. -/
theorem Reached.perform {s : Session} {g : Ledger} (reached : Reached config ⟨s, .idle, g⟩)
    (outer : s.world.outer = none) (program : Task) (ended : (s.perform program).1 ≠ none) :
    ∃ g', Reached config ⟨(s.perform program).2, .idle, g'⟩ := by
  obtain ⟨w, steps, unable, hleft⟩ := Machine.steps_perform reached.sound outer ended
  let begun : Session := { s with world := Machine.entered s.world program }
  let played : Session := { s with world := w }
  have hbegin : Leads ⟨s, .idle, g⟩ ⟨begun, .idle, g⟩ :=
    .single (.aside (.enter s.world program outer) (World.same_addTask _ "" none program).tokens
      rfl rfl)
  obtain ⟨g', hrun⟩ : ∃ g', Leads ⟨begun, .idle, g⟩ ⟨played, .idle, g'⟩ := leads_steps steps
  have hleave : Leads ⟨played, .idle, g'⟩ ⟨(s.perform program).2, .idle, g'⟩ := by
    have hworld : (s.perform program).2 = { s with world := { w with outer := none } } :=
      congrArg (fun w => { s with world := w }) hleft
    rw [hworld]
    exact .single (.aside (.leave w unable) rfl rfl rfl)
  exact ⟨g', ((Relation.ReflTransGen.trans reached hbegin).trans hrun).trans hleave⟩

/-! ### Stops follow the family -/

/-- What stops do at a moment. -/
structure StopsFollow (m : Moment) : Prop where
  /-- What is held is seen to be stopped or not, -/
  held : ∀ holder, (m.session.stopped? holder).isSome = (m.ledger.token? holder).isSome
  /-- and it is stopped exactly if a stop was issued on its token or above it. -/
  exact : ∀ holder token, m.ledger.token? holder = some token →
    (m.session.stopped? holder = some true ↔ m.ledger.family.Stopped token)
  /-- The same holds of every token, also of those that only runs have. -/
  tokens : ∀ token, m.session.world.isStopped token = true ↔ m.ledger.family.Stopped token
  /-- What is stopped stays stopped, whatever comes. -/
  monotone : ∀ later, m.Leads later → ∀ holder token, m.ledger.token? holder = some token →
    later.ledger.token? holder = some token →
    m.session.stopped? holder = some true → later.session.stopped? holder = some true
  /-- A stop issued once more changes nothing. -/
  idempotent : ∀ holder,
    (m.session.act (.stop holder)).act (.stop holder) = m.session.act (.stop holder)
  /-- A stop reaches what has the stopped token or one below it, and nothing else: -/
  reach : ∀ holder token other token', m.ledger.token? holder = some token →
    m.ledger.token? other = some token' →
    ((m.session.act (.stop holder)).stopped? other = some true ↔
      m.session.stopped? other = some true ∨ m.ledger.family.Above token token')
  /-- neither the token below which the stopped one was made, nor the others made there. -/
  apart : m.ledger.family.Proper → ∀ parent child, m.ledger.family.Derived parent child →
    ¬ m.ledger.family.Above child parent ∧
    ∀ sibling, m.ledger.family.Derived parent sibling → child ≠ sibling →
      ¬ m.ledger.family.Above child sibling

end Moment

namespace Session.Kept

variable {s : Session} {g : Ledger} {holder : Holder} {token : TokenId}

theorem stopped?_iff (kept : s.Kept g) (held : g.token? holder = some token) :
    s.stopped? holder = some true ↔ g.family.Stopped token := by
  rw [s.stopped?_eq, kept.token, held]
  exact Option.some_inj.trans (kept.follow.isStopped_iff token)

theorem stop_stop (kept : s.Kept g) (holder : Holder) :
    (s.act (.stop holder)).act (.stop holder) = s.act (.stop holder) := by
  cases htoken : s.token? holder with
  | none =>
    have hact : s.act (.stop holder) = s := by rw [Session.act, htoken]
    rw [hact, hact]
  | some token =>
    have hact : s.act (.stop holder) = s.stop token := by rw [Session.act, htoken]
    have hheld : (s.stop token).token? holder = s.token? holder := by
      cases holder <;> rfl
    have hhas : s.world.tokens.Has token := by
      have hthere := kept.there holder token (kept.token holder ▸ htoken)
      exact ⟨kept.follow.size ▸ hthere, (kept.follow.lineage token token).mpr (Family.above_self _ _)⟩
    have hworld : (s.world.stop [token]).stop [token] = s.world.stop [token] := by
      simp only [World.stop, List.foldl_cons, List.foldl_nil, World.stopOne_stopOne hhas]
    rw [hact, Session.act, hheld, htoken]
    simp only [Session.stop, hworld]

end Session.Kept

/-- In every session, whatever is done in whatever order, a context or a run is stopped exactly if a
stop was issued on something that has its token or one above it, also if it was made later. So stops
are never undone, a second one changes nothing, and none reaches what a token was made below, what
was made beside it or what is unrelated. -/
theorem stops_follow_family {config : Config} {m : Moment} (reached : Moment.Reached config m) :
    m.StopsFollow := by
  have kept := reached.kept
  constructor
  case held =>
    intro holder
    rw [m.session.stopped?_eq, kept.token, Option.isSome_map]
  case exact => exact fun holder token held => kept.stopped?_iff held
  case tokens => exact kept.follow.isStopped_iff
  case monotone =>
    intro later leads holder token held held' stopped
    have kept' : later.session.Kept later.ledger := Moment.Reached.kept (reached.trans leads)
    obtain ⟨events, hevents⟩ := leads.family
    rw [kept'.stopped?_iff held', hevents]
    exact ((kept.stopped?_iff held).mp stopped).append events
  case idempotent => exact kept.stop_stop
  case reach =>
    intro holder token other token' held held'
    have hact : m.ledger.act (.stop holder) = m.ledger.note (.stop token) := by
      rw [Ledger.act, held]
    have kept' := kept.act (.stop holder)
    rw [hact] at kept'
    have hother : (m.ledger.note (.stop token)).token? other = some token' := by
      rw [← held']
      cases other <;> rfl
    rw [kept'.stopped?_iff hother, kept.stopped?_iff held']
    exact Family.stopped_stop_iff (kept.there holder token held)
  case apart =>
    exact fun proper parent child derived => ⟨proper.not_above_parent derived,
      fun sibling derived' hne => proper.not_above_sibling derived derived' hne⟩

/-- The moment after the user has done some things while nothing runs. -/
def Moment.after (config : Config) (acts : List UserAct) : Moment :=
  ⟨acts.foldl Session.act (.ofConfig config), .idle, acts.foldl Ledger.act .first⟩

theorem Moment.reached_after (config : Config) (acts : List UserAct) :
    Reached config (after config acts) := by
  have hacts (s : Session) (g : Ledger) :
      Leads ⟨s, .idle, g⟩ ⟨acts.foldl Session.act s, .idle, acts.foldl Ledger.act g⟩ := by
    induction acts generalizing s g with
    | nil => exact .refl
    | cons a rest ih => exact .head (.act s g a) (ih (s.act a) (g.act a))
  exact hacts (.ofConfig config) .first

/-- A context is stopped between two children of it: with it are stopped its copy, a context with its
token, the run below it and both children, but not its parent or its sibling. -/
theorem stops_follow_family_of_seven :
    let run := Runnable.ofFunction "Identity" "" .ok
    let m := Moment.after .default [.child 0, .copy 1, .context .default (some (.context 1)) none,
      .child 0, .child 1, .start 1 "run" run (.one .empty) none, .stop (.context 2), .child 1]
    m.StopsFollow ∧ m.ledger.family.Proper ∧
      m.session.stopped = [false, true, true, true, false, true, true] ∧
      m.session.stopped? (.handle "run") = some true := by
  intro run m
  refine ⟨stops_follow_family (Moment.reached_after _ _), ?_, ?_, ?_⟩
  all_goals decide +kernel

end Orchestra
