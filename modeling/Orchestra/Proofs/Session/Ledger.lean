import Orchestra.Proofs.Info
import Orchestra.Proofs.World.Family
import Orchestra.Session

/-!
# The ledger of a session

The user of a session holds contexts by number and runs by name. They make contexts, on their own, as
children or copies of others, or with the token of something they hold, start runs below contexts and
stop what they hold. A ledger keeps books on this without a world: which events have made the family
of tokens, and which token everything held has. Whatever the user does, the session and its ledger
remain in agreement.
-/

namespace Orchestra

/-- Something with a token that the user of a session holds. -/
inductive Holder where
  | context (number : Nat)
  | handle (name : String)
deriving DecidableEq, Repr

/-- What the user of a session may do about tokens. -/
inductive UserAct where
  /-- Make a context, which has the token of something held or a new one, and the profile of another
  context or a new one. -/
  | context (config : Config) (token : Option Holder) (profile : Option Nat)
  /-- Make a context below another. -/
  | child (parent : Nat)
  /-- Copy a context. -/
  | copy (number : Nat)
  /-- Start a run below a context. -/
  | start (number : Nat) (handle : String) (r : Runnable) (input : Data) (limit : Option LimitId)
  /-- Start a run below a context of its own. -/
  | startAlone (handle : String) (r : Runnable) (input : Data)
  /-- Stop something held. -/
  | stop (holder : Holder)
  /-- Give a handle up. -/
  | drop (handle : String)

/-- Which tokens there are, with the stops issued on them, and who has them. -/
structure Ledger where
  family : Family
  contexts : List TokenId
  handles : String → Option TokenId

namespace Ledger

/-- The ledger of a session with a root context only. -/
def first : Ledger :=
  ⟨[.root], [0], fun _ => none⟩

/-- The token of something held. -/
def token? (g : Ledger) : Holder → Option TokenId
  | .context number => g.contexts[number]?
  | .handle name => g.handles name

/-- Enters a context with a token that is there. -/
def share (g : Ledger) (token : TokenId) : Ledger :=
  { g with contexts := g.contexts ++ [token] }

/-- Enters an event. -/
def note (g : Ledger) (e : TokenEvent) : Ledger :=
  { g with family := e :: g.family }

/-- Enters a run below a token. -/
def launch (g : Ledger) (handle : String) (parent : TokenId) : Ledger :=
  { g.note (.below parent) with
    handles := fun name => if handle = name then some g.family.made else g.handles name }

/-- The ledger after the user has done something. Whoever names nothing that is held does nothing. -/
def act (g : Ledger) : UserAct → Ledger
  | .context _ none _ => (g.share g.family.made).note .root
  | .context _ (some holder) _ =>
    match g.token? holder with
    | some token => g.share token
    | none => g
  | .child parent =>
    match g.contexts[parent]? with
    | some token => (g.share g.family.made).note (.below token)
    | none => g
  | .copy number =>
    match g.contexts[number]? with
    | some token => g.share token
    | none => g
  | .start number handle _ _ _ =>
    match g.contexts[number]? with
    | some token => g.launch handle token
    | none => g
  | .startAlone handle _ _ => (g.note .root).launch handle g.family.made
  | .stop holder =>
    match g.token? holder with
    | some token => g.note (.stop token)
    | none => g
  | .drop handle =>
    { g with handles := fun name => if handle = name then none else g.handles name }

end Ledger

namespace Session

variable {s : Session}

/-- The token of something held. -/
def token? (s : Session) : Holder → Option TokenId
  | .context number => (s.contexts.get? number).map Context.token
  | .handle name => (s.handles.find? name).map Handle.token

/-- Whether something held is seen to be stopped. -/
def stopped? (s : Session) : Holder → Option Bool
  | .context number => s.stopped[number]?
  | .handle name => (s.handles.find? name).map fun h => (s.status h).stopped

/-- The session after the user has done something. -/
def act (s : Session) : UserAct → Session
  | .context config none profile =>
    s.addContext config none ((profile.bind s.contexts.get?).map Context.profile)
  | .context config (some holder) profile =>
    match s.token? holder with
    | some token =>
      s.addContext config (some token) ((profile.bind s.contexts.get?).map Context.profile)
    | none => s
  | .child parent =>
    match s.contexts.get? parent with
    | some ctx => s.addChild ctx
    | none => s
  | .copy number =>
    match s.contexts.get? number with
    | some ctx => s.addCopy ctx
    | none => s
  | .start number handle r input limit =>
    match s.contexts.get? number with
    | some ctx => s.start ctx handle r input limit
    | none => s
  | .startAlone handle r input => s.startAlone handle r input
  | .stop holder =>
    match s.token? holder with
    | some token => s.stop token
    | none => s
  | .drop handle => s.drop handle

/-- What is held is seen to be stopped if its token is stopped. -/
theorem stopped?_eq (s : Session) (holder : Holder) :
    s.stopped? holder = (s.token? holder).map s.world.isStopped := by
  cases holder with
  | context number =>
    rw [stopped?, stopped, token?, List.getElem?_map, Option.map_map]
    change (s.contexts.entries.toList[number]?).map _ = (s.contexts.entries[number]?).map _
    rw [Array.getElem?_toList]
    rfl
  | handle name =>
    rw [stopped?, token?, Option.map_map]
    rfl

end Session

/-! ### Sessions and their ledgers -/

/-- The ledger of a session is right: its family is followed by the tokens of the world, and what is
held has the tokens entered, which are there. -/
structure Session.Kept (s : Session) (g : Ledger) : Prop where
  follow : s.world.tokens.Follow g.family
  size : s.contexts.size = g.contexts.length
  token : ∀ holder, s.token? holder = g.token? holder
  there : ∀ holder token, g.token? holder = some token → token < g.family.made
  ordered : Keyed.Ordered s.handles

namespace Session.Kept

variable {s s' : Session} {g : Ledger} {family : Family}

/-- What is not about contexts and handles concerns the tokens only. -/
theorem keep (kept : s.Kept g) (contexts : s'.contexts = s.contexts)
    (handles : s'.handles = s.handles) (follow : s'.world.tokens.Follow family)
    (grown : g.family.made ≤ family.made) : s'.Kept { g with family } where
  follow := follow
  size := contexts ▸ kept.size
  token holder := by
    have h := kept.token holder
    cases holder <;> simpa only [Session.token?, Ledger.token?, contexts, handles] using h
  there holder token h := by
    have hthere := kept.there holder token (by cases holder <;> exact h)
    exact Nat.lt_of_lt_of_le hthere grown
  ordered := handles ▸ kept.ordered

/-- A new context is entered with its token. -/
theorem enter (kept : s.Kept g) (ctx : Context) (there : ctx.token < g.family.made) :
    { s with contexts := s.contexts.push ctx }.Kept (g.share ctx.token) where
  follow := kept.follow
  size := by
    rw [Table.size_push, kept.size, Ledger.share, List.length_append]
    rfl
  token holder := by
    have h := kept.token holder
    cases holder with
    | handle name => exact h
    | context number =>
      have hget := Table.get?_push s.contexts ctx number
      simp only [Session.token?, Ledger.token?, Ledger.share, hget] at h ⊢
      rcases Nat.lt_trichotomy number s.contexts.size with hlt | rfl | hgt
      · rw [if_neg (Nat.ne_of_lt hlt), List.getElem?_append_left (kept.size ▸ hlt), h]
      · rw [if_pos rfl, kept.size, List.getElem?_concat_length]
        rfl
      · have hnone : s.contexts.get? number = none :=
          (s.contexts.get?_eq_none_iff number).mpr (Nat.le_of_lt hgt)
        rw [if_neg (Nat.ne_of_gt hgt), hnone]
        refine (List.getElem?_eq_none ?_).symm
        rw [List.length_append, ← kept.size]
        exact hgt
  there holder token h := by
    cases holder with
    | handle name => exact kept.there (.handle name) token h
    | context number =>
      rcases List.mem_append.mp (List.mem_of_getElem? h) with hold | hnew
      · obtain ⟨number', hnumber'⟩ := List.getElem?_of_mem hold
        exact kept.there (.context number') token hnumber'
      · exact List.mem_singleton.mp hnew ▸ there
  ordered := kept.ordered

/-- A run is entered with a new token below that of its context. -/
theorem start (kept : s.Kept g) (ctx : Context) (handle : String) (r : Runnable) (input : Data)
    (limit : Option LimitId) :
    (s.start ctx handle r input limit).Kept (g.launch handle ctx.token) where
  follow := World.follow_spawn kept.follow _ _ _
  size := kept.size
  token holder := by
    have h := kept.token holder
    cases holder with
    | context number => exact h
    | handle name =>
      have hfind := Keyed.find?_alter handle name
        (fun _ => (⟨s.world.tasks.size, s.world.tokens.size, r.name⟩ : Handle)) s.handles kept.ordered
      change (Keyed.find? name (Keyed.alter handle _ s.handles)).map Handle.token = _
      rw [hfind]
      simp only [Ledger.token?, Ledger.launch]
      split
      · exact congrArg some kept.follow.size
      · exact h
  there holder token h := by
    have hgrown : g.family.made < (g.launch handle ctx.token).family.made := Nat.lt_succ_self _
    cases holder with
    | context number => exact Nat.lt_trans (kept.there (.context number) token h) hgrown
    | handle name =>
      simp only [Ledger.token?, Ledger.launch] at h
      split at h
      · exact Option.some.inj h ▸ hgrown
      · exact Nat.lt_trans (kept.there (.handle name) token h) hgrown
  ordered := kept.ordered.alter

/-- A context with a new token is entered with the event that makes it. -/
theorem addContext_new (kept : s.Kept g) (config : Config) (profile : Option ProfileId) :
    (s.addContext config none profile).Kept ((g.share g.family.made).note .root) := by
  have hroot : ({ s with world := { s.world with
      tokens := s.world.tokens.addRoot
      profiles := if profile.isSome then s.world.profiles else s.world.profiles.push .empty } } :
      Session).Kept { g with family := .root :: g.family } :=
    kept.keep rfl rfl kept.follow.root (Nat.le_succ _)
  rw [← kept.follow.size]
  refine hroot.enter ⟨s.world.tokens.size, config, profile.getD s.world.profiles.size⟩ ?_
  rw [kept.follow.size]
  exact Nat.lt_succ_self _

/-- A context with a token that is there is entered with this token. -/
theorem addContext_shared (kept : s.Kept g) (config : Config) {token : TokenId}
    (there : token < g.family.made) (profile : Option ProfileId) :
    (s.addContext config (some token) profile).Kept (g.share token) := by
  have hsame : ({ s with world := { s.world with
      profiles := if profile.isSome then s.world.profiles else s.world.profiles.push .empty } } :
      Session).Kept g := kept.keep rfl rfl kept.follow (Nat.le_refl _)
  exact hsame.enter ⟨token, config, profile.getD s.world.profiles.size⟩ there

/-- A child is entered with a new token below that of its parent. -/
theorem addChild (kept : s.Kept g) (ctx : Context) :
    (s.addChild ctx).Kept ((g.share g.family.made).note (.below ctx.token)) := by
  have hbelow : ({ s with world := { s.world with
      tokens := s.world.tokens.addBelow ctx.token } } : Session).Kept
      { g with family := .below ctx.token :: g.family } :=
    kept.keep rfl rfl (kept.follow.below ctx.token) (Nat.le_succ _)
  rw [← kept.follow.size]
  refine hbelow.enter { ctx with token := s.world.tokens.size } ?_
  rw [kept.follow.size]
  exact Nat.lt_succ_self _

/-- A run below a context of its own is entered below a new token that nothing held has. -/
theorem startAlone (kept : s.Kept g) (handle : String) (r : Runnable) (input : Data) :
    (s.startAlone handle r input).Kept ((g.note .root).launch handle g.family.made) := by
  have hroot : ({ s.addContext .default none none with contexts := s.contexts } : Session).Kept
      (g.note .root) := kept.keep rfl rfl kept.follow.root (Nat.le_succ _)
  have hcontext : (s.addContext .default none none).contexts.get? s.contexts.size =
      some ⟨s.world.tokens.size, .default, s.world.profiles.size⟩ := by
    change (s.contexts.push _).get? s.contexts.size = _
    rw [Table.get?_push, if_pos rfl]
    rfl
  rw [Session.startAlone, hcontext, ← kept.follow.size]
  exact hroot.start _ handle r input none

theorem stop (kept : s.Kept g) (token : TokenId) : (s.stop token).Kept (g.note (.stop token)) :=
  kept.keep rfl rfl (World.follow_stop kept.follow [token]) (Nat.le_refl _)

theorem drop (kept : s.Kept g) (handle : String) :
    (s.drop handle).Kept (g.act (.drop handle)) where
  follow := kept.follow
  size := kept.size
  token holder := by
    have h := kept.token holder
    cases holder with
    | context number => exact h
    | handle name =>
      change (Keyed.find? name (Keyed.erase handle s.handles)).map Handle.token = _
      rw [Keyed.find?_erase handle name kept.ordered]
      simp only [Ledger.token?, Ledger.act]
      split
      · rfl
      · exact h
  there holder token h := by
    cases holder with
    | context number => exact kept.there (.context number) token h
    | handle name =>
      simp only [Ledger.token?, Ledger.act] at h
      split at h
      · contradiction
      · exact kept.there (.handle name) token h
  ordered := kept.ordered.erase handle

/-- A context by number is entered with its token, if there is one. -/
theorem context_eq (kept : s.Kept g) (number : Nat) :
    g.contexts[number]? = (s.contexts.get? number).map Context.token :=
  (kept.token (.context number)).symm

/-- Whatever the user does, the ledger remains right. -/
theorem act (kept : s.Kept g) (a : UserAct) : (s.act a).Kept (g.act a) := by
  cases a with
  | context config token profile =>
    cases token with
    | none => exact kept.addContext_new config _
    | some holder =>
      simp only [Session.act, Ledger.act, kept.token holder]
      cases htoken : g.token? holder with
      | none => exact kept
      | some token => exact kept.addContext_shared config (kept.there holder token htoken) _
  | child parent =>
    simp only [Session.act, Ledger.act, kept.context_eq]
    cases s.contexts.get? parent with
    | none => exact kept
    | some ctx => exact kept.addChild ctx
  | copy number =>
    simp only [Session.act, Ledger.act, kept.context_eq]
    cases hctx : s.contexts.get? number with
    | none => exact kept
    | some ctx =>
      refine kept.enter ctx (kept.there (.context number) ctx.token ?_)
      rw [Ledger.token?, kept.context_eq, hctx]
      rfl
  | start number handle r input limit =>
    simp only [Session.act, Ledger.act, kept.context_eq]
    cases s.contexts.get? number with
    | none => exact kept
    | some ctx => exact kept.start ctx handle r input limit
  | startAlone handle r input => exact kept.startAlone handle r input
  | stop holder =>
    simp only [Session.act, Ledger.act, kept.token holder]
    cases g.token? holder with
    | none => exact kept
    | some token => exact kept.stop token
  | drop handle => exact kept.drop handle

end Session.Kept

/-- The first session and its ledger. -/
theorem Session.kept_first (config : Config) : (Session.ofConfig config).Kept .first := by
  have hempty : (⟨.empty, .empty, [], [], []⟩ : Session).Kept ⟨[], [], fun _ => none⟩ := by
    refine ⟨Tokens.follow_empty, rfl, fun holder => ?_, fun holder token h => ?_, trivial⟩
    · cases holder <;> simp [Session.token?, Ledger.token?, Keyed.find?]
    · cases holder <;> simp [Ledger.token?] at h
  exact hempty.addContext_new config none

end Orchestra
