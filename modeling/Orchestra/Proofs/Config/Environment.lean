import Mathlib.Tactic.Simproc.ExistsAndEq
import Orchestra.Proofs.Config.Words

/-!
# Which settings the environment gives

Each of the four variables is read by itself, and the settings follow from what each of them writes, with the
defaults where one is not set. The first variable that cannot be read is reported, and a bound of zero only
if all of them can. What is read are valid settings, and valid settings that are written into variables are
read back as they were.
-/

namespace Orchestra.Config

/-- The variables. -/
inductive Variable where
  | raceGrace
  | stopGrace
  | mapLimit
  | policy
deriving DecidableEq, Repr

namespace Variable

/-- The variables in the order in which they are read. -/
def declared : List Variable := [raceGrace, stopGrace, mapLimit, policy]

/-- The name under which a variable is looked up. -/
def key : Variable → String
  | raceGrace => raceGraceKey
  | stopGrace => stopGraceKey
  | mapLimit => mapLimitKey
  | policy => policyKey

/-- What can be read: the name of a policy, and elsewhere a number of 64 bits. -/
def Legible : Variable → String → Prop
  | policy, s => ∃ p, FailurePolicy.Names s p
  | _, s => ∃ n < UInt64.size, Writes s n

/-- What is accepted: nobody can run under a bound of zero, which is legible. -/
def Accepts : Variable → String → Prop
  | mapLimit, s => ∃ n < UInt64.size, 1 ≤ n ∧ Writes s n
  | v, s => v.Legible s

/-- What is reported of a text that is not legible. -/
def report : Variable → String → String
  | policy, s => "unknown failure policy: " ++ FailurePolicy.normalize s
  | v, s => v.key ++ ": cannot parse " ++ Text.quoted s

/-- A variable is not set, or legible. -/
def Clear (lookup : String → Option String) (v : Variable) : Prop :=
  ∀ s, lookup v.key = some s → v.Legible s

/-- A variable that is set and not legible causes an error. -/
def Faulty (lookup : String → Option String) (v : Variable) (e : RunError) : Prop :=
  ∃ s, lookup v.key = some s ∧ ¬ v.Legible s ∧ e = .config (v.report s)

/-- The first of some variables that is not clear causes an error. -/
def FirstFault (lookup : String → Option String) : List Variable → RunError → Prop
  | [], _ => False
  | v :: rest, e => v.Faulty lookup e ∨ v.Clear lookup ∧ FirstFault lookup rest e

end Variable

/-- What a variable says, or a default if it is not set. -/
def Says {α : Type} (lookup : String → Option String) (key : String) (reads : String → α → Prop)
    (absent value : α) : Prop :=
  match lookup key with
  | some s => reads s value
  | none => value = absent

/-- The settings are those that the variables give. -/
structure GivenBy (c : Config) (lookup : String → Option String) : Prop where
  raceGrace : Says lookup raceGraceKey (fun s n => Writes s n ∧ n < UInt64.size) default.raceGraceMs
    c.raceGraceMs
  stopGrace : Says lookup stopGraceKey (fun s n => Writes s n ∧ n < UInt64.size) default.stopGraceMs
    c.stopGraceMs
  mapLimit : Says lookup mapLimitKey
    (fun s limit => ∃ n, Writes s n ∧ 1 ≤ n ∧ n < UInt64.size ∧ limit = some n) default.mapLimit c.mapLimit
  policy : Says lookup policyKey FailurePolicy.Names default.policy c.policy

/-- Settings that can be given: numbers of 64 bits, and no bound of zero. -/
structure Valid (c : Config) : Prop where
  raceGrace : c.raceGraceMs < UInt64.size
  stopGrace : c.stopGraceMs < UInt64.size
  mapLimit : ∀ n, c.mapLimit = some n → 1 ≤ n ∧ n < UInt64.size

/-- The settings written into variables; without a bound its variable is not set. -/
def inVariables (c : Config) : List (String × String) :=
  [(raceGraceKey, toString c.raceGraceMs), (stopGraceKey, toString c.stopGraceMs)] ++
    (c.mapLimit.map fun n => (mapLimitKey, toString n)).toList ++ [(policyKey, c.policy.text)]

variable {lookup : String → Option String} {c : Config} {e : RunError} {key : String}

/-! ### Reading in order -/

section Reading

variable {α β : Type}

theorem bind_eq_ok {x : Except RunError α} {f : α → Except RunError β} {b : β} :
    (x >>= f) = .ok b ↔ ∃ a, x = .ok a ∧ f a = .ok b := by
  cases x <;> simp [bind, Except.bind]

theorem bind_eq_error {x : Except RunError α} {f : α → Except RunError β} :
    (x >>= f) = .error e ↔ x = .error e ∨ ∃ a, x = .ok a ∧ f a = .error e := by
  cases x <;> simp [bind, Except.bind]

/-- What a variable is read as, or a default if it is not set. -/
def setting (lookup : String → Option String) (key : String) (read : String → Except RunError α)
    (absent : α) : Except RunError α :=
  match lookup key with
  | some s => read s
  | none => .ok absent

variable {read : String → Except RunError α} {absent value : α}

theorem setting_eq_ok : setting lookup key read absent = .ok value ↔
    Says lookup key (fun s value => read s = .ok value) absent value := by
  unfold setting Says
  cases lookup key with
  | none => simp [eq_comm]
  | some s => rfl

theorem setting_eq_error : setting lookup key read absent = .error e ↔
    ∃ s, lookup key = some s ∧ read s = .error e := by
  unfold setting
  cases lookup key <;> simp

/-- The settings after a variable was read over settings with the default. -/
theorem readVariable_bind {γ : Type} {store : Config → α → Config} {r : String → Except RunError β}
    {absent : β} (build : β → Config) (set : ∀ s, (read s).map (store c) = (r s).map build)
    (unset : c = build absent) (k : Config → Except RunError γ) :
    (readVariable lookup key read store c >>= k) =
      (setting lookup key r absent >>= fun value => k (build value)) := by
  unfold readVariable setting
  cases lookup key with
  | none => exact congrArg k unset
  | some s =>
    dsimp only
    rw [set]
    cases r s <;> rfl

end Reading

theorem readWord_eq_ok {s : String} {n : Nat} :
    readWord key s = .ok n ↔ Writes s n ∧ n < UInt64.size := by
  rw [← word?_eq_some, readWord]
  cases word? s <;> simp

theorem readWord_eq_error {s : String} : readWord key s = .error e ↔
    (¬ ∃ n < UInt64.size, Writes s n) ∧ e = .config (key ++ ": cannot parse " ++ Text.quoted s) := by
  have hnone : (¬ ∃ n < UInt64.size, Writes s n) ↔ word? s = none := by
    simp only [Option.eq_none_iff_forall_ne_some, ne_eq, word?_eq_some, not_exists, not_and]
    exact forall_congr' fun n => imp_not_comm
  rw [hnone, readWord]
  cases word? s <;> simp [eq_comm]

/-- The settings before it is looked at whether the bound is zero. -/
theorem ofEnvironment_eq (lookup : String → Option String) : ofEnvironment lookup = (do
    let raceGraceMs ← setting lookup Variable.raceGrace.key (readWord raceGraceKey) default.raceGraceMs
    let stopGraceMs ← setting lookup Variable.stopGrace.key (readWord stopGraceKey) default.stopGraceMs
    let mapLimit ← setting lookup Variable.mapLimit.key (fun s => (readWord mapLimitKey s).map some)
      default.mapLimit
    let policy ← setting lookup Variable.policy.key FailurePolicy.parse default.policy
    validate ⟨raceGraceMs, stopGraceMs, mapLimit, policy⟩) := by
  unfold ofEnvironment
  refine (readVariable_bind (fun n => { default with raceGraceMs := n }) (fun _ => rfl) rfl _).trans ?_
  refine bind_congr fun raceGraceMs => ?_
  refine (readVariable_bind (fun n => ⟨raceGraceMs, n, none, .failFast⟩) (fun _ => rfl) rfl _).trans ?_
  refine bind_congr fun stopGraceMs => ?_
  refine (readVariable_bind (r := fun s => (readWord mapLimitKey s).map some)
    (fun limit => ⟨raceGraceMs, stopGraceMs, limit, .failFast⟩) (fun s => ?_) rfl _).trans ?_
  · cases readWord mapLimitKey s <;> rfl
  refine bind_congr fun mapLimit => ?_
  exact readVariable_bind (fun policy => ⟨raceGraceMs, stopGraceMs, mapLimit, policy⟩) (fun _ => rfl) rfl _

/-! ### What is read -/

theorem validate_eq_ok {d : Config} : c.validate = .ok d ↔ c.mapLimit ≠ some 0 ∧ c = d := by
  unfold validate
  split <;> simp_all

theorem validate_eq_error : c.validate = .error e ↔
    c.mapLimit = some 0 ∧ e = .config "map_max_concurrency must be at least 1" := by
  unfold validate
  split <;> simp_all [eq_comm]

theorem readLimit_eq_ok {s : String} {limit : Option Nat} : (readWord key s).map some = .ok limit ↔
    ∃ n, (Writes s n ∧ n < UInt64.size) ∧ limit = some n := by
  simp only [← @readWord_eq_ok key]
  cases readWord key s <;> simp [Except.map, eq_comm]

/-- A bound that is not zero is one that at least one can run under. -/
theorem says_mapLimit {limit : Option Nat} :
    Says lookup mapLimitKey (fun s limit => ∃ n, (Writes s n ∧ n < UInt64.size) ∧ limit = some n)
      default.mapLimit limit ∧ limit ≠ some 0 ↔
    Says lookup mapLimitKey (fun s limit => ∃ n, Writes s n ∧ 1 ≤ n ∧ n < UInt64.size ∧ limit = some n)
      default.mapLimit limit := by
  unfold Says
  cases lookup mapLimitKey with
  | none =>
    refine and_iff_left_of_imp fun h => ?_
    rw [h]
    exact nofun
  | some s =>
    constructor
    · rintro ⟨⟨n, ⟨hwrites, hsize⟩, rfl⟩, hzero⟩
      exact ⟨n, hwrites, Nat.pos_of_ne_zero fun h => hzero (congrArg some h), hsize, rfl⟩
    · rintro ⟨n, hwrites, hpos, hsize, rfl⟩
      exact ⟨⟨n, ⟨hwrites, hsize⟩, rfl⟩, fun h => Nat.ne_of_gt hpos (Option.some.inj h)⟩

/-- The settings that are read are those that the variables give. -/
theorem ofEnvironment_eq_ok : ofEnvironment lookup = .ok c ↔ c.GivenBy lookup := by
  simp only [ofEnvironment_eq, bind_eq_ok, setting_eq_ok, readWord_eq_ok, readLimit_eq_ok,
    FailurePolicy.parse_eq_ok, validate_eq_ok]
  constructor
  · rintro ⟨_, hrace, _, hstop, _, hlimit, _, hpolicy, hzero, rfl⟩
    exact ⟨hrace, hstop, says_mapLimit.mp ⟨hlimit, hzero⟩, hpolicy⟩
  · rintro ⟨hrace, hstop, hlimit, hpolicy⟩
    obtain ⟨hlimit, hzero⟩ := says_mapLimit.mpr hlimit
    exact ⟨_, hrace, _, hstop, _, hlimit, _, hpolicy, hzero, rfl⟩

/-! ### What is reported -/

namespace Variable

variable {v : Variable} {α : Type} {read : String → Except RunError α} {absent : α}

/-- A reader of a variable accepts what is legible, and otherwise reports the text. -/
def Reads (v : Variable) (read : String → Except RunError α) : Prop :=
  ∀ s e, read s = .error e ↔ ¬ v.Legible s ∧ e = .config (v.report s)

theorem Reads.setting_eq_error (h : v.Reads read) :
    setting lookup v.key read absent = .error e ↔ v.Faulty lookup e := by
  simp only [Config.setting_eq_error, h _ _, Faulty]

theorem Reads.exists_ok (h : v.Reads read) {s : String} : (∃ value, read s = .ok value) ↔ v.Legible s := by
  cases hs : read s with
  | error e => simp [((h s e).mp hs).1]
  | ok value =>
    have hlegible : v.Legible s := by
      by_contra hnot
      have herror := (h s _).mpr ⟨hnot, rfl⟩
      rw [hs] at herror
      contradiction
    simp [hlegible]

theorem Reads.exists_setting (h : v.Reads read) :
    (∃ value, setting lookup v.key read absent = .ok value) ↔ v.Clear lookup := by
  unfold Clear setting
  cases lookup v.key with
  | none => simp
  | some s => simp [h.exists_ok]

theorem reads_raceGrace : raceGrace.Reads (readWord raceGraceKey) := fun _ _ => readWord_eq_error

theorem reads_stopGrace : stopGrace.Reads (readWord stopGraceKey) := fun _ _ => readWord_eq_error

theorem reads_mapLimit : mapLimit.Reads fun s => (readWord mapLimitKey s).map some := by
  intro s e
  refine Iff.trans ?_ readWord_eq_error
  dsimp only [Variable.key]
  cases readWord mapLimitKey s <;> simp [Except.map]

theorem reads_policy : policy.Reads FailurePolicy.parse := by
  intro s e
  rw [FailurePolicy.parse_eq_error, ← not_exists]
  rfl

end Variable

/-- The bound is read as zero where zero is written. -/
theorem limit_eq_zero :
    setting lookup Variable.mapLimit.key (fun s => (readWord mapLimitKey s).map some) default.mapLimit =
      .ok (some 0) ↔ ∃ s, lookup mapLimitKey = some s ∧ Writes s 0 := by
  rw [setting_eq_ok, Variable.key]
  unfold Says
  cases lookup mapLimitKey with
  | none => simp [default]
  | some s =>
    simp only [readLimit_eq_ok, Option.some.injEq, ↓existsAndEq, and_true, true_and]
    exact and_iff_left (show 0 < UInt64.size by decide)

/-- Zero is legible. -/
theorem clear_of_zero (h : ∃ s, lookup mapLimitKey = some s ∧ Writes s 0) :
    Variable.mapLimit.Clear lookup := by
  obtain ⟨s, hs, hzero⟩ := h
  intro t ht
  obtain rfl : s = t := Option.some.inj (hs.symm.trans ht)
  exact ⟨0, by decide, hzero⟩

theorem forall_variable {P : Variable → Prop} :
    (∀ v, P v) ↔ P .raceGrace ∧ P .stopGrace ∧ P .mapLimit ∧ P .policy :=
  ⟨fun h => ⟨h _, h _, h _, h _⟩, fun ⟨hrace, hstop, hlimit, hpolicy⟩ v => by cases v <;> assumption⟩

/-- The first variable that cannot be read is reported, and a bound of zero if all of them can. -/
theorem ofEnvironment_eq_error : ofEnvironment lookup = .error e ↔
    Variable.FirstFault lookup Variable.declared e ∨
      ((∀ v : Variable, v.Clear lookup) ∧ (∃ s, lookup mapLimitKey = some s ∧ Writes s 0) ∧
        e = .config "map_max_concurrency must be at least 1") := by
  simp only [ofEnvironment_eq, bind_eq_error, validate_eq_error, and_or_left, exists_or, exists_and_right,
    Variable.reads_raceGrace.setting_eq_error, Variable.reads_raceGrace.exists_setting,
    Variable.reads_stopGrace.setting_eq_error, Variable.reads_stopGrace.exists_setting,
    Variable.reads_mapLimit.setting_eq_error, Variable.reads_mapLimit.exists_setting,
    Variable.reads_policy.setting_eq_error, Variable.reads_policy.exists_setting,
    Variable.FirstFault, Variable.declared, and_false, or_false, forall_variable, ↓existsAndEq, true_and,
    limit_eq_zero, or_assoc]
  refine or_congr_right (or_congr_right (or_congr_right (or_congr_right ?_)))
  constructor
  · rintro ⟨hrace, hstop, hzero, hpolicy, he⟩
    exact ⟨⟨hrace, hstop, clear_of_zero hzero, hpolicy⟩, hzero, he⟩
  · rintro ⟨⟨hrace, hstop, -, hpolicy⟩, hzero, he⟩
    exact ⟨hrace, hstop, hzero, hpolicy, he⟩

/-! ### What is accepted -/

theorem exists_said {α : Type} {reads : String → α → Prop} (absent : α) :
    (∃ value, Says lookup key reads absent value) ↔ ∀ s, lookup key = some s → ∃ value, reads s value := by
  unfold Says
  cases lookup key <;> simp

/-- There are settings that the variables give if each of them is accepted. -/
theorem exists_givenBy :
    (∃ c : Config, c.GivenBy lookup) ↔ ∀ (v : Variable) s, lookup v.key = some s → v.Accepts s := by
  rw [forall_variable]
  constructor
  · rintro ⟨c, hc⟩
    refine ⟨fun s hs => ?_, fun s hs => ?_, fun s hs => ?_, (exists_said _).mp ⟨_, hc.policy⟩⟩
    · obtain ⟨n, hwrites, hsize⟩ := (exists_said _).mp ⟨_, hc.raceGrace⟩ s hs
      exact ⟨n, hsize, hwrites⟩
    · obtain ⟨n, hwrites, hsize⟩ := (exists_said _).mp ⟨_, hc.stopGrace⟩ s hs
      exact ⟨n, hsize, hwrites⟩
    · obtain ⟨_, n, hwrites, hpos, hsize, -⟩ := (exists_said _).mp ⟨_, hc.mapLimit⟩ s hs
      exact ⟨n, hsize, hpos, hwrites⟩
  · rintro ⟨hrace, hstop, hlimit, hpolicy⟩
    obtain ⟨raceGraceMs, hrace⟩ := (exists_said default.raceGraceMs).mpr fun s hs =>
      (hrace s hs).imp fun n hn => hn.symm
    obtain ⟨stopGraceMs, hstop⟩ := (exists_said default.stopGraceMs).mpr fun s hs =>
      (hstop s hs).imp fun n hn => hn.symm
    obtain ⟨limit, hlimit⟩ : ∃ limit, Says lookup mapLimitKey
        (fun s limit => ∃ n, Writes s n ∧ 1 ≤ n ∧ n < UInt64.size ∧ limit = some n)
        default.mapLimit limit := by
      refine (exists_said _).mpr fun s hs => ?_
      obtain ⟨n, hsize, hpos, hwrites⟩ := hlimit s hs
      exact ⟨some n, n, hwrites, hpos, hsize, rfl⟩
    obtain ⟨policy, hpolicy⟩ := (exists_said default.policy).mpr hpolicy
    exact ⟨⟨raceGraceMs, stopGraceMs, limit, policy⟩, hrace, hstop, hlimit, hpolicy⟩

/-- A number is what is written of 64 bits, or a default that fits in them. -/
theorem size_of_says {absent n : Nat} (habsent : absent < UInt64.size)
    (h : Says lookup key (fun s n => Writes s n ∧ n < UInt64.size) absent n) : n < UInt64.size := by
  unfold Says at h
  cases hlookup : lookup key with
  | none =>
    rw [hlookup] at h
    exact h ▸ habsent
  | some s =>
    rw [hlookup] at h
    exact h.2

/-- What is read are valid settings. -/
theorem GivenBy.valid (h : c.GivenBy lookup) : c.Valid where
  raceGrace := size_of_says (by decide) h.raceGrace
  stopGrace := size_of_says (by decide) h.stopGrace
  mapLimit := by
    intro n hn
    have hlimit := h.mapLimit
    unfold Says at hlimit
    split at hlimit
    · obtain ⟨m, -, hpos, hsize, hm⟩ := hlimit
      obtain rfl : n = m := Option.some.inj (hn.symm.trans hm)
      exact ⟨hpos, hsize⟩
    · rw [hlimit] at hn
      contradiction

/-- Valid settings are given by the variables into which they are written. -/
theorem Valid.givenBy (h : c.Valid) : c.GivenBy fun key => c.inVariables.lookup key where
  raceGrace := ⟨writes_toString _, h.raceGrace⟩
  stopGrace := ⟨writes_toString _, h.stopGrace⟩
  mapLimit := by
    obtain ⟨raceGraceMs, stopGraceMs, limit, policy⟩ := c
    cases limit with
    | none => rfl
    | some n => exact ⟨n, writes_toString n, (h.mapLimit n rfl).1, (h.mapLimit n rfl).2, rfl⟩
  policy := by
    obtain ⟨raceGraceMs, stopGraceMs, limit, policy⟩ := c
    cases limit with
    | none => exact FailurePolicy.names_text policy
    | some n => exact FailurePolicy.names_text policy

/-- The settings that the environment gives: they are read if each variable that is set is accepted, and then
hold what it says. If not, the first that is not legible is reported, or else the bound of zero. What is read
is valid, and what is valid is read back from the variables into which it is written. -/
theorem environment_gives_settings (lookup : String → Option String) :
    ((∃ c, ofEnvironment lookup = .ok c) ↔ ∀ (v : Variable) s, lookup v.key = some s → v.Accepts s) ∧
    (∀ c, ofEnvironment lookup = .ok c ↔ c.GivenBy lookup) ∧
    (∀ c, ofEnvironment lookup = .ok c → c.Valid ∧ c.mapLimit ≠ some 0) ∧
    (∀ e, ofEnvironment lookup = .error e ↔
      Variable.FirstFault lookup Variable.declared e ∨
        (∀ v : Variable, v.Clear lookup) ∧ (∃ s, lookup mapLimitKey = some s ∧ Writes s 0) ∧
          e = .config "map_max_concurrency must be at least 1") ∧
    ∀ c : Config, c.Valid → ofEnvironment (fun key => c.inVariables.lookup key) = .ok c := by
  refine ⟨?_, fun c => ofEnvironment_eq_ok, fun c hc => ?_, fun e => ofEnvironment_eq_error,
    fun c hc => ofEnvironment_eq_ok.mpr hc.givenBy⟩
  · simp only [ofEnvironment_eq_ok]
    exact exists_givenBy
  · have hvalid := (ofEnvironment_eq_ok.mp hc).valid
    refine ⟨hvalid, fun hzero => ?_⟩
    exact absurd (hvalid.mapLimit 0 hzero).1 (by decide)

/-- A signed number between blanks and a name in other letters give settings, which are read back from the
variables into which they are written. -/
theorem environment_gives_settings_of_signed :
    let lookup (key : String) := [(raceGraceKey, " +0050 "), (policyKey, "Best-Effort")].lookup key
    let c : Config := ⟨50, 100, none, .bestEffort⟩
    ofEnvironment lookup = .ok c ∧ c.Valid ∧ ofEnvironment (fun key => c.inVariables.lookup key) = .ok c := by
  intro lookup c
  obtain ⟨-, hok, hvalid, -, hback⟩ := environment_gives_settings lookup
  have hread : ofEnvironment lookup = .ok c := (hok c).mpr
    { raceGrace := by
        refine ⟨⟨['+'], "0050".toList, ⟨[' '], [' '], rfl, ?_, ?_⟩, .inr rfl, nofun, ?_, rfl⟩, by decide⟩
        · exact List.forall_mem_singleton.mpr rfl
        · exact List.forall_mem_singleton.mpr rfl
        · exact List.all_eq_true.mp (rfl : "0050".toList.all Char.isDigit = true)
      stopGrace := rfl
      mapLimit := rfl
      policy := ⟨"Best-Effort".toList, ⟨[], [], rfl, nofun, nofun⟩, by decide⟩ }
  exact ⟨hread, (hvalid c hread).1, hback c (hvalid c hread).1⟩

end Orchestra.Config
