import Orchestra.Proofs.Info.Integers

/-!
# Merges along paths of keys

What a merge of two metadata holds at the end of a path of keys is decided by what both hold there. All
that the first one holds is still there and has its kind. What only the second one holds is there too,
unless something that is no object stands in its way in the first. Where both hold something, objects are
merged, arrays are appended and numbers added, and otherwise the first value stays. Two integers are not
always added that could be, as a sum is looked for in the type of one of them only.
-/

namespace Orchestra

namespace Number

/-- A number as it is stored: an integer that is a word, or a double that is a real number. -/
def Storable : Number → Prop
  | int n => Representable n
  | real x => x.isFinite = true

/-- What a number becomes when another is added to it. A sum that is no word, or not finite, leaves it as
it is. So do two signed words whose sum is an unsigned one only, and if one integer is negative and the
other beyond the signed words their sum is rounded. -/
inductive Added : Number → Number → Number → Prop
  | sum {a b : Int} (word : Representable (a + b)) (within : ¬ Overflows a b) (unmixed : ¬ Mixed a b) :
    Added (int a) (int b) (int (a + b))
  | unrepresentable {a b : Int} (h : ¬ Representable (a + b)) : Added (int a) (int b) (int a)
  | lost {a b : Int} (h : Overflows a b) : Added (int a) (int b) (int a)
  | rounded {a b : Int} (h : Mixed a b)
    (finite : ((Double.ofInt a).add (Double.ofInt b)).isFinite = true) :
    Added (int a) (int b) (real ((Double.ofInt a).add (Double.ofInt b)))
  | doubles {a b : Number} (h : ∀ m n, a = int m → b ≠ int n)
    (finite : (a.toDouble.add b.toDouble).isFinite = true) :
    Added a b (real (a.toDouble.add b.toDouble))
  | infinite {a b : Number} (h : ∀ m n, a = int m → b ≠ int n)
    (infinite : (a.toDouble.add b.toDouble).isFinite = false) : Added a b a

variable {m n : Int} {a b c : Number} {x : Double}

/-- Words whose sum is none are not added. -/
theorem add?_eq_none (hm : Representable m) (hn : Representable n) (h : ¬ Representable (m + n)) :
    (int m).add? (int n) = none := by
  rw [representable_iff] at hm hn h
  simp only [add?, fitsSigned, fitsUnsigned, Bool.and_eq_true, decide_eq_true_eq]
  split
  · rw [if_neg (by omega)]
  · rw [if_pos (by omega), if_neg (by omega)]

/-- Unless both are integers, numbers are added as doubles. -/
theorem add?_eq_realSum? (h : ∀ m n, a = int m → b ≠ int n) : a.add? b = realSum? a b := by
  cases a with
  | real x => rfl
  | int m =>
    cases b with
    | real x => rfl
    | int n => exact absurd rfl (h m n rfl)

theorem of_realSum?_eq_some (h : realSum? a b = some c) :
    c = real (a.toDouble.add b.toDouble) ∧ (a.toDouble.add b.toDouble).isFinite = true := by
  unfold realSum? ofDouble? at h
  split at h
  · next hfinite => exact ⟨(Option.some.inj h).symm, hfinite⟩
  · contradiction

/-- What is there after an addition. -/
theorem added (ha : a.Storable) (hb : b.Storable) : Added a b ((a.add? b).getD a) := by
  by_cases hints : ∀ m n, a = int m → b ≠ int n
  · rw [add?_eq_realSum? hints]
    unfold realSum? ofDouble?
    split
    · next hfinite => exact .doubles hints hfinite
    · next hinfinite => exact .infinite hints (Bool.eq_false_iff.mpr hinfinite)
  · push Not at hints
    obtain ⟨m, n, rfl, rfl⟩ := hints
    by_cases hword : Representable (m + n)
    · by_cases hover : Overflows m n
      · rw [hover.add?_eq_none ha hb]
        exact .lost hover
      by_cases hmixed : Mixed m n
      · obtain ⟨x, hx, -⟩ := hmixed.add?_eq_some ha hb
        obtain ⟨hsum, hfinite⟩ := of_realSum?_eq_some ((hmixed.add?_eq_realSum? ha hb).symm.trans hx)
        rw [hx, hsum]
        exact .rounded hmixed hfinite
      · rw [add?_eq_some ha hb hword hover hmixed]
        exact .sum hword hover hmixed
    · rw [add?_eq_none ha hb hword]
      exact .unrepresentable hword

/-- It can be stored. -/
theorem Added.storable (added : Added a b c) (ha : a.Storable) : c.Storable := by
  cases added with
  | sum word => exact word
  | unrepresentable | lost | infinite => exact ha
  | rounded _ finite | doubles _ finite => exact finite

end Number

namespace Json

/-- A value as it is stored: numbers can be stored, and every object within, in arrays too, has its keys
in strictly increasing order. -/
inductive WellFormed : Json → Prop
  | null : WellFormed null
  | bool (b : Bool) : WellFormed (bool b)
  | num {n : Number} (storable : n.Storable) : WellFormed (num n)
  | str (s : String) : WellFormed (str s)
  | arr {items : List Json} (values : ∀ v ∈ items, WellFormed v) : WellFormed (arr items)
  | obj {entries : List (String × Json)} (ordered : Keyed.Ordered entries)
    (values : ∀ p ∈ entries, WellFormed p.2) : WellFormed (obj entries)

/-- What becomes of a value that another one meets. -/
inductive Met : Json → Json → Json → Prop
  | objects (xs ys : List (String × Json)) : Met (obj xs) (obj ys) (obj (mergeEntries xs ys))
  | arrays (xs ys : List Json) : Met (arr xs) (arr ys) (arr (xs ++ ys))
  | numbers {a b c : Number} (added : a.Added b c) : Met (num a) (num b) (num c)
  | other {u v : Json} (h : u.kind = v.kind → u.kind ≠ .obj ∧ u.kind ≠ .arr ∧ u.kind ≠ .num) :
    Met u v u

/-- Nothing stands in the way of a path: what its proper prefixes lead to are objects. -/
def Opens (v : Json) (path : List String) : Prop :=
  ∀ before key after, path = before ++ key :: after → ∀ u, v.at? before = some u → u.kind = .obj

variable {a b u v w : Json} {key : String} {path : List String} {entries : List (String × Json)}

/-! ### Well-formed values -/

theorem wellFormed_obj_iff : (obj entries).WellFormed ↔
    Keyed.Ordered entries ∧ ∀ key v, Keyed.find? key entries = some v → v.WellFormed := by
  constructor
  · rintro (_ | _ | _ | _ | _ | ⟨ordered, values⟩)
    exact ⟨ordered, fun key v h => values _ (Keyed.mem_of_find? h)⟩
  · rintro ⟨ordered, values⟩
    exact .obj ordered fun p hp => values p.1 p.2 (ordered.find?_of_mem hp)

/-- What a path leads to is well-formed. -/
theorem WellFormed.at? (h : v.WellFormed) (hu : v.at? path = some u) : u.WellFormed := by
  induction path generalizing v with
  | nil =>
    cases hu
    exact h
  | cons key path ih =>
    obtain ⟨x, hx, hx'⟩ := Option.bind_eq_some_iff.mp hu
    obtain ⟨entries, rfl⟩ := eq_obj_of_kind (kind_of_field? hx)
    exact ih ((wellFormed_obj_iff.mp h).2 key x hx) hx'

theorem WellFormed.tidy (h : v.WellFormed) : v.Tidy := fun _ _ hu =>
  (wellFormed_obj_iff.mp (h.at? hu)).1

/-- What becomes of a value that another one meets is their merge. -/
theorem met_merge (ha : a.WellFormed) (hb : b.WellFormed) : Met a b (merge a b) := by
  by_cases hkind : a.kind = b.kind
  · cases ha with
    | num hm =>
      cases hb <;> first | contradiction | skip
      next hn => exact .numbers (Number.added hm hn)
    | arr =>
      cases hb <;> first | contradiction | exact .arrays _ _
    | obj =>
      cases hb <;> first | contradiction | exact .objects _ _
    | _ => cases hb <;> first | contradiction | exact .other fun _ => ⟨nofun, nofun, nofun⟩
  · have hleft : merge a b = a := by
      cases a <;> cases b <;> first | rfl | exact absurd rfl hkind
    rw [hleft]
    exact .other fun h => absurd h hkind

/-- What is found in merged entries is found on one side, or is a merge of what is on both. -/
theorem of_find?_mergeEntries {left right : List (String × Json)} (hleft : Keyed.Ordered left)
    (hright : Keyed.Ordered right) (h : Keyed.find? key (mergeEntries left right) = some v) :
    Keyed.find? key left = some v ∨ Keyed.find? key right = some v ∨ ∃ x y,
      Keyed.find? key left = some x ∧ Keyed.find? key right = some y ∧ v = merge x y := by
  rw [find?_mergeEntries hleft hright] at h
  cases hx : Keyed.find? key left with
  | none =>
    rw [hx] at h
    exact .inr (.inl h)
  | some x =>
    rw [hx] at h
    cases hy : Keyed.find? key right with
    | none =>
      rw [hy] at h
      exact .inl h
    | some y =>
      rw [hy] at h
      exact .inr (.inr ⟨x, y, rfl, rfl, (Option.some.inj h).symm⟩)

/-- A merge of well-formed values is well-formed. -/
theorem WellFormed.merge (ha : a.WellFormed) (hb : b.WellFormed) : (merge a b).WellFormed := by
  induction ha generalizing b with
  | @obj entries ordered values ih =>
    cases hb with
    | @obj entries' ordered' values' =>
      refine wellFormed_obj_iff.mpr ⟨ordered_mergeEntries ordered, fun key v hv => ?_⟩
      rcases of_find?_mergeEntries ordered ordered' hv with hx | hy | ⟨x, y, hx, hy, rfl⟩
      · exact values _ (Keyed.mem_of_find? hx)
      · exact values' _ (Keyed.mem_of_find? hy)
      · exact ih _ (Keyed.mem_of_find? hx) (values' _ (Keyed.mem_of_find? hy))
    | _ => exact .obj ordered values
  | @arr items hitems _ =>
    cases hb with
    | @arr items' hitems' =>
      exact .arr fun v hv => (List.mem_append.mp hv).elim (hitems v) (hitems' v)
    | _ => exact .arr hitems
  | @num n storable =>
    cases hb with
    | num storable' => exact .num ((Number.added storable storable').storable storable)
    | _ => exact .num storable
  | null => cases hb <;> exact .null
  | bool x => cases hb <;> exact .bool x
  | str s => cases hb <;> exact .str s

/-! ### Paths of one side -/

theorem opens_nil (v : Json) : v.Opens [] := fun before key after h =>
  absurd h.symm (by simp)

theorem opens_cons : v.Opens (key :: path) ↔
    v.kind = .obj ∧ ∀ u, v.field? key = some u → u.Opens path := by
  constructor
  · intro h
    refine ⟨h [] key path rfl v rfl, fun u hu before k after hpath w hw => ?_⟩
    exact h (key :: before) k after (by rw [hpath]; rfl) w (by rw [at?, hu]; exact hw)
  · rintro ⟨hobj, hopens⟩ before k after hpath w hw
    cases before with
    | nil =>
      cases hw
      exact hobj
    | cons l before =>
      obtain ⟨rfl, rfl⟩ := List.cons.inj hpath
      obtain ⟨x, hx, hw⟩ := Option.bind_eq_some_iff.mp hw
      exact hopens x hx before k after rfl w hw

/-- What only the first value has at the end of a path is there in the merge, -/
theorem at?_merge_of_left (ha : a.Tidy) (hb : b.Tidy) (hu : a.at? path = some u)
    (hnone : b.at? path = none) : (merge a b).at? path = some u := by
  induction path generalizing a b with
  | nil => contradiction
  | cons key path ih =>
    obtain ⟨x, hx, hu⟩ := Option.bind_eq_some_iff.mp hu
    rw [at?, field?_merge ha hb (kind_of_field? hx), hx]
    cases hy : b.field? key with
    | none => exact hu
    | some y =>
      rw [at?, hy] at hnone
      exact ih (ha.field hx) (hb.field hy) hu hnone

/-- what only the second one has if nothing stands in its way, -/
theorem at?_merge_of_right (ha : a.Tidy) (hb : b.Tidy) (hnone : a.at? path = none)
    (hv : b.at? path = some v) (opens : a.Opens path) : (merge a b).at? path = some v := by
  induction path generalizing a b with
  | nil => contradiction
  | cons key path ih =>
    obtain ⟨hobj, hopens⟩ := opens_cons.mp opens
    obtain ⟨y, hy, hv⟩ := Option.bind_eq_some_iff.mp hv
    rw [at?, field?_merge ha hb hobj, hy]
    cases hx : a.field? key with
    | none => exact hv
    | some x =>
      rw [at?, hx] at hnone
      exact ih (ha.field hx) (hb.field hy) hnone hv (hopens x hx)

/-- and nothing else. -/
theorem at?_of_at?_merge (ha : a.Tidy) (hb : b.Tidy) (hw : (merge a b).at? path = some w)
    (hnone : a.at? path = none) : (b.at? path).isSome ∧ a.Opens path := by
  induction path generalizing a b with
  | nil => contradiction
  | cons key path ih =>
    obtain ⟨z, hz, hw⟩ := Option.bind_eq_some_iff.mp hw
    have hobj : a.kind = .obj := (kind_merge a b).symm.trans (kind_of_field? hz)
    rw [field?_merge ha hb hobj] at hz
    rw [at?] at hnone ⊢
    cases hx : a.field? key with
    | none =>
      rw [hx, Option.merge_none_left] at hz
      rw [hz]
      refine ⟨Option.isSome_iff_exists.mpr ⟨w, hw⟩, opens_cons.mpr ⟨hobj, fun u hu => ?_⟩⟩
      cases hx.symm.trans hu
    | some x =>
      rw [hx] at hz hnone
      cases hy : b.field? key with
      | none =>
        rw [hy, Option.merge_none_right] at hz
        cases hz
        cases hnone.symm.trans hw
      | some y =>
        rw [hy] at hz
        cases hz
        obtain ⟨hsome, hopens⟩ := ih (ha.field hx) (hb.field hy) hw hnone
        refine ⟨hsome, opens_cons.mpr ⟨hobj, fun u hu => ?_⟩⟩
        cases hx.symm.trans hu
        exact hopens

end Json

namespace Info

/-- Metadata as they are stored. -/
def WellFormed (info : Info) : Prop :=
  info.toJson.WellFormed

/-- They stay so when what is stored under a key is changed to a value that is as values are stored. -/
theorem WellFormed.alter {info : Info} (h : info.WellFormed) {key : String} {change : Option Json → Json}
    (changed : (change (info.get? key)).WellFormed) :
    WellFormed ⟨Keyed.alter key change info.entries⟩ := by
  obtain ⟨ordered, values⟩ := Json.wellFormed_obj_iff.mp h
  refine Json.wellFormed_obj_iff.mpr ⟨ordered.alter, fun other v hv => ?_⟩
  rw [Keyed.find?_alter _ _ _ _ ordered] at hv
  split at hv
  · exact Option.some.inj hv ▸ changed
  · exact values other v hv

/-- They stay so when a key is removed, -/
theorem WellFormed.erase {info : Info} (h : info.WellFormed) (key : String) :
    (info.erase key).WellFormed := by
  cases h with
  | obj ordered values => exact .obj (ordered.erase key) fun p hp => values p (Keyed.mem_of_mem_erase hp)

/-- and when a value is appended to an array, which may be new. -/
theorem WellFormed.push {info : Info} (h : info.WellFormed) (key : String) {value : Json}
    (hvalue : value.WellFormed) : (info.push key value).WellFormed := by
  obtain ⟨-, values⟩ := Json.wellFormed_obj_iff.mp h
  refine h.alter (.arr (List.forall_mem_append.mpr ⟨?_, List.forall_mem_singleton.mpr hvalue⟩))
  cases hpresent : info.get? key with
  | none => exact List.forall_mem_nil _
  | some present =>
    have hwell := values key present hpresent
    cases hwell with
    | arr items => exact items
    | _ => exact List.forall_mem_singleton.mpr (values key _ hpresent)

/-- Metadata made of pairs whose values are well-formed are well-formed. -/
theorem wellFormed_ofPairs {pairs : List (String × Json)} (h : ∀ p ∈ pairs, p.2.WellFormed) :
    (ofPairs pairs).WellFormed := by
  induction pairs using List.reverseRecOn with
  | nil => exact .obj trivial nofun
  | append_singleton pairs p ih =>
    obtain ⟨hpairs, hp⟩ := List.forall_mem_append.mp h
    have hinsert : ofPairs (pairs ++ [p]) = (ofPairs pairs).insert p.1 p.2 :=
      congrArg Info.mk List.foldl_append
    exact hinsert ▸ (ih hpairs).alter (hp p (List.mem_singleton_self p))

/-- Metadata that are as they are stored. No others are made by operations on them. -/
@[ext] structure Lawful extends Info where
  wellFormed : toInfo.WellFormed

namespace Lawful

/-- No metadata. -/
def empty : Lawful :=
  ⟨.empty, .obj trivial nofun⟩

/-- Stores a value under a key. -/
def insert (info : Lawful) (key : String) (value : {v : Json // v.WellFormed}) : Lawful :=
  ⟨info.toInfo.insert key value, info.wellFormed.alter value.2⟩

/-- Removes a key. -/
def erase (info : Lawful) (key : String) : Lawful :=
  ⟨info.toInfo.erase key, info.wellFormed.erase key⟩

/-- Appends a value to the array under a key. -/
def push (info : Lawful) (key : String) (value : {v : Json // v.WellFormed}) : Lawful :=
  ⟨info.toInfo.push key value, info.wellFormed.push key value.2⟩

/-- Metadata from pairs, later pairs replacing earlier ones. -/
def ofPairs (pairs : List (String × {v : Json // v.WellFormed})) : Lawful :=
  ⟨.ofPairs (pairs.map fun p => (p.1, p.2)), wellFormed_ofPairs (List.forall_mem_map.mpr fun p _ => p.2.2)⟩

/-- Merges the second metadata into the first. -/
def merge (left right : Lawful) : Lawful :=
  ⟨left.toInfo.merge right.toInfo, Json.WellFormed.merge left.wellFormed right.wellFormed⟩

end Lawful

/-- For all metadata as they are stored. A path of keys leads to something in their merge if it does in
the first, or if it does in the second and nothing stands in its way in the first. If only one of them
has something there that is what is there; if both have, it is what becomes of the first when the second
meets it. So nothing of the first is lost, and it keeps its kind. The merge is as it is to be stored, its
keys in strictly increasing order in every object, and merging with no metadata on either side changes
nothing. -/
theorem merges_along_paths (left right : Lawful) :
    let l := left.toJson
    let r := right.toJson
    let m := (left.merge right).toJson
    (∀ path, (m.at? path).isSome ↔ (l.at? path).isSome ∨ (r.at? path).isSome ∧ l.Opens path) ∧
    (∀ path u, l.at? path = some u → r.at? path = none → m.at? path = some u) ∧
    (∀ path v, l.at? path = none → r.at? path = some v → l.Opens path → m.at? path = some v) ∧
    (∀ path u v, l.at? path = some u → r.at? path = some v →
      ∃ w, m.at? path = some w ∧ Json.Met u v w) ∧
    (∀ path u, l.at? path = some u → ∃ w, m.at? path = some w ∧ w.kind = u.kind) ∧
    (left.merge right).WellFormed ∧ Lawful.empty.merge left = left ∧ left.merge .empty = left := by
  intro l r m
  have hl : l.Tidy := Json.WellFormed.tidy left.wellFormed
  have hr : r.Tidy := Json.WellFormed.tidy right.wellFormed
  have hfirst (path u) (hu : l.at? path = some u) : ∃ w, m.at? path = some w ∧ w.kind = u.kind := by
    cases hv : r.at? path with
    | none => exact ⟨u, Json.at?_merge_of_left hl hr hu hv, rfl⟩
    | some v => exact ⟨_, Json.at?_merge_of_some hl hr hu hv, Json.kind_merge u v⟩
  refine ⟨fun path => ⟨fun h => ?_, fun h => ?_⟩, fun path u => Json.at?_merge_of_left hl hr,
    fun path v => Json.at?_merge_of_right hl hr, fun path u v hu hv => ?_, hfirst,
    (left.merge right).wellFormed, Lawful.ext (congrArg Info.entries (empty_merge hl)), rfl⟩
  · obtain ⟨w, hw⟩ := Option.isSome_iff_exists.mp h
    cases hu : l.at? path with
    | some u => exact .inl rfl
    | none => exact .inr (Json.at?_of_at?_merge hl hr hw hu)
  · cases hu : l.at? path with
    | some u =>
      obtain ⟨w, hw, -⟩ := hfirst path u hu
      exact Option.isSome_iff_exists.mpr ⟨w, hw⟩
    | none =>
      rw [hu] at h
      obtain ⟨hsome, hopens⟩ := h.resolve_left nofun
      obtain ⟨v, hv⟩ := Option.isSome_iff_exists.mp hsome
      exact Option.isSome_iff_exists.mpr ⟨v, Json.at?_merge_of_right hl hr hu hv hopens⟩
  · exact ⟨_, Json.at?_merge_of_some hl hr hu hv,
      Json.met_merge (Json.WellFormed.at? left.wellFormed hu) (Json.WellFormed.at? right.wellFormed hv)⟩

/-- Two metadata that have some paths of keys in common, where arrays are appended in an object, and in the
first of which a number stands in the way of an object of the second. -/
theorem merges_along_paths_of_pairs :
    let inner := (ofPairs [("c", .arr [.null]), ("d", .str "x")]).toJson
    let inner' := (ofPairs [("c", .arr [.bool true]), ("e", .num (.int 5))]).toJson
    let left := ofPairs [("a", .num (.int 1)), ("b", inner)]
    let right := ofPairs [("a", .obj [("z", .null)]), ("b", inner')]
    let m := (left.merge right).toJson
    m.at? ["a", "z"] = none ∧ m.at? ["b", "d"] = some (.str "x") ∧
      m.at? ["b", "e"] = some (.num (.int 5)) ∧
      (∃ w, m.at? ["b", "c"] = some w ∧ Json.Met (.arr [.null]) (.arr [.bool true]) w) ∧
      (∃ w, m.at? ["a"] = some w ∧ w.kind = .num) ∧ (left.merge right).WellFormed := by
  intro inner inner' left right m
  have hword (n : Int) (h : Number.Representable n) : (Json.num (.int n)).WellFormed := .num h
  have hinner : inner.WellFormed := wellFormed_ofPairs (List.forall_mem_cons.mpr
    ⟨.arr (List.forall_mem_singleton.mpr .null), List.forall_mem_singleton.mpr (.str "x")⟩)
  have hinner' : inner'.WellFormed := wellFormed_ofPairs (List.forall_mem_cons.mpr
    ⟨.arr (List.forall_mem_singleton.mpr (.bool true)),
      List.forall_mem_singleton.mpr (hword 5 (.inl rfl))⟩)
  have hleft : left.WellFormed := wellFormed_ofPairs (List.forall_mem_cons.mpr
    ⟨hword 1 (.inl rfl), List.forall_mem_singleton.mpr hinner⟩)
  have hright : right.WellFormed := wellFormed_ofPairs (List.forall_mem_cons.mpr
    ⟨.obj ⟨nofun, trivial⟩ (List.forall_mem_singleton.mpr .null),
      List.forall_mem_singleton.mpr hinner'⟩)
  obtain ⟨hpaths, hleft', hright', hboth, hkinds, hmerge, -⟩ := merges_along_paths ⟨left, hleft⟩ ⟨right, hright⟩
  have hblocked : ¬ left.toJson.Opens ["a", "z"] := fun h =>
    absurd (h ["a"] "z" [] rfl (.num (.int 1)) (by with_unfolding_all rfl)) nofun
  have hopens : left.toJson.Opens ["b", "e"] := by
    refine Json.opens_cons.mpr ⟨rfl, fun u hu => ?_⟩
    cases hu.symm.trans (show left.toJson.field? "b" = some inner by with_unfolding_all rfl)
    exact Json.opens_cons.mpr ⟨rfl, fun u _ => Json.opens_nil u⟩
  refine ⟨?_, hleft' _ _ (by with_unfolding_all rfl) (by with_unfolding_all rfl),
    hright' _ _ (by with_unfolding_all rfl) (by with_unfolding_all rfl) hopens,
    hboth _ _ _ (by with_unfolding_all rfl) (by with_unfolding_all rfl),
    hkinds ["a"] (.num (.int 1)) (by with_unfolding_all rfl), hmerge⟩
  refine Option.not_isSome_iff_eq_none.mp fun h => ?_
  rcases (hpaths ["a", "z"]).mp h with h | ⟨-, h⟩
  · exact absurd (show (left.toJson.at? ["a", "z"]).isSome = false by with_unfolding_all rfl) (by simp [h])
  · exact hblocked h

/-- Also within objects a merge leaves the largest signed word where 1 is added to it, although their sum
is an unsigned word. -/
theorem merge_of_largest_within :
    let nested (n : Int) : Info := ofPairs [("k", .obj [("n", .num (.int n))])]
    let largest := nested 0x7fffffffffffffff
    let one := nested 1
    let holds (info : Info) (n : Int) : Prop := info.toJson.at? ["k", "n"] = some (.num (.int n))
    largest.WellFormed ∧ one.WellFormed ∧ holds largest 0x7fffffffffffffff ∧ holds one 1 ∧
      Number.Representable (0x7fffffffffffffff + 1) ∧
      ¬ holds (largest.merge one) (0x7fffffffffffffff + 1) ∧
      holds (largest.merge one) 0x7fffffffffffffff := by
  intro nested largest one holds
  have hword (n : Int) (h : Number.Representable n) : (nested n).WellFormed :=
    wellFormed_ofPairs (List.forall_mem_singleton.mpr
      (.obj ⟨nofun, trivial⟩ (List.forall_mem_singleton.mpr (.num h))))
  have hstays : holds (largest.merge one) 0x7fffffffffffffff := by with_unfolding_all rfl
  refine ⟨hword _ (.inl rfl), hword _ (.inl rfl), by with_unfolding_all rfl, by with_unfolding_all rfl,
    .inr rfl, fun h => ?_, hstays⟩
  have hnumbers := hstays.symm.trans h
  simp at hnumbers

end Info

end Orchestra
