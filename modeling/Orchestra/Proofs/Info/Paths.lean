import Mathlib.Data.Option.Basic
import Orchestra.Proofs.Info

/-!
# Values along paths of keys

A path of keys leads from a JSON value into the objects within it, to at most one value. Two values
whose objects are in key order and that look alike at the end of every path are equal, and where two
values have the same kind on every path both have, what a merge holds at a path is the merge of what
they hold there.
-/

namespace Orchestra

namespace Keyed

variable {α : Type}

/-- What is found is an entry. -/
theorem mem_of_find? {entries : Keyed α} {key : String} {value : α}
    (h : find? key entries = some value) : (key, value) ∈ entries := by
  induction entries with
  | nil => contradiction
  | cons p rest ih =>
    obtain ⟨k, v⟩ := p
    rw [find?] at h
    split at h
    · next heq =>
      obtain rfl := Option.some.inj h
      rw [heq]
      exact List.mem_cons_self
    · exact List.mem_cons_of_mem _ (ih h)

/-- Of entries in order, each is what is found under its key. -/
theorem Ordered.find?_of_mem {entries : Keyed α} (ordered : entries.Ordered) {key : String} {value : α}
    (h : (key, value) ∈ entries) : find? key entries = some value := by
  induction entries with
  | nil => contradiction
  | cons p rest ih =>
    obtain ⟨hlt, hrest⟩ := ordered
    rw [find?]
    rcases List.mem_cons.mp h with rfl | h
    · exact if_pos rfl
    · have hne : p.1 ≠ key := Std.ne_of_lt (hlt _ h)
      rw [if_neg hne]
      exact ih hrest h

/-- Entries in order are determined by what is stored under each key. -/
theorem Ordered.ext {entries entries' : Keyed α} (ordered : entries.Ordered)
    (ordered' : entries'.Ordered) (h : ∀ key, find? key entries = find? key entries') :
    entries = entries' := by
  have hfirst (p : String × α) (rest : Keyed α) : find? p.1 (p :: rest) = some p.2 := if_pos rfl
  induction entries generalizing entries' with
  | nil =>
    cases entries' with
    | nil => rfl
    | cons q rest' => exact absurd ((h q.1).trans (hfirst q rest')) nofun
  | cons p rest ih =>
    cases entries' with
    | nil => exact absurd ((h p.1).symm.trans (hfirst p rest)) nofun
    | cons q rest' =>
      obtain ⟨hlt, hrest⟩ := ordered
      obtain ⟨hlt', hrest'⟩ := ordered'
      have hp : (p.1, p.2) ∈ q :: rest' := mem_of_find? ((h p.1).symm.trans (hfirst p rest))
      have hq : (q.1, q.2) ∈ p :: rest := mem_of_find? ((h q.1).trans (hfirst q rest'))
      have hpq : p = q := by
        rcases List.mem_cons.mp hp with heq | hp
        · exact heq
        rcases List.mem_cons.mp hq with heq | hq
        · exact heq.symm
        exact absurd (String.lt_trans (hlt _ hq) (hlt' _ hp)) (String.lt_irrefl _)
      subst hpq
      rw [ih hrest hrest' fun key => ?_]
      by_cases hkey : p.1 = key
      · subst hkey
        rw [find?_eq_none_of_lt hlt, find?_eq_none_of_lt hlt']
      · simpa [find?, hkey] using h key

end Keyed

namespace Json

/-! ### Kinds and paths -/

/-- The kinds of JSON values. -/
inductive Kind where
  | null | bool | num | str | arr | obj
deriving DecidableEq, Repr

/-- The kind of a value. -/
def kind : Json → Kind
  | null => .null
  | bool _ => .bool
  | num _ => .num
  | str _ => .str
  | arr _ => .arr
  | obj _ => .obj

/-- The value at the end of a path of keys. -/
def at? : List String → Json → Option Json
  | [], v => some v
  | key :: path, v => (v.field? key).bind (at? path)

/-- A value without what is inside it, if it is an object. -/
def surface : Json → Json
  | obj _ => obj []
  | v => v

/-- Every object at the end of a path holds its entries in key order. -/
def Tidy (v : Json) : Prop :=
  ∀ path entries, v.at? path = some (obj entries) → Keyed.Ordered entries

/-- Wherever a path leads to a value in both, these have the same kind. -/
def SameKinds (a b : Json) : Prop :=
  ∀ path u v, a.at? path = some u → b.at? path = some v → u.kind = v.kind

variable {a b u v w : Json} {key : String} {path : List String}

theorem field?_eq_none (h : v.kind ≠ .obj) : v.field? key = none := by
  cases v <;> first | rfl | exact absurd rfl h

theorem eq_obj_of_kind (h : v.kind = .obj) : ∃ entries, v = obj entries := by
  cases v <;> first | exact ⟨_, rfl⟩ | contradiction

theorem Tidy.ordered {entries : List (String × Json)} (tidy : Tidy (obj entries)) :
    Keyed.Ordered entries :=
  tidy [] entries rfl

/-- What a tidy value holds under a key is tidy. -/
theorem Tidy.field (tidy : v.Tidy) (h : v.field? key = some u) : u.Tidy := fun path entries hu =>
  tidy (key :: path) entries (by rw [at?, h]; exact hu)

theorem SameKinds.field (same : SameKinds a b) (ha : a.field? key = some u)
    (hb : b.field? key = some v) : SameKinds u v := fun path x y hx hy =>
  same (key :: path) x y (by rw [at?, ha]; exact hx) (by rw [at?, hb]; exact hy)

/-- What an object holds is smaller than the object. -/
theorem sizeOf_lt_of_find? {entries : List (String × Json)}
    (h : Keyed.find? key entries = some v) : sizeOf v < sizeOf (obj entries) := by
  have hlt := List.sizeOf_lt_of_mem (Keyed.mem_of_find? h)
  simp only [Prod.mk.sizeOf_spec, obj.sizeOf_spec] at hlt ⊢
  omega

/-- Tidy values that look alike at the end of every path are equal. -/
theorem Tidy.ext (hu : u.Tidy) (hv : v.Tidy)
    (h : ∀ path, (u.at? path).map surface = (v.at? path).map surface) : u = v := by
  induction hsize : sizeOf u using Nat.strongRecOn generalizing u v with
  | ind n ih =>
  have htop : u.surface = v.surface := Option.some.inj (h [])
  cases u with
  | obj entries =>
    obtain ⟨entries', rfl⟩ : ∃ entries', v = obj entries' := by
      cases v <;> first | exact ⟨_, rfl⟩ | contradiction
    congr 1
    refine hu.ordered.ext hv.ordered fun key => ?_
    have hkey (path : List String) : ((Keyed.find? key entries).bind (at? path)).map surface =
        ((Keyed.find? key entries').bind (at? path)).map surface := h (key :: path)
    cases hx : Keyed.find? key entries with
    | none =>
      rw [hx] at hkey
      have hnone := Option.map_eq_none_iff.mp (hkey []).symm
      exact ((Option.bind_fun_some _).symm.trans hnone).symm
    | some x =>
      rw [hx] at hkey
      cases hy : Keyed.find? key entries' with
      | none =>
        rw [hy] at hkey
        exact absurd (hkey []) nofun
      | some y =>
        rw [hy] at hkey
        have hless : sizeOf x < n := hsize ▸ sizeOf_lt_of_find? hx
        rw [ih _ hless (hu.field hx) (hv.field hy) hkey rfl]
  | _ => cases v <;> first | exact htop | contradiction

/-! ### Merges along paths -/

/-- A merge has the kind of what was there first. -/
theorem kind_merge (a b : Json) : (merge a b).kind = a.kind := by
  cases a <;> cases b <;> rfl

/-- A value that is no object, or meets none, keeps what it has under every key. -/
theorem field?_merge_of_kind (h : a.kind = .obj → b.kind ≠ .obj) :
    (merge a b).field? key = a.field? key := by
  by_cases hobj : a.kind = .obj
  · obtain ⟨xs, rfl⟩ := eq_obj_of_kind hobj
    have hb := h rfl
    cases b <;> first | rfl | exact absurd rfl hb
  · rw [field?_eq_none hobj, field?_eq_none fun hmerge => hobj ((kind_merge a b).symm.trans hmerge)]

/-- What an object has under a key is merged with what is there in what is merged into it. -/
theorem field?_merge (ha : a.Tidy) (hb : b.Tidy) (hobj : a.kind = .obj) :
    (merge a b).field? key = (a.field? key).merge merge (b.field? key) := by
  obtain ⟨xs, rfl⟩ := eq_obj_of_kind hobj
  by_cases hright : b.kind = .obj
  · obtain ⟨ys, rfl⟩ := eq_obj_of_kind hright
    have hfound := find?_mergeEntries ha.ordered hb.ordered key
    rw [merge]
    change Keyed.find? key (mergeEntries xs ys) =
      (Keyed.find? key xs).merge merge (Keyed.find? key ys)
    rw [hfound]
    cases Keyed.find? key xs <;> cases Keyed.find? key ys <;> rfl
  · rw [field?_merge_of_kind fun _ => hright, field?_eq_none hright, Option.merge_none_right]

/-- Where kinds agree, a path leads in the merge to the merge of what it leads to on both sides. -/
theorem at?_merge (ha : a.Tidy) (hb : b.Tidy) (same : SameKinds a b) (path : List String) :
    (merge a b).at? path = (a.at? path).merge merge (b.at? path) := by
  induction path generalizing a b with
  | nil => rfl
  | cons key path ih =>
    have hkind : a.kind = b.kind := same [] a b rfl rfl
    rw [at?, at?, at?]
    by_cases hobj : a.kind = .obj
    · rw [field?_merge ha hb hobj]
      cases hx : a.field? key with
      | none => cases b.field? key <;> simp
      | some x =>
        cases hy : b.field? key with
        | none => simp
        | some y => exact ih (ha.field hx) (hb.field hy) (same.field hx hy)
    · have hright : b.kind ≠ .obj := fun h => hobj (hkind.trans h)
      rw [field?_merge_of_kind fun h => absurd h hobj, field?_eq_none hobj, field?_eq_none hright]
      rfl

/-- What has a field is an object. -/
theorem kind_of_field? (h : v.field? key = some u) : v.kind = .obj := by
  by_contra hobj
  cases (field?_eq_none hobj).symm.trans h

/-- Where a path leads to a value on both sides, it leads in the merge to the merge of these, whatever
the kinds. -/
theorem at?_merge_of_some (ha : a.Tidy) (hb : b.Tidy) (hu : a.at? path = some u)
    (hv : b.at? path = some v) : (merge a b).at? path = some (merge u v) := by
  induction path generalizing a b with
  | nil =>
    cases hu
    cases hv
    rfl
  | cons key path ih =>
    rw [at?, Option.bind_eq_some_iff] at hu hv
    obtain ⟨x, hx, hu⟩ := hu
    obtain ⟨y, hy, hv⟩ := hv
    rw [at?, field?_merge ha hb (kind_of_field? hx), hx, hy]
    exact ih (ha.field hx) (hb.field hy) hu hv

/-- A merge of tidy values is tidy. -/
theorem Tidy.merge (ha : a.Tidy) (hb : b.Tidy) (same : SameKinds a b) : (merge a b).Tidy := by
  intro path entries h
  rw [at?_merge ha hb same] at h
  cases hx : a.at? path with
  | none =>
    rw [hx, Option.merge_none_left] at h
    exact hb path entries h
  | some x =>
    cases hy : b.at? path with
    | none =>
      rw [hx, hy] at h
      exact ha path entries (hx.trans h)
    | some y =>
      rw [hx, hy] at h
      have hkind := same path x y hx hy
      have hmerge : Json.merge x y = obj entries := Option.some.inj h
      have hobj : x.kind = .obj := (kind_merge x y).symm.trans (hmerge ▸ rfl)
      obtain ⟨xs, rfl⟩ := eq_obj_of_kind hobj
      obtain ⟨ys, rfl⟩ := eq_obj_of_kind hkind.symm
      rw [Json.merge, obj.injEq] at hmerge
      exact hmerge ▸ ordered_mergeEntries (ha path xs hx)

end Json

end Orchestra
