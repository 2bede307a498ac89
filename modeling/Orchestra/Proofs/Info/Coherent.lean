import Orchestra.Proofs.Info.Paths

/-!
# Coherent values

Values are coherent when on every path of keys that leads to a value in at least two of them the
values there have one kind, and numbers there are integers any of which have a sum in the signed
64-bit range. Merging neighbours keeps values coherent, for a sum of some of the merged numbers is a
sum of some of the numbers before. On coherent values merging is associative, and it is commutative
where only numbers and objects meet.
-/

namespace Orchestra

namespace Json

/-! ### Coherent values -/

/-- The values found at the end of one path agree: they have one kind, and numbers are integers any
of which have a signed 64-bit sum. -/
structure Agree (values : List Json) : Prop where
  kinds : ∀ u ∈ values, ∀ v ∈ values, u.kind = v.kind
  whole : ∀ n, num n ∈ values → ∃ i, n = .int i
  sums : ∀ part : List Int, part.Sublist (values.filterMap int?) →
    fitsSigned (part.foldr (· + ·) 0) = true

/-- Where a path leads to a value in two of the given ones, all it leads to agree. -/
def Coherent (values : List Json) : Prop :=
  ∀ path, 2 ≤ (values.filterMap (at? path)).length → Agree (values.filterMap (at? path))

/-- Wherever a path leads to a value in both, these are numbers or objects. -/
def Additive (a b : Json) : Prop :=
  ∀ path u v, a.at? path = some u → b.at? path = some v →
    (u.kind = .num ∨ u.kind = .obj) ∧ (v.kind = .num ∨ v.kind = .obj)

variable {a b c u v w : Json} {before after values values' : List Json}

theorem sublist_neighbours (before after : List Json) (a b : Json) :
    [a, b].Sublist (before ++ a :: b :: after) :=
  (List.nil_sublist before).append (((List.nil_sublist after).cons_cons b).cons_cons a)

theorem Agree.sublist (agree : Agree values) (h : values'.Sublist values) : Agree values' where
  kinds u hu v hv := agree.kinds u (h.mem hu) v (h.mem hv)
  whole n hn := agree.whole n (h.mem hn)
  sums part hpart := agree.sums part (hpart.trans (h.filterMap int?))

theorem Agree.neighbours (agree : Agree (before ++ u :: v :: after)) : Agree [u, v] :=
  agree.sublist (sublist_neighbours before after u v)

theorem Coherent.sublist (coherent : Coherent values) (h : values'.Sublist values) :
    Coherent values' := fun path hfound =>
  have hsub := h.filterMap (at? path)
  (coherent path (Nat.le_trans hfound hsub.length_le)).sublist hsub

/-- Two of some coherent values have the same kinds. -/
theorem Coherent.sameKinds (coherent : Coherent values) (h : [a, b].Sublist values) :
    SameKinds a b := by
  intro path u v hu hv
  have hfound : [a, b].filterMap (at? path) = [u, v] := by simp [hu, hv]
  have hagree := coherent.sublist h path (hfound ▸ Nat.le_refl 2)
  rw [hfound] at hagree
  exact hagree.kinds u (by simp) v (by simp)

/-- Objects always agree. -/
theorem agree_of_objects (h : ∀ v ∈ values, v.kind = .obj) : Agree values where
  kinds u hu v hv := (h u hu).trans (h v hv).symm
  whole n hn := absurd (h _ hn) nofun
  sums part hpart := by
    have hnone : values.filterMap int? = [] := by
      rw [List.filterMap_eq_nil_iff]
      intro v hv
      have hkind := h v hv
      cases v <;> first | rfl | contradiction
    rw [hnone, List.sublist_nil] at hpart
    subst hpart
    rfl

/-- Integers agree if any of them have a signed sum. -/
theorem agree_of_ints {ints : List Int}
    (h : ∀ part : List Int, part.Sublist ints → fitsSigned (part.foldr (· + ·) 0) = true) :
    Agree (ints.map fun i => num (.int i)) where
  kinds u hu v hv := by
    obtain ⟨i, -, rfl⟩ := List.mem_map.mp hu
    obtain ⟨j, -, rfl⟩ := List.mem_map.mp hv
    rfl
  whole n hn := by
    obtain ⟨i, -, hi⟩ := List.mem_map.mp hn
    exact ⟨i, (num.inj hi).symm⟩
  sums part hpart := by
    have hints : (ints.map fun i => num (.int i)).filterMap int? = ints := by
      rw [List.filterMap_map]
      exact List.filterMap_some
    exact h part (hints ▸ hpart)

/-- An object without entries is coherent with any objects. -/
theorem Coherent.cons_empty (coherent : Coherent values) (h : ∀ v ∈ values, v.kind = .obj) :
    Coherent (obj [] :: values) := by
  intro path hfound
  cases path with
  | nil => exact agree_of_objects (by simpa [at?, List.filterMap_eq_map, kind] using h)
  | cons key path =>
    have hskip : (obj [] :: values).filterMap (at? (key :: path)) =
        values.filterMap (at? (key :: path)) := rfl
    rw [hskip] at hfound ⊢
    exact coherent _ hfound

/-! ### Merging neighbours -/

/-- Integers are added where they and their sum are signed words. -/
theorem merge_int {i j : Int} (hi : fitsSigned i = true) (hj : fitsSigned j = true)
    (hij : fitsSigned (i + j) = true) :
    merge (num (.int i)) (num (.int j)) = num (.int (i + j)) := by
  simp [merge, Number.add?, hi, hj, hij]

/-- Numbers that agree are integers any of which have a signed sum. -/
theorem Agree.ints (agree : Agree values) (hnum : ∀ v ∈ values, v.kind = .num) :
    ∃ ints : List Int, values = ints.map (fun i => num (.int i)) ∧
      ∀ part : List Int, part.Sublist ints → fitsSigned (part.foldr (· + ·) 0) = true := by
  refine ⟨values.filterMap int?, ?_, agree.sums⟩
  have hwhole : ∀ v ∈ values, ∃ i, v = num (.int i) := by
    intro v hv
    have hkind := hnum v hv
    cases v <;> first | contradiction | skip
    obtain ⟨i, rfl⟩ := agree.whole _ hv
    exact ⟨i, rfl⟩
  clear agree hnum
  induction values with
  | nil => rfl
  | cons v rest ih =>
    obtain ⟨i, rfl⟩ := hwhole v (by simp)
    simpa [int?] using ih fun w hw => hwhole w (by simp [hw])

/-- Two values that agree are no numbers, or integers that are added. -/
theorem Agree.merge_cases (agree : Agree [u, v]) :
    (u.kind ≠ .num ∧ v.kind ≠ .num) ∨ ∃ i j, u = num (.int i) ∧ v = num (.int j) ∧
      fitsSigned i = true ∧ fitsSigned j = true ∧ fitsSigned (i + j) = true := by
  have hkind : u.kind = v.kind := agree.kinds u (by simp) v (by simp)
  by_cases hnum : u.kind = .num
  · obtain ⟨ints, hints, hsums⟩ := agree.ints (by simp [hnum, ← hkind])
    match ints, hints with
    | [i, j], hints =>
      obtain ⟨rfl, rfl⟩ : u = num (.int i) ∧ v = num (.int j) := by simpa using hints
      exact .inr ⟨i, j, rfl, rfl, by simpa using hsums [i] (by simp),
        by simpa using hsums [j] (by simp), by simpa using hsums [i, j] (by simp)⟩
  · exact .inl ⟨hnum, fun h => hnum (hkind.trans h)⟩

theorem int?_eq_none (h : v.kind ≠ .num) : v.int? = none := by
  cases v <;> first | rfl | exact absurd rfl h

/-- Where neighbours that agree are merged, all values still agree: a sum with the merged number in
it is a sum with both in it. -/
theorem Agree.merge (agree : Agree (before ++ u :: v :: after)) :
    Agree (before ++ Json.merge u v :: after) where
  kinds := by
    have hkinds : ∀ x ∈ before ++ Json.merge u v :: after, ∃ y ∈ before ++ u :: v :: after,
        x.kind = y.kind := by
      intro x hx
      rcases List.mem_append.mp hx with hx | hx
      · exact ⟨x, by simp [hx], rfl⟩
      rcases List.mem_cons.mp hx with rfl | hx
      · exact ⟨u, by simp, kind_merge u v⟩
      · exact ⟨x, by simp [hx], rfl⟩
    intro x hx y hy
    obtain ⟨x', hx', hx⟩ := hkinds x hx
    obtain ⟨y', hy', hy⟩ := hkinds y hy
    exact hx.trans ((agree.kinds x' hx' y' hy').trans hy.symm)
  whole := by
    intro n hn
    rcases List.mem_append.mp hn with hn | hn
    · exact agree.whole n (by simp [hn])
    rcases List.mem_cons.mp hn with heq | hn
    · rcases agree.neighbours.merge_cases with ⟨hu, -⟩ | ⟨i, j, rfl, rfl, hi, hj, hij⟩
      · exact absurd ((kind_merge u v).symm.trans (heq ▸ rfl)) hu
      · exact ⟨i + j, num.inj (heq.trans (merge_int hi hj hij))⟩
    · exact agree.whole n (by simp [hn])
  sums := by
    intro part hpart
    rw [List.filterMap_append] at hpart
    rcases agree.neighbours.merge_cases with ⟨hu, hv⟩ | ⟨i, j, rfl, rfl, hi, hj, hij⟩
    · have hmerge : (Json.merge u v).kind ≠ .num := fun h => hu ((kind_merge u v).symm.trans h)
      rw [List.filterMap_cons_none (int?_eq_none hmerge)] at hpart
      refine agree.sums part ?_
      rwa [List.filterMap_append, List.filterMap_cons_none (int?_eq_none hu),
        List.filterMap_cons_none (int?_eq_none hv)]
    rw [merge_int hi hj hij] at hpart
    change part.Sublist (before.filterMap int? ++ (i + j) :: after.filterMap int?) at hpart
    obtain ⟨left, right, rfl, hleft, hright⟩ := List.sublist_append_iff.mp hpart
    rcases List.sublist_cons_iff.mp hright with hright | ⟨rest, rfl, hrest⟩
    · refine agree.sums (left ++ right) ?_
      rw [List.filterMap_append]
      exact hleft.append ((hright.cons j).cons i)
    · have hboth := agree.sums (left ++ i :: j :: rest) (by
        rw [List.filterMap_append]
        exact hleft.append ((hrest.cons_cons j).cons_cons i))
      simpa [List.foldr_append, Int.add_assoc] using hboth

/-- Where coherent neighbours are merged, all are still coherent. -/
theorem Coherent.merge (before : List Json) (coherent : Coherent (before ++ a :: b :: after))
    (ha : a.Tidy) (hb : b.Tidy) : Coherent (before ++ Json.merge a b :: after) := by
  intro path hfound
  have hsame := coherent.sameKinds (sublist_neighbours before after a b)
  have hat := at?_merge ha hb hsame path
  have hagree := coherent path
  rw [List.filterMap_append] at hfound hagree ⊢
  cases hx : a.at? path with
  | none =>
    rw [hx, Option.merge_none_left] at hat
    rw [List.filterMap_cons_none hx] at hagree
    rw [List.filterMap_cons, hat, ← List.filterMap_cons] at hfound ⊢
    exact hagree hfound
  | some x =>
    rw [hx] at hat
    rw [List.filterMap_cons_some hx] at hagree
    cases hy : b.at? path with
    | none =>
      rw [hy, Option.merge_none_right] at hat
      rw [List.filterMap_cons_none hy] at hagree
      rw [List.filterMap_cons_some hat] at hfound ⊢
      exact hagree hfound
    | some y =>
      rw [hy] at hat
      rw [List.filterMap_cons_some hy] at hagree
      rw [List.filterMap_cons_some hat]
      refine (hagree ?_).merge
      simp only [List.length_append, List.length_cons]
      omega

/-! ### Merging in any grouping -/

/-- A value that is no number, array or object stays. -/
theorem merge_eq_left (hnum : u.kind ≠ .num) (harr : u.kind ≠ .arr) (hobj : u.kind ≠ .obj) :
    merge u v = u := by
  cases u <;> first | contradiction | (cases v <;> rfl)

/-- At the end of one path it does not matter how three values that agree are grouped. -/
theorem Agree.surface_merge_assoc (agree : Agree [u, v, w]) :
    (Json.merge (Json.merge u v) w).surface = (Json.merge u (Json.merge v w)).surface := by
  have huv : u.kind = v.kind := agree.kinds u (by simp) v (by simp)
  have huw : u.kind = w.kind := agree.kinds u (by simp) w (by simp)
  by_cases hnum : u.kind = .num
  · obtain ⟨ints, hints, hsums⟩ := agree.ints (by simp [hnum, ← huv, ← huw])
    match ints, hints with
    | [i, j, k], hints =>
      obtain ⟨rfl, rfl, rfl⟩ : u = num (.int i) ∧ v = num (.int j) ∧ w = num (.int k) := by
        simpa using hints
      have hi : fitsSigned i = true := by simpa using hsums [i] (by simp)
      have hj : fitsSigned j = true := by simpa using hsums [j] (by simp)
      have hk : fitsSigned k = true := by simpa using hsums [k] (by simp)
      have hij : fitsSigned (i + j) = true := by simpa using hsums [i, j] (by simp)
      have hjk : fitsSigned (j + k) = true := by simpa using hsums [j, k] (by simp)
      have hall : fitsSigned (i + (j + k)) = true := by simpa using hsums [i, j, k] (by simp)
      rw [merge_int hi hj hij, merge_int hj hk hjk, merge_int hi hjk hall,
        merge_int hij hk (Int.add_assoc i j k ▸ hall), Int.add_assoc]
  by_cases harr : u.kind = .arr
  · cases u <;> first | contradiction | skip
    cases v <;> first | contradiction | skip
    cases w <;> first | contradiction | skip
    simp only [Json.merge, List.append_assoc]
  by_cases hobj : u.kind = .obj
  · obtain ⟨xs, rfl⟩ := eq_obj_of_kind hobj
    obtain ⟨ys, rfl⟩ := eq_obj_of_kind huv.symm
    obtain ⟨zs, rfl⟩ := eq_obj_of_kind huw.symm
    rfl
  · rw [merge_eq_left hnum harr hobj, merge_eq_left hnum harr hobj, merge_eq_left hnum harr hobj]

/-- Merging coherent values is associative. -/
theorem Coherent.merge_assoc (coherent : Coherent [a, b, c]) (ha : a.Tidy) (hb : b.Tidy)
    (hc : c.Tidy) : Json.merge (Json.merge a b) c = Json.merge a (Json.merge b c) := by
  have hab : SameKinds a b := coherent.sameKinds (by simp)
  have hbc : SameKinds b c := coherent.sameKinds (by simp)
  have hleft : SameKinds (Json.merge a b) c :=
    (coherent.merge [] ha hb).sameKinds (List.Sublist.refl _)
  have hright : SameKinds a (Json.merge b c) :=
    (coherent.merge [a] hb hc).sameKinds (List.Sublist.refl _)
  refine Tidy.ext ((ha.merge hb hab).merge hc hleft) (ha.merge (hb.merge hc hbc) hright)
    fun path => ?_
  rw [at?_merge (ha.merge hb hab) hc hleft, at?_merge ha hb hab,
    at?_merge ha (hb.merge hc hbc) hright, at?_merge hb hc hbc]
  cases hx : a.at? path with
  | none => simp
  | some x =>
    cases hy : b.at? path with
    | none => simp
    | some y =>
      cases hz : c.at? path with
      | none => simp
      | some z =>
        have hfound : [a, b, c].filterMap (at? path) = [x, y, z] := by simp [hx, hy, hz]
        have hagree : Agree [x, y, z] := hfound ▸ coherent path (hfound ▸ by simp)
        exact congrArg some hagree.surface_merge_assoc

/-- Merging is commutative where only numbers and objects meet. -/
theorem Coherent.merge_comm (coherent : Coherent [a, b]) (additive : Additive a b) (ha : a.Tidy)
    (hb : b.Tidy) : Json.merge a b = Json.merge b a := by
  have hab : SameKinds a b := coherent.sameKinds (List.Sublist.refl _)
  have hba : SameKinds b a := fun path u v hu hv => (hab path v u hv hu).symm
  refine Tidy.ext (ha.merge hb hab) (hb.merge ha hba) fun path => ?_
  rw [at?_merge ha hb hab, at?_merge hb ha hba]
  cases hx : a.at? path with
  | none => simp
  | some x =>
    cases hy : b.at? path with
    | none => simp
    | some y =>
      have hfound : [a, b].filterMap (at? path) = [x, y] := by simp [hx, hy]
      have hagree : Agree [x, y] := hfound ▸ coherent path (hfound ▸ by simp)
      refine congrArg some ?_
      rcases hagree.merge_cases with ⟨hnum, -⟩ | ⟨i, j, rfl, rfl, hi, hj, hij⟩
      · obtain ⟨xs, rfl⟩ := eq_obj_of_kind ((additive path x y hx hy).1.resolve_left hnum)
        obtain ⟨ys, rfl⟩ := eq_obj_of_kind (hab path _ y hx hy).symm
        rfl
      · rw [merge_int hi hj hij, merge_int hj hi (Int.add_comm i j ▸ hij), Int.add_comm]

end Json

end Orchestra
