import Orchestra.Proofs.Info.Along
import Orchestra.Proofs.Json.Documents

/-!
# Values are read back

Integers are written as plain literals and doubles as others, so every number is read as what it was if the
reader of doubles is exact. The text of a value as it is stored is a document, and it is read as this value
unless it is nested too deep: a reader refuses a container at its nesting limit, and a writer writes
containers of any depth.
-/

namespace Orchestra.Json

open Document

variable {n : ℤ} {x : Double} {l : Literal} {cs : List Char}

/-! ### Numbers -/

/-- The literal of an integer. -/
def intLiteral (n : ℤ) : Literal :=
  ⟨n < 0, n.natAbs, 0, true⟩

theorem parses_int (n : ℤ) : Parses (Decimal.intText n).toList (.number (intLiteral n)) := by
  have hlead (h : (Nat.toDigits 10 n.natAbs).head? = some '0') : (Nat.toDigits 10 n.natAbs).length = 1 := by
    rw [head?_toDigits h]
    rfl
  have hliteral : literal (n < 0) (Nat.toDigits 10 n.natAbs) [] none = intLiteral n := by
    rw [literal, List.append_nil, Nat.ofDigitChars_ten_toDigits]
    rfl
  have hspells : Spells (Nat.toDigits 10 n.natAbs ++ (fraction [] ++ scale none))
      (literal (n < 0) (Nat.toDigits 10 n.natAbs) [] none) :=
    spells_literal Nat.toDigits_ne_nil (digits_toDigits _) hlead (List.forall_mem_nil _)
  rw [hliteral, fraction, scale, List.append_nil, List.append_nil] at hspells
  have hparses := parses_number hspells
  rw [toList_intText]
  convert hparses using 1
  by_cases hn : n < 0 <;> simp [intLiteral, hn]

/-- It is the integer if a word holds it. -/
theorem int?_intLiteral (h : Number.Representable n) : (intLiteral n).int? = some n := by
  rw [Number.representable_iff] at h
  unfold Literal.int? intLiteral fitsUnsigned fitsSigned
  by_cases hn : n < 0
  · have hneg : -(n.natAbs : ℤ) = n := by omega
    dsimp only
    rw [hneg, if_neg (by simp [hn]), if_pos (by simp [hn]; omega)]
  · have hpos : (n.natAbs : ℤ) = n := by omega
    dsimp only
    rw [hpos, if_pos (by simp; omega)]

/-- A literal that is not plain is no integer. -/
theorem int?_of_not_plain (h : l.plain = false) : l.int? = none := by
  unfold Literal.int?
  rw [h]
  rfl

theorem toList_signed (negative : Bool) (t : String) :
    ((if negative then "-" else "") ++ t).toList = if negative then '-' :: t.toList else t.toList := by
  rw [String.toList_append]
  cases negative <;> rfl

/-- A literal is the nearest one to a double. -/
structure Literal.IsNearest (l : Literal) (x : Double) : Prop where
  plain : l.plain = false
  nearest : Decimal.toDouble? l.negative l.digits l.scale = some x

/-- Digits that are rounded to a double are nearest to this double, behind its sign. -/
theorem parses_shows {d : Decimal.Digits} (hl : Shows x.isNegative d cs l) (hfinite : x.isFinite = true)
    (hzero : x.significand ≠ 0) (hnear : x.Near (d.digits * 10 ^ d.exponent)) :
    Parses (if x.isNegative then '-' :: cs else cs) (.number l) ∧ l.IsNearest x := by
  have hparses := parses_number hl.spells
  have hread : Decimal.toDouble? x.isNegative l.digits l.scale = some x :=
    Decimal.toDouble?_of_near hfinite hzero (hl.digits_le.trans_lt (by decide)) (hl.value_eq ▸ hnear)
  rw [hl.negative_eq] at hparses
  exact ⟨hparses, hl.plain_eq, hl.negative_eq ▸ hread⟩

/-- The text of a double is a literal for it. -/
theorem parses_real (h : x.isFinite = true) :
    ∃ l, Parses (numberLayout.text x).toList (.number l) ∧ l.IsNearest x := by
  have hnan : ¬ x.isNaN = true := by
    unfold Double.isFinite at h
    unfold Double.isNaN
    rw [decide_eq_true_eq] at h ⊢
    omega
  unfold Decimal.Layout.text
  dsimp only
  rw [if_neg hnan, h, if_neg (by decide)]
  by_cases hzero : x.significand = 0
  · rw [if_pos (Decimal.isZero_iff.mpr hzero), toList_signed]
    have hspells : Spells (['0'] ++ (fraction ['0'] ++ scale none))
        (literal x.isNegative ['0'] ['0'] none) :=
      spells_literal (List.cons_ne_nil _ _) (digits_replicate 1) (fun _ => rfl) (digits_replicate 1)
    exact ⟨_, parses_number hspells, rfl, Decimal.toDouble?_of_significand hzero _⟩
  · rw [if_neg (mt Decimal.isZero_iff.mp hzero), toList_signed]
    obtain ⟨hnear, hle⟩ := Decimal.shortest_spec h hzero
    obtain ⟨l, hl⟩ := shows_digits x.isNegative (Decimal.digits_ne_zero_of_near h hzero hnear) hle
    exact ⟨l, parses_shows hl h hzero hnear⟩

/-- A reader is exact if it reads the text of every real number as this number. -/
def FloatReader.Exact (reader : FloatReader) : Prop :=
  ∀ x : Double, x.isFinite = true → ∀ l, Document.ofText? (doubleText x) = some (.number l) →
    reader.read l = some x

/-- The reader that finds the nearest double. -/
@[reducible] def FloatReader.nearest : FloatReader where
  read l := Decimal.toDouble? l.negative l.digits l.scale

theorem ofText?_doubleText (h : x.isFinite = true) :
    ∃ l, Parses (doubleText x).toList (.number l) ∧
      Document.ofText? (doubleText x) = some (.number l) ∧ l.IsNearest x := by
  rw [doubleText, if_pos h]
  obtain ⟨l, hparses, hl⟩ := parses_real h
  exact ⟨l, hparses, Document.ofText?_of_parses hparses, hl⟩

/-- It is exact. -/
theorem FloatReader.nearest_exact : nearest.Exact := by
  intro x h l hl
  obtain ⟨l', -, hl', hnearest⟩ := ofText?_doubleText h
  cases hl.symm.trans hl'
  exact hnearest.nearest

/-- Each of some things has a partner, so a list of them has a list of partners. -/
theorem exists_forall₂ {α β : Type} {R : α → β → Prop} {as : List α} (h : ∀ a ∈ as, ∃ b, R a b) :
    ∃ bs, List.Forall₂ R as bs := by
  induction as with
  | nil => exact ⟨[], .nil⟩
  | cons a as ih =>
    obtain ⟨⟨b, hb⟩, has⟩ := List.forall_mem_cons.mp h
    obtain ⟨bs, hbs⟩ := ih has
    exact ⟨b :: bs, .cons hb hbs⟩

theorem itemTexts_eq (vs : List Json) : itemTexts vs = vs.map text := by
  induction vs with
  | nil => rfl
  | cons v vs ih => rw [itemTexts, ih, List.map_cons]

theorem entryTexts_eq (entries : List (String × Json)) :
    entryTexts entries = entries.map fun p => (p.1, p.2.text) := by
  induction entries with
  | nil => rfl
  | cons p entries ih => rw [entryTexts, ih, List.map_cons]

section FloatReader

variable [reader : FloatReader]

/-- An exact reader reads the text of a double as this double. -/
theorem exists_real (exact : reader.Exact) (h : x.isFinite = true) :
    ∃ l, Parses (doubleText x).toList (.number l) ∧ l.number? = some (.real x) := by
  obtain ⟨l, hparses, hl, hnearest⟩ := ofText?_doubleText h
  refine ⟨l, hparses, ?_⟩
  rw [Literal.number?, int?_of_not_plain hnearest.plain, exact x h l hl]
  rfl

/-- Every number as it is stored is written as a literal for it. -/
theorem exists_literal (exact : reader.Exact) {a : Number} (h : a.Storable) :
    ∃ l, Parses (numberText a).toList (.number l) ∧ l.number? = some a := by
  cases a with
  | int n =>
    refine ⟨_, parses_int n, ?_⟩
    rw [Literal.number?, int?_intLiteral h]
  | real x =>
    have htext : doubleText x = numberText (.real x) := if_pos h
    exact htext ▸ exists_real exact h

/-! ### Values -/

mutual

/-- How deep containers are nested in a value. -/
def depth : Json → ℕ
  | arr items => itemsDepth items + 1
  | obj entries => entriesDepth entries + 1
  | _ => 0

/-- How deep containers are nested in the items of an array. -/
def itemsDepth : List Json → ℕ
  | [] => 0
  | v :: rest => max v.depth (itemsDepth rest)

/-- How deep containers are nested in the values of an object. -/
def entriesDepth : List (String × Json) → ℕ
  | [] => 0
  | (_, v) :: rest => max v.depth (entriesDepth rest)

end

/-- A document is read as a value unless this is nested too deep. -/
def Denotes (d : Document) (v : Json) : Prop :=
  ∀ inside ≤ nestingLimit, ofDocument? inside d = if inside + v.depth ≤ nestingLimit then some v else none

variable {v : Json} {vs : List Json} {d : Document} {ds : List Document} {inside : ℕ}
  {entries : List (String × Json)} {members : List (Content × Document)}

theorem ofItems?_eq (items : List.Forall₂ Denotes ds vs) (hinside : inside ≤ nestingLimit) :
    ofItems? inside ds = if inside + itemsDepth vs ≤ nestingLimit then some vs else none := by
  induction items with
  | nil => exact (if_pos hinside).symm
  | @cons d v ds vs item items ih =>
    have hdepth : inside + max v.depth (itemsDepth vs) ≤ nestingLimit ↔
      inside + v.depth ≤ nestingLimit ∧ inside + itemsDepth vs ≤ nestingLimit := by omega
    simp only [ofItems?, item inside hinside, ih, itemsDepth, hdepth]
    by_cases hv : inside + v.depth ≤ nestingLimit <;>
      by_cases hvs : inside + itemsDepth vs ≤ nestingLimit <;> simp [hv, hvs]

theorem ofMembers?_eq (items : List.Forall₂ (fun m p => m.1 = some p.1 ∧ Denotes m.2 p.2) members entries)
    (hinside : inside ≤ nestingLimit) :
    ofMembers? inside members =
      if inside + entriesDepth entries ≤ nestingLimit then some entries else none := by
  induction items with
  | nil => exact (if_pos hinside).symm
  | @cons m p members entries item items ih =>
    obtain ⟨key, d⟩ := m
    obtain ⟨k, v⟩ := p
    obtain ⟨hkey, hd⟩ := item
    have hdepth : inside + max v.depth (entriesDepth entries) ≤ nestingLimit ↔
      inside + v.depth ≤ nestingLimit ∧ inside + entriesDepth entries ≤ nestingLimit := by omega
    simp only at hkey hd
    simp only [ofMembers?, hkey, hd inside hinside, ih, entriesDepth, hdepth]
    by_cases hv : inside + v.depth ≤ nestingLimit <;>
      by_cases hvs : inside + entriesDepth entries ≤ nestingLimit <;> simp [hv, hvs]

/-- What is read as the items of an array is the array, one container deeper. -/
theorem exists_array {items : List Json} (h : ∀ v ∈ items, ∃ d, Parses v.text.toList d ∧ Denotes d v) :
    ∃ d, Parses (arr items).text.toList d ∧ Denotes d (arr items) := by
  obtain ⟨ds, hds⟩ := exists_forall₂ h
  refine ⟨.array ds, ?_, fun inside hinside => ?_⟩
  · rw [text, itemTexts_eq]
    exact parses_arrayText (List.forall₂_map_left_iff.mpr (hds.imp fun _ _ h => h.1))
  · -- the reader counts the array on the way down, the depth of a value on the way up
    have hdepth : inside + 1 + itemsDepth items = inside + (itemsDepth items + 1) := by omega
    rw [ofDocument?, depth]
    split
    · next hlt =>
      rw [ofItems?_eq (hds.flip.imp fun _ _ h => h.2) (Nat.succ_le_of_lt hlt), Nat.succ_eq_add_one, hdepth]
      split <;> rfl
    · next hge => rw [if_neg (by omega)]

/-- What is read as the keys and values of an object is the object, as its keys are in order. -/
theorem exists_object (ordered : Keyed.Ordered entries)
    (h : ∀ p ∈ entries, ∃ d, Parses p.2.text.toList d ∧ Denotes d p.2) :
    ∃ d, Parses (obj entries).text.toList d ∧ Denotes d (obj entries) := by
  obtain ⟨members, hmembers⟩ : ∃ members : List (Content × Document), List.Forall₂
      (fun p m => m.1 = some p.1 ∧ Parses p.2.text.toList m.2 ∧ Denotes m.2 p.2) entries members := by
    refine exists_forall₂ fun p hp => ?_
    obtain ⟨d, hparses, hdenotes⟩ := h p hp
    exact ⟨(some p.1, d), rfl, hparses, hdenotes⟩
  refine ⟨.object members, ?_, fun inside hinside => ?_⟩
  · rw [text, entryTexts_eq]
    exact parses_objectText (List.forall₂_map_left_iff.mpr (hmembers.imp fun _ _ h => ⟨h.1, h.2.1⟩))
  · have hdepth : inside + 1 + entriesDepth entries = inside + (entriesDepth entries + 1) := by omega
    rw [ofDocument?, depth]
    split
    · next hlt =>
      rw [ofMembers?_eq (hmembers.flip.imp fun _ _ h => ⟨h.1, h.2.2⟩) (Nat.succ_le_of_lt hlt),
        Nat.succ_eq_add_one, hdepth]
      split
      · exact congrArg (fun entries => some (obj entries)) ordered.ofPairs_eq
      · rfl
    · next hge => rw [if_neg (by omega)]

/-- The text of a value as it is stored is a document, which is read as this value unless it is nested too
deep. -/
theorem exists_document (exact : reader.Exact) (h : WellFormed v) :
    ∃ d, Parses v.text.toList d ∧ Denotes d v := by
  induction h with
  | null => exact ⟨.null, parses_null, fun inside hinside => (if_pos hinside).symm⟩
  | bool b => exact ⟨.bool b, parses_bool b, fun inside hinside => (if_pos hinside).symm⟩
  | num storable =>
    obtain ⟨l, hparses, hl⟩ := exists_literal exact storable
    refine ⟨.number l, hparses, fun inside hinside => ?_⟩
    rw [ofDocument?, hl]
    exact (if_pos hinside).symm
  | str s => exact ⟨_, parses_string s, fun inside hinside => (if_pos hinside).symm⟩
  | arr _ ih => exact exists_array ih
  | obj ordered _ ih => exact exists_object ordered ih

end FloatReader

end Orchestra.Json
