import Mathlib.Tactic.IntervalCases
import Orchestra.Json.Printer
import Orchestra.Json.Reading
import Orchestra.Proofs.Decimal.Reading

/-!
# Numbers are read back

A number literal is made of digits, perhaps with more digits after a point and an exponent. How it is read
does not depend on what follows, as long as this does not go on with the number. Integers are written as plain
literals and doubles as others, so both are read back as what they were.
-/

namespace Orchestra.Json

namespace Document

variable {c : Char} {cs rest whole places ds : List Char} {negative : Bool} {n value count : ℕ} {e : ℤ}

/-! ### Runs of digits -/

/-- A text of digits. -/
def Digits (ds : List Char) : Prop :=
  ∀ c ∈ ds, c.isDigit = true

/-- What follows a number does not go on with it. -/
def Ends (rest : List Char) : Prop :=
  ∀ c ∈ rest.head?, digit? c = none ∧ c ≠ '.' ∧ c ≠ 'e' ∧ c ≠ 'E'

theorem digit?_of_isDigit (h : c.isDigit = true) : digit? c = some (c.toNat - 48) :=
  if_pos h

/-- A run of digits ends where no digit follows. -/
theorem digits_append (hds : Digits ds) (hrest : ∀ c ∈ rest.head?, digit? c = none) :
    digits (ds ++ rest) value count = (Nat.ofDigitChars 10 ds value, count + ds.length, rest) := by
  induction ds generalizing value count with
  | nil =>
    cases rest with
    | nil => rfl
    | cons c rest =>
      rw [List.nil_append, digits, hrest c rfl]
      rfl
  | cons d ds ih =>
    obtain ⟨hd, hds⟩ := List.forall_mem_cons.mp hds
    rw [List.cons_append, digits, digit?_of_isDigit hd, Nat.ofDigitChars_cons, List.length_cons]
    dsimp only
    rw [ih hds, Nat.mul_comm, Nat.add_right_comm]
    rfl

/-- The digits of a number. -/
theorem digits_toDigits (n : ℕ) : Digits (Nat.toDigits 10 n) :=
  fun _ hc => Nat.isDigit_of_mem_toDigits (by decide) (by decide) hc

/-- Only zero has a leading zero. -/
theorem head?_toDigits (h : (Nat.toDigits 10 n).head? = some '0') : n = 0 := by
  induction n using Nat.strongRecOn with
  | _ n ih =>
    rw [Nat.toDigits_eq_if (by decide)] at h
    split at h
    · next hlt =>
      interval_cases n <;> first | rfl | contradiction
    · next hge =>
      rw [List.head?_append_of_ne_nil _ Nat.toDigits_ne_nil] at h
      have hzero := ih (n / 10) (by omega) h
      omega

/-! ### Literals -/

/-- The part of a literal after the point, if there is one. -/
def fraction : List Char → List Char
  | [] => []
  | places => '.' :: places

/-- The exponent part of a literal, if there is one. -/
def scale : Option ℤ → List Char
  | none => []
  | some e => 'e' :: (Decimal.intText e).toList

/-- The digits of an exponent follow its sign. -/
theorem exponentPart?_digits (hne : ds ≠ []) (hds : Digits ds) (hrest : ∀ c ∈ rest.head?, digit? c = none) :
    exponentPart? ('e' :: (ds ++ rest)) = some ((Nat.ofDigitChars 10 ds 0 : ℤ), true, rest) ∧
      exponentPart? ('e' :: '-' :: (ds ++ rest)) = some (-(Nat.ofDigitChars 10 ds 0 : ℤ), true, rest) := by
  obtain ⟨d, ds, rfl⟩ := List.exists_cons_of_ne_nil hne
  have hdigits : digits (d :: ds ++ rest) 0 0 = _ := digits_append hds hrest
  have hd := (List.forall_mem_cons.mp hds).1
  have hplus : d ≠ '+' := by
    rintro rfl
    contradiction
  have hminus : d ≠ '-' := by
    rintro rfl
    contradiction
  rw [Nat.zero_add, List.length_cons, List.cons_append] at hdigits
  constructor
  · rw [List.cons_append, exponentPart?, hdigits]
    · rfl
    · exact fun _ h => hplus (List.cons.inj h).1
    · exact fun _ h => hminus (List.cons.inj h).1
  · rw [List.cons_append, exponentPart?, hdigits]
    rfl

theorem toList_digitsText (n : ℕ) : (Decimal.digitsText n).toList = Nat.toDigits 10 n :=
  Nat.toList_repr

/-- The sign of an integer is followed by its digits. -/
theorem toList_intText (n : ℤ) :
    (Decimal.intText n).toList = (if n < 0 then ['-'] else []) ++ Nat.toDigits 10 n.natAbs := by
  unfold Decimal.intText
  split
  · rw [String.toList_append, toList_digitsText]
    rfl
  · exact toList_digitsText _

theorem exponentPart?_scale (e : Option ℤ) (hrest : Ends rest) :
    exponentPart? (scale e ++ rest) = some (e.getD 0, e.isSome, rest) := by
  cases e with
  | none =>
    cases rest with
    | nil => rfl
    | cons c rest =>
      obtain ⟨-, -, hsmall, hlarge⟩ := hrest c rfl
      simp [scale, exponentPart?, hsmall, hlarge]
  | some e =>
    obtain ⟨hpos, hneg⟩ := exponentPart?_digits Nat.toDigits_ne_nil (digits_toDigits e.natAbs)
      fun c hc => (hrest c hc).1
    rw [Nat.ofDigitChars_ten_toDigits] at hpos hneg
    change exponentPart? ('e' :: (Decimal.intText e).toList ++ rest) = some (e, true, rest)
    rw [toList_intText]
    split
    · next hlt =>
      rw [show -(e.natAbs : ℤ) = e by omega] at hneg
      exact hneg
    · next hge =>
      rw [show (e.natAbs : ℤ) = e by omega] at hpos
      exact hpos

/-- The literal that is written with digits before and after a point, and with an exponent. -/
def literal (negative : Bool) (whole places : List Char) (e : Option ℤ) : Literal :=
  ⟨negative, Nat.ofDigitChars 10 (whole ++ places) 0, e.getD 0 - places.length,
    places.isEmpty && e.isNone⟩

/-- The places after a point, if there is one: the value with them, and how many they are. -/
def fraction? (whole : ℕ) (cs : List Char) : Option (ℕ × ℕ × Bool × List Char) :=
  match cs with
  | '.' :: rest =>
    match digits rest whole 0 with
    | (_, 0, _) => none
    | (value, places, rest) => some (value, places, true, rest)
  | rest => some (whole, 0, false, rest)

/-- Neither a point nor a digit begins what follows the places. -/
theorem head?_scale (e : Option ℤ) (hrest : Ends rest) :
    ∀ c ∈ (scale e ++ rest).head?, digit? c = none ∧ c ≠ '.' := by
  intro c hc
  cases e with
  | none => exact ⟨(hrest c hc).1, (hrest c hc).2.1⟩
  | some e =>
    obtain rfl : 'e' = c := Option.some.inj hc
    exact ⟨rfl, by decide⟩

theorem fraction?_fraction (hplaces : Digits places) (e : Option ℤ) (hrest : Ends rest) :
    fraction? value (fraction places ++ (scale e ++ rest)) =
      some (Nat.ofDigitChars 10 places value, places.length, !places.isEmpty, scale e ++ rest) := by
  have hscale := head?_scale e hrest
  cases places with
  | nil =>
    change fraction? value (scale e ++ rest) = some (value, 0, false, scale e ++ rest)
    generalize scale e ++ rest = cs at hscale
    unfold fraction?
    split
    · exact absurd rfl (hscale '.' rfl).2
    · rfl
  | cons p places =>
    have hdigits : digits (p :: places ++ (scale e ++ rest)) value 0 = _ :=
      digits_append hplaces fun c hc => (hscale c hc).1
    rw [Nat.zero_add] at hdigits
    change (match digits (p :: places ++ (scale e ++ rest)) value 0 with
      | (_, 0, _) => none
      | (value, count, rest) => some (value, count, true, rest)) = _
    rw [hdigits]
    rfl

/-- The literal that follows a sign: digits without a leading zero, places and an exponent. -/
theorem unsigned?_eq (hdigits : digits cs 0 0 = (value, count + 1, rest))
    (hlead : cs.head? = some '0' → count = 0) : unsigned? negative cs =
      match fraction? value rest with
      | none => none
      | some (value, places, pointed, rest) =>
        match exponentPart? rest with
        | none => none
        | some (exponent, scaled, rest) =>
          some (⟨negative, value, exponent - places, !pointed && !scaled⟩, rest) := by
  have hzero : ¬ (decide (cs.head? = some '0') && decide (1 < count + 1)) = true := by
    rw [Bool.and_eq_true, decide_eq_true_eq, decide_eq_true_eq]
    rintro ⟨hhead, hlt⟩
    have := hlead hhead
    omega
  unfold unsigned?
  rw [hdigits]
  exact if_neg hzero

/-- No digit begins what follows the digits before the point. -/
theorem head?_fraction (places : List Char) (e : Option ℤ) (hrest : Ends rest) :
    ∀ c ∈ (fraction places ++ (scale e ++ rest)).head?, digit? c = none := by
  intro c hc
  cases places with
  | nil => exact (head?_scale e hrest c hc).1
  | cons d places =>
    obtain rfl : '.' = c := Option.some.inj hc
    rfl

/-- It is read from what is written so, if it has no leading zero. -/
theorem unsigned?_literal (hne : whole ≠ []) (hwhole : Digits whole)
    (hlead : whole.head? = some '0' → whole.length = 1) (hplaces : Digits places) (e : Option ℤ)
    (hrest : Ends rest) :
    unsigned? negative (whole ++ (fraction places ++ (scale e ++ rest))) =
      some (literal negative whole places e, rest) := by
  have hdigits : digits (whole ++ (fraction places ++ (scale e ++ rest))) 0 0 = _ :=
    digits_append hwhole (head?_fraction places e hrest)
  obtain ⟨d, ds, rfl⟩ := List.exists_cons_of_ne_nil hne
  rw [Nat.zero_add, List.length_cons] at hdigits
  rw [unsigned?_eq hdigits fun h => Nat.succ.inj (hlead h), fraction?_fraction hplaces e hrest]
  dsimp only
  rw [exponentPart?_scale e hrest, literal, Nat.ofDigitChars_append, Bool.not_not]
  cases e <;> rfl

end Document

open Document

variable {ds cs : List Char} {l : Literal} {negative : Bool} {n : ℕ} {d : Decimal.Digits} {x : Double}

/-! ### Written numbers -/

/-- A text without a sign is a literal, whatever follows. -/
structure Spells (cs : List Char) (l : Literal) : Prop where
  first : ∃ c rest, cs = c :: rest ∧ c.isDigit = true
  read : ∀ rest, Ends rest → unsigned? l.negative (cs ++ rest) = some (l, rest)

theorem spells_literal {whole places : List Char} {e : Option ℤ} (hne : whole ≠ []) (hwhole : Digits whole)
    (hlead : whole.head? = some '0' → whole.length = 1) (hplaces : Digits places) :
    Spells (whole ++ (fraction places ++ scale e)) (literal negative whole places e) where
  first := by
    obtain ⟨c, rest, rfl⟩ := List.exists_cons_of_ne_nil hne
    exact ⟨c, _, rfl, hwhole c List.mem_cons_self⟩
  read rest hrest := by
    rw [List.append_assoc, List.append_assoc]
    exact unsigned?_literal hne hwhole hlead hplaces e hrest

theorem toList_zeros (n : ℕ) : (Decimal.zeros n).toList = List.replicate n '0' :=
  String.toList_ofList

theorem digits_replicate (n : ℕ) : Digits (List.replicate n '0') := by
  intro c hc
  rw [List.eq_of_mem_replicate hc]
  rfl

/-- The digits of a decimal as they are written, without the point. -/
def written (d : Decimal.Digits) : List Char :=
  Nat.toDigits 10 d.digits

theorem written_ne_nil : written d ≠ [] :=
  Nat.toDigits_ne_nil

theorem digits_written : Digits (written d) :=
  digits_toDigits d.digits

theorem ofDigitChars_written : Nat.ofDigitChars 10 (written d) 0 = d.digits :=
  Nat.ofDigitChars_ten_toDigits

theorem toList_written : (Decimal.digitsText d.digits).toList = written d :=
  toList_digitsText d.digits

theorem length_digitsText : (Decimal.digitsText d.digits).length = (written d).length := by
  rw [← String.length_toList, toList_written]

theorem digits_lt_pow : d.digits < 10 ^ (written d).length :=
  (Nat.length_toDigits_le_iff (by decide) (List.length_pos_iff.mpr written_ne_nil)).mp le_rfl

/-- They have no leading zero, however many of them are taken. -/
theorem head?_take_written (hd : d.digits ≠ 0) (k : ℕ) : ((written d).take k).head? ≠ some '0' := by
  intro h
  rw [List.head?_take] at h
  split at h
  · contradiction
  · exact hd (head?_toDigits h)

/-- A text without a sign is a literal that is no integer and has the value of a decimal. -/
structure Shows (negative : Bool) (d : Decimal.Digits) (cs : List Char) (l : Literal) : Prop where
  negative_eq : l.negative = negative
  plain_eq : l.plain = false
  digits_le : l.digits ≤ 10 ^ 17
  value_eq : (l.digits * 10 ^ l.scale : ℚ) = d.digits * 10 ^ d.exponent
  spells : Spells cs l

/-- It is one if the digits are those of the decimal, perhaps after zeros, and the point is in its place. -/
theorem shows_literal {whole places : List Char} {e : Option ℤ} (hle : d.digits ≤ 10 ^ 17)
    (hne : whole ≠ []) (hwhole : Digits whole) (hlead : whole.head? = some '0' → whole.length = 1)
    (hplaces : Digits places) (hplain : (places.isEmpty && e.isNone) = false)
    (hdigits : Nat.ofDigitChars 10 (whole ++ places) 0 = d.digits)
    (hscale : e.getD 0 - places.length = d.exponent) :
    Shows negative d (whole ++ (fraction places ++ scale e)) (literal negative whole places e) where
  negative_eq := rfl
  plain_eq := hplain
  digits_le := hdigits.trans_le hle
  value_eq := by
    change ((Nat.ofDigitChars 10 (whole ++ places) 0 : ℕ) * 10 ^ (e.getD 0 - places.length) : ℚ) = _
    rw [hdigits, hscale]
  spells := spells_literal hne hwhole hlead hplaces

theorem fraction_eq {places : List Char} (hne : places ≠ []) : fraction places = '.' :: places := by
  obtain ⟨c, cs, rfl⟩ := List.exists_cons_of_ne_nil hne
  rfl

/-- Zeros before the digits do not change their value. -/
theorem ofDigitChars_zeros (k : ℕ) (ds : List Char) :
    Nat.ofDigitChars 10 (List.replicate k '0' ++ ds) 0 = Nat.ofDigitChars 10 ds 0 := by
  rw [Nat.ofDigitChars_append, Nat.ofDigitChars_replicate_zero, Nat.mul_zero]

/-- Digits that all stand after the point are such a text, -/
theorem shows_small (hle : d.digits ≤ 10 ^ 17) {k : ℕ} (hk : -(k : ℤ) = (written d).length + d.exponent) :
    ∃ l, Shows negative d ('0' :: '.' :: (List.replicate k '0' ++ written d)) l := by
  have hne : List.replicate k '0' ++ written d ≠ [] := List.append_ne_nil_of_right_ne_nil _ written_ne_nil
  have hplaces : Digits (List.replicate k '0' ++ written d) := by
    intro c hc
    exact (List.mem_append.mp hc).elim (digits_replicate k c) (digits_written c)
  have hshows : Shows negative d (['0'] ++ (fraction _ ++ scale none)) _ :=
    shows_literal hle (List.cons_ne_nil _ _) (digits_replicate 1) (fun _ => rfl) hplaces ?_ ?_ ?_
  · rw [fraction_eq hne, scale, List.append_nil] at hshows
    exact ⟨_, hshows⟩
  · rw [List.isEmpty_eq_false_iff.mpr hne]
    rfl
  · rw [← List.append_assoc]
    exact (ofDigitChars_zeros (k + 1) _).trans ofDigitChars_written
  · rw [List.length_append, List.length_replicate, Option.getD_none]
    push_cast
    omega

/-- and so are digits with the point among them, or with an exponent, -/
theorem shows_between (negative : Bool) (hd : d.digits ≠ 0) (hle : d.digits ≤ 10 ^ 17) {k : ℕ}
    {e : Option ℤ} (hk : k ≠ 0) (hlt : (written d).length ≤ k → k = (written d).length ∧ e ≠ none)
    (hscale : e.getD 0 + k = (written d).length + d.exponent) :
    ∃ l, Shows negative d ((written d).take k ++ (fraction ((written d).drop k) ++ scale e)) l := by
  refine ⟨_, shows_literal hle ?_ ?_ ?_ ?_ ?_ ?_ ?_⟩
  · rw [Ne, List.take_eq_nil_iff]
    exact not_or.mpr ⟨hk, written_ne_nil⟩
  · exact fun c hc => digits_written c (List.mem_of_mem_take hc)
  · exact fun h => absurd h (head?_take_written hd k)
  · exact fun c hc => digits_written c (List.mem_of_mem_drop hc)
  · rw [Bool.eq_false_iff, Ne, Bool.and_eq_true, List.isEmpty_iff, List.drop_eq_nil_iff,
      Option.isNone_iff_eq_none]
    exact fun h => (hlt h.1).2 h.2
  · rw [List.take_append_drop]
    exact ofDigitChars_written
  · rw [List.length_drop]
    omega

/-- and digits that all stand before it, with zeros up to the point. -/
theorem shows_large (hd : d.digits ≠ 0) {k : ℕ} (hk : (k : ℤ) = d.exponent)
    (hpoint : (written d).length + k ≤ 16) :
    ∃ l, Shows negative d (written d ++ List.replicate k '0' ++ ['.', '0']) l := by
  have hne : written d ++ List.replicate k '0' ≠ [] := List.append_ne_nil_of_left_ne_nil written_ne_nil _
  have hwhole : Digits (written d ++ List.replicate k '0') := by
    intro c hc
    exact (List.mem_append.mp hc).elim (digits_written c) (digits_replicate k c)
  have hlead : (written d ++ List.replicate k '0').head? ≠ some '0' := by
    rw [List.head?_append_of_ne_nil _ written_ne_nil]
    exact fun h => hd (head?_toDigits h)
  have hdigits : Nat.ofDigitChars 10 (written d ++ List.replicate k '0' ++ ['0']) 0 =
      d.digits * 10 ^ (k + 1) := by
    rw [List.append_assoc, ← List.replicate_succ', Nat.ofDigitChars_append, ofDigitChars_written,
      Nat.ofDigitChars_replicate_zero, Nat.mul_comm]
  have hspells : Spells _ (literal negative _ ['0'] none) :=
    spells_literal hne hwhole (fun h => absurd h hlead) (digits_replicate 1)
  refine ⟨_, rfl, rfl, ?_, ?_, hspells⟩
  · calc (literal negative _ ['0'] none).digits
      _ = d.digits * 10 ^ (k + 1) := hdigits
      _ ≤ 10 ^ (written d).length * 10 ^ (k + 1) := Nat.mul_le_mul_right _ digits_lt_pow.le
      _ = 10 ^ ((written d).length + (k + 1)) := (Nat.pow_add ..).symm
      _ ≤ 10 ^ 17 := Nat.pow_le_pow_right (by decide) (by omega)
  · change ((Nat.ofDigitChars 10 _ 0 : ℕ) * 10 ^ (-1 : ℤ) : ℚ) = _
    rw [hdigits, ← hk, zpow_natCast]
    push_cast
    rw [zpow_neg_one, pow_succ]
    field_simp

/-- So is a decimal in positional notation, -/
theorem shows_positional (hd : d.digits ≠ 0) (hle : d.digits ≤ 10 ^ 17)
    (hpoint : (written d).length + d.exponent ≤ 16) :
    ∃ l, Shows negative d
      (Decimal.positional (Decimal.digitsText d.digits) ((written d).length + d.exponent)).toList l := by
  unfold Decimal.positional
  dsimp only
  rw [length_digitsText]
  split
  · next hsmall =>
    simp only [String.toList_append, toList_written, toList_zeros]
    exact shows_small hle (by omega)
  split
  · next hlarge =>
    simp only [String.toList_append, toList_written, toList_zeros]
    exact shows_large hd (by omega) (by omega)
  · next hsmall hlarge =>
    simp only [String.toList_append, toList_written, String.toList_ofList, List.append_assoc]
    have hshows := shows_between (e := none) negative hd hle
      (k := ((written d).length + d.exponent).toNat) (by omega) (by omega)
      (by simp only [Option.getD_none]; omega)
    rw [fraction_eq, scale, List.append_nil] at hshows
    · exact hshows
    · rw [Ne, List.drop_eq_nil_iff]
      omega

theorem toList_fraction (ds : List Char) :
    (if (String.ofList ds).isEmpty then "" else "." ++ String.ofList ds).toList = fraction ds := by
  cases ds with
  | nil => rfl
  | cons c cs => simp [fraction]

/-- and one in exponent notation. -/
theorem shows_scientific (hd : d.digits ≠ 0) (hle : d.digits ≤ 10 ^ 17) :
    ∃ l, Shows negative d
      (Decimal.scientific (Decimal.digitsText d.digits) ((written d).length + d.exponent)).toList l := by
  have hpos : 0 < (written d).length := List.length_pos_iff.mpr written_ne_nil
  have hshows := shows_between (e := some ((written d).length + d.exponent - 1)) negative hd hle one_ne_zero
    (fun h => ⟨by omega, by simp⟩) (by simp)
  unfold Decimal.scientific
  dsimp only
  simp only [String.toList_append, String.toList_ofList, toList_written, List.append_assoc]
  rw [toList_fraction]
  exact hshows

/-- A decimal in the layout of numbers is such a text. -/
theorem shows_digits (negative : Bool) (hd : d.digits ≠ 0) (hle : d.digits ≤ 10 ^ 17) :
    ∃ l, Shows negative d (numberLayout.digits d).toList l := by
  unfold Decimal.Layout.digits
  dsimp only
  rw [length_digitsText]
  split
  · next hpoint =>
    rw [Bool.and_eq_true, decide_eq_true_eq, decide_eq_true_eq] at hpoint
    exact shows_positional hd hle hpoint.2
  · exact shows_scientific hd hle

end Orchestra.Json
