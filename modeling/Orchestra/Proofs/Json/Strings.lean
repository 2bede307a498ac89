import Mathlib.Tactic.IntervalCases
import Orchestra.Json.Document
import Orchestra.Json.Printer

/-!
# Texts are read back

What stands for a character in a string literal is read as this character, whether it is the character itself,
an escape with one letter or the four hexadecimal digits of a control character. No character but the closing
quote ends the literal, so a text is read back whatever follows.
-/

namespace Orchestra.Json

open Document

variable {c : Char} {cs rest before : List Char} {fuel n : ℕ} {s : String}

/-- The hexadecimal digits of a control character name it. -/
theorem hex4?_hex4 (hn : n < 32) : hex4? ((hex4 n).toList ++ rest) = some (n, rest) := by
  interval_cases n <;> rfl

/-- An escape with a code names the character with this code if it is a control character. -/
theorem stringBody?_code (hn : n < 32) :
    stringBody? (fuel + 1) ('\\' :: 'u' :: ((hex4 n).toList ++ rest)) (some before) =
      stringBody? fuel rest (some (Char.ofNat n :: before)) := by
  have hnamed : codeEscape n rest = (some (Char.ofNat n), rest) := by
    rw [codeEscape, if_neg (by simp; omega), if_neg (by simp; omega)]
  rw [stringBody?, if_neg (by decide), if_pos rfl]
  dsimp only
  rw [hex4?_hex4 hn]
  dsimp only
  rw [hnamed]
  rfl

/-- What stands for a character in a literal is read as this character. -/
theorem stringBody?_escapedChar (c : Char) :
    stringBody? (fuel + 1) ((escapedChar c).toList ++ rest) (some before) =
      stringBody? fuel rest (some (c :: before)) := by
  unfold escapedChar
  split
  · next h => exact h ▸ rfl
  split
  · next h => exact h ▸ rfl
  split
  · next h => exact h ▸ rfl
  split
  · next h => exact h ▸ rfl
  split
  · next h => exact h ▸ rfl
  split
  · next h =>
    rw [show c = Char.ofNat 8 by rw [← h, Char.ofNat_toNat]]
    rfl
  split
  · next h =>
    rw [show c = Char.ofNat 12 by rw [← h, Char.ofNat_toNat]]
    rfl
  split
  · next h =>
    rw [String.toList_append]
    exact (stringBody?_code h).trans (by rw [Char.ofNat_toNat])
  · next hquote hback _ _ _ _ _ hcontrol =>
    rw [Char.toString, String.toList_singleton]
    exact (if_neg hquote).trans ((if_neg hback).trans (if_neg hcontrol))

/-- What stands for a text in a literal, up to the closing quote, is read as this text. -/
theorem stringBody?_flatMap (hfuel : cs.length < fuel) :
    stringBody? fuel (cs.flatMap (fun c => (escapedChar c).toList) ++ '"' :: rest) (some before) =
      some (some (String.ofList (before.reverse ++ cs)), rest) := by
  induction cs generalizing fuel before with
  | nil =>
    obtain ⟨fuel, rfl⟩ := Nat.exists_eq_add_of_lt hfuel
    rw [List.append_nil]
    rfl
  | cons c cs ih =>
    obtain ⟨fuel, rfl⟩ := Nat.exists_eq_add_one_of_ne_zero (Nat.ne_zero_of_lt hfuel)
    rw [List.flatMap_cons, List.append_assoc, stringBody?_escapedChar, ih (Nat.lt_of_succ_lt_succ hfuel),
      List.reverse_cons, List.append_assoc]
    rfl

/-- Something stands for every character, -/
theorem length_escapedChar_pos (c : Char) : 0 < (escapedChar c).toList.length := by
  unfold escapedChar
  split_ifs <;> simp

/-- so what stands for a text is not shorter. -/
theorem length_le_flatMap (cs : List Char) :
    cs.length ≤ (cs.flatMap fun c => (escapedChar c).toList).length := by
  induction cs with
  | nil => exact le_rfl
  | cons c cs ih =>
    have hpos := length_escapedChar_pos c
    rw [List.flatMap_cons, List.length_append, List.length_cons]
    omega

/-- The characters of a string literal. -/
theorem toList_stringText (s : String) : (stringText s).toList =
    '"' :: (s.toList.flatMap (fun c => (escapedChar c).toList) ++ ['"']) := by
  rw [stringText, String.toList_append, String.toList_append, String.toList_join, List.flatMap_map]
  rfl

/-- A string literal is read as its text. -/
theorem string?_stringText (s : String) : string? ((stringText s).toList ++ rest) = some (some s, rest) := by
  have hlength := length_le_flatMap s.toList
  rw [toList_stringText, List.cons_append, List.append_assoc, string?]
  refine (stringBody?_flatMap ?_).trans ?_
  · rw [List.length_append]
    omega
  · rw [List.reverse_nil, List.nil_append, String.ofList_toList]
    rfl

end Orchestra.Json
