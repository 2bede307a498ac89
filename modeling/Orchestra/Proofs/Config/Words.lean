import Mathlib.Data.List.TakeWhile
import Orchestra.Config.Environment

/-!
# Words around which there may be blanks

The values of variables are words with blanks around them: a number in decimal digits after an optional plus
sign, or the name of a policy in any case and with either hyphens or underscores. What a reader accepts is
said here by how such a text is put together, and the readers come to exactly that.
-/

namespace Orchestra

namespace Text

/-- A text is a word with blanks around it. -/
def Surrounds (s : String) (word : List Char) : Prop :=
  ∃ before after, s.toList = before ++ word ++ after ∧
    (∀ c ∈ before, isBlank c = true) ∧ ∀ c ∈ after, isBlank c = true

/-- A word has no blank at either end. -/
def Tight (word : List Char) : Prop :=
  (∀ c ∈ word.head?, isBlank c = false) ∧ ∀ c ∈ word.getLast?, isBlank c = false

variable {s : String} {word before after cs : List Char}

theorem dropWhile_blanks (hbefore : ∀ c ∈ before, isBlank c = true)
    (hhead : ∀ c ∈ cs.head?, isBlank c = false) : (before ++ cs).dropWhile isBlank = cs := by
  induction before with
  | nil =>
    cases cs with
    | nil => rfl
    | cons c cs => exact List.dropWhile_cons_of_neg (Bool.eq_false_iff.mp (hhead c rfl))
  | cons c before ih =>
    obtain ⟨hc, hbefore⟩ := List.forall_mem_cons.mp hbefore
    rw [List.cons_append, List.dropWhile_cons_of_pos hc]
    exact ih hbefore

/-- A tight word is what is left of a text when the blanks around it are cut off, -/
theorem Surrounds.trimChars_eq (h : Surrounds s word) (tight : Tight word) :
    trimChars s.toList = word := by
  obtain ⟨before, after, heq, hbefore, hafter⟩ := h
  obtain ⟨hhead, hlast⟩ := tight
  rw [trimChars, heq, List.append_assoc]
  cases word with
  | nil =>
    have hblank : ∀ c ∈ before ++ after, isBlank c = true :=
      List.forall_mem_append.mpr ⟨hbefore, hafter⟩
    rw [List.nil_append, List.dropWhile_eq_nil_iff.mpr hblank]
    rfl
  | cons c word =>
    rw [dropWhile_blanks hbefore (by rwa [List.cons_append]), List.reverse_append, dropWhile_blanks,
      List.reverse_reverse]
    · exact fun d hd => hafter d (List.mem_reverse.mp hd)
    · rwa [List.head?_reverse]

theorem head?_dropWhile_blank : ∀ c ∈ (cs.dropWhile isBlank).head?, isBlank c = false := by
  intro c hc
  have hnot := List.head?_dropWhile_not isBlank cs
  rw [Option.mem_def.mp hc] at hnot
  simpa using hnot

/-- and what is left is a tight word in blanks. -/
theorem surrounds_trimChars (s : String) :
    Surrounds s (trimChars s.toList) ∧ Tight (trimChars s.toList) := by
  rw [trimChars]
  generalize hcs : s.toList.dropWhile isBlank = cs
  have hfront : s.toList = s.toList.takeWhile isBlank ++ cs := by
    rw [← hcs, List.takeWhile_append_dropWhile]
  have hback : cs = (cs.reverse.dropWhile isBlank).reverse ++ (cs.reverse.takeWhile isBlank).reverse := by
    rw [← List.reverse_append, List.takeWhile_append_dropWhile, List.reverse_reverse]
  refine ⟨⟨s.toList.takeWhile isBlank, (cs.reverse.takeWhile isBlank).reverse, ?_, ?_, ?_⟩, ?_, ?_⟩
  · rw [List.append_assoc, ← hback]
    exact hfront
  · exact fun c hc => List.mem_takeWhile_imp hc
  · exact fun c hc => List.mem_takeWhile_imp (List.mem_reverse.mp hc)
  · intro c hc
    refine head?_dropWhile_blank c (?_ : c ∈ (s.toList.dropWhile isBlank).head?)
    rw [hcs, hback, List.head?_append]
    exact Option.or_eq_some_iff.mpr (.inl hc)
  · rw [List.getLast?_reverse]
    exact head?_dropWhile_blank

end Text

/-! ### Numbers -/

namespace Config

/-- A text writes a number: in decimal digits, perhaps after a plus sign, with blanks around it. -/
def Writes (s : String) (n : Nat) : Prop :=
  ∃ sign digits, Text.Surrounds s (sign ++ digits) ∧ (sign = [] ∨ sign = ['+']) ∧ digits ≠ [] ∧
    (∀ c ∈ digits, c.isDigit = true) ∧ Nat.ofDigitChars 10 digits 0 = n

variable {s : String} {n : Nat} {cs digits sign : List Char}

theorem isDigit_iff {c : Char} : c.isDigit = true ↔ '0' ≤ c ∧ c ≤ '9' := by
  rw [Char.isDigit, Bool.and_eq_true, decide_eq_true_eq, decide_eq_true_eq]
  rfl

/-- A blank is no digit. -/
theorem isBlank_of_isDigit {c : Char} (h : c.isDigit = true) : Text.isBlank c = false := by
  obtain ⟨hlow, hhigh⟩ := isDigit_iff.mp h
  have hlow' : 48 ≤ c.toNat := hlow
  have hhigh' : c.toNat ≤ 57 := hhigh
  simp only [Text.isBlank, Bool.or_eq_false_iff, Bool.and_eq_false_iff, decide_eq_false_iff_not]
  omega

theorem decimal?_eq_some : decimal? cs = some n ↔
    cs ≠ [] ∧ (∀ c ∈ cs, c.isDigit = true) ∧ Nat.ofDigitChars 10 cs 0 = n := by
  have hvalue : Nat.ofDigitChars 10 cs 0 = cs.foldl (fun n c => n * 10 + (c.toNat - 48)) 0 := by
    rw [Nat.ofDigitChars]
    congr 1
    funext n c
    rw [Nat.mul_comm]
    rfl
  cases cs with
  | nil => simp [decimal?]
  | cons c cs =>
    rw [decimal?]
    · rw [Option.ite_none_right_eq_some, List.all_eq_true, hvalue, Option.some.injEq]
      simp only [isDigit_iff, Bool.and_eq_true, decide_eq_true_eq]
      exact ⟨fun h => ⟨List.cons_ne_nil _ _, h⟩, And.right⟩
    · exact List.cons_ne_nil _ _

theorem tight_of_digits (hsign : sign = [] ∨ sign = ['+'])
    (hdigits : ∀ c ∈ digits, c.isDigit = true) : Text.Tight (sign ++ digits) := by
  have hall : ∀ c ∈ sign ++ digits, Text.isBlank c = false := by
    refine List.forall_mem_append.mpr ⟨fun c hc => ?_, fun c hc => isBlank_of_isDigit (hdigits c hc)⟩
    rcases hsign with rfl | rfl
    · exact absurd hc List.not_mem_nil
    · rw [List.mem_singleton.mp hc]
      rfl
  exact ⟨fun c hc => hall c (List.mem_of_mem_head? hc), fun c hc => hall c (List.mem_of_mem_getLast? hc)⟩

/-- The text without the plus sign that it may begin with. -/
def unsigned (cs : List Char) : List Char :=
  if cs.head? = some '+' then cs.drop 1 else cs

theorem exists_sign (cs : List Char) : ∃ sign, cs = sign ++ unsigned cs ∧ (sign = [] ∨ sign = ['+']) := by
  unfold unsigned
  split
  · next hplus =>
    obtain ⟨digits, rfl⟩ := List.head?_eq_some_iff.mp hplus
    exact ⟨['+'], rfl, .inr rfl⟩
  · exact ⟨[], rfl, .inl rfl⟩

theorem unsigned_append (hsign : sign = [] ∨ sign = ['+']) (hdigits : ∀ c ∈ digits, c.isDigit = true) :
    unsigned (sign ++ digits) = digits := by
  rcases hsign with rfl | rfl
  · refine if_neg fun hplus => ?_
    exact absurd (hdigits '+' (List.mem_of_mem_head? hplus)) (by decide)
  · rfl

theorem word?_eq_some_iff_decimal? :
    word? s = some n ↔ decimal? (unsigned (Text.trimChars s.toList)) = some n ∧ n < UInt64.size := by
  have hword : word? s = (decimal? (unsigned (Text.trimChars s.toList))).bind fun n =>
      if n < UInt64.size then some n else none := by
    unfold word? unsigned
    dsimp only
    generalize decimal? _ = value
    cases value <;> rfl
  rw [hword]
  cases decimal? (unsigned (Text.trimChars s.toList)) with
  | none => simp
  | some m =>
    rw [Option.bind_some, Option.ite_none_right_eq_some, Option.some.injEq]
    constructor
    · rintro ⟨hlt, rfl⟩
      exact ⟨rfl, hlt⟩
    · rintro ⟨rfl, hlt⟩
      exact ⟨hlt, rfl⟩

/-- What is read is what is written, if a word of 64 bits holds it. -/
theorem word?_eq_some : word? s = some n ↔ Writes s n ∧ n < UInt64.size := by
  rw [word?_eq_some_iff_decimal?, decimal?_eq_some]
  refine and_congr_left fun _ => ⟨?_, ?_⟩
  · rintro ⟨hne, hdigits, hvalue⟩
    obtain ⟨sign, hcs, hsign⟩ := exists_sign (Text.trimChars s.toList)
    exact ⟨sign, _, hcs ▸ (Text.surrounds_trimChars s).1, hsign, hne, hdigits, hvalue⟩
  · rintro ⟨sign, digits, hsurrounds, hsign, hne, hdigits, hvalue⟩
    rw [hsurrounds.trimChars_eq (tight_of_digits hsign hdigits), unsigned_append hsign hdigits]
    exact ⟨hne, hdigits, hvalue⟩

/-- The decimal digits of a number write it. -/
theorem writes_toString (n : Nat) : Writes (toString n) n := by
  refine ⟨[], Nat.toDigits 10 n, ⟨[], [], ?_, nofun, nofun⟩, .inl rfl, ?_, ?_, ?_⟩
  · rw [List.nil_append, List.nil_append, List.append_nil]
    exact Nat.toList_repr
  · exact List.ne_nil_of_length_pos Nat.length_toDigits_pos
  · exact fun c hc => Nat.isDigit_of_mem_toDigits (by decide) (by decide) hc
  · exact Nat.ofDigitChars_toDigits (by decide) (by decide)

end Config

/-! ### Names of policies -/

namespace FailurePolicy

/-- A letter is made small, and a hyphen an underscore. -/
def folded (c : Char) : Char :=
  if c.toLower = '-' then '_' else c.toLower

/-- A text names a policy: in letters of any case, perhaps with a hyphen for the underscore, and with blanks
around it. -/
def Names (s : String) (policy : FailurePolicy) : Prop :=
  ∃ word, Text.Surrounds s word ∧ word.map folded = policy.text.toList

variable {s : String} {policy : FailurePolicy} {c : Char} {word : List Char}

theorem folded_capital :
    ∀ n < 26, folded (Char.ofNat (65 + n)) = normalChar (Char.ofNat (65 + n)) := by
  decide

theorem folded_eq (c : Char) : folded c = normalChar c := by
  by_cases hupper : 'A' ≤ c ∧ c ≤ 'Z'
  · have hlow : 65 ≤ c.toNat := hupper.1
    have hhigh : c.toNat ≤ 90 := hupper.2
    have hcapital := folded_capital (c.toNat - 65) (by omega)
    rwa [Nat.add_sub_of_le hlow, Char.ofNat_toNat] at hcapital
  · have hlower : c.toLower = c := dif_neg hupper
    rw [folded, normalChar]
    simp only [hlower, Bool.and_eq_true, decide_eq_true_eq, if_neg hupper]

/-- No blank stands for a character of a name. -/
theorem isBlank_of_folded (h : folded c ∈ policy.text.toList) : Text.isBlank c = false := by
  have hname : policy.text.toList.all (fun d => !Text.isBlank d) = true := by
    cases policy <;> rfl
  by_cases hblank : Text.isBlank c = true
  · have hhyphen : c ≠ '-' := by
      rintro rfl
      contradiction
    have hupper : ¬ ('A' ≤ c ∧ c ≤ 'Z') := by
      rintro ⟨hlow, hhigh⟩
      have hlow' : 65 ≤ c.toNat := hlow
      have hhigh' : c.toNat ≤ 90 := hhigh
      simp only [Text.isBlank, Bool.or_eq_true, Bool.and_eq_true, decide_eq_true_eq] at hblank
      omega
    have hsame : folded c = c := by
      have hlower : c.toLower = c := dif_neg hupper
      rw [folded, hlower, if_neg hhyphen]
    rw [hsame] at h
    exact (Bool.not_eq_true' _).mp (List.all_eq_true.mp hname c h)
  · exact Bool.eq_false_iff.mpr hblank

theorem tight_of_folded (h : word.map folded = policy.text.toList) : Text.Tight word := by
  have hall : ∀ c ∈ word, Text.isBlank c = false := fun c hc =>
    isBlank_of_folded (h ▸ List.mem_map_of_mem hc)
  exact ⟨fun c hc => hall c (List.mem_of_mem_head? hc), fun c hc => hall c (List.mem_of_mem_getLast? hc)⟩

theorem ofText?_eq_some {s : String} : ofText? s = some policy ↔ s = policy.text := by
  unfold ofText?
  constructor
  · intro h
    split at h
    · next heq =>
      rw [← Option.some.inj h]
      exact heq
    · split at h
      · next heq =>
        rw [← Option.some.inj h]
        exact heq
      · contradiction
  · rintro rfl
    cases policy <;> rfl

theorem parse_eq_ok : parse s = .ok policy ↔ Names s policy := by
  have hparse : parse s = .ok policy ↔ ofText? (normalize s) = some policy := by
    unfold parse
    cases ofText? (normalize s) <;> simp
  rw [hparse, ofText?_eq_some, ← String.toList_inj, normalize, String.toList_ofList]
  rw [show normalChar = folded from funext fun c => (folded_eq c).symm]
  constructor
  · exact fun h => ⟨_, (Text.surrounds_trimChars s).1, h⟩
  · rintro ⟨word, hsurrounds, hword⟩
    rwa [hsurrounds.trimChars_eq (tight_of_folded hword)]

/-- The name of a policy names it. -/
theorem names_text (policy : FailurePolicy) : Names policy.text policy := by
  refine ⟨policy.text.toList, ⟨[], [], by simp, nofun, nofun⟩, ?_⟩
  cases policy <;> decide

theorem parse_eq_error {e : RunError} : parse s = .error e ↔
    (∀ policy, ¬ Names s policy) ∧ e = .config ("unknown failure policy: " ++ normalize s) := by
  simp only [← parse_eq_ok]
  unfold parse
  cases ofText? (normalize s) <;> simp [eq_comm]

end FailurePolicy

end Orchestra
