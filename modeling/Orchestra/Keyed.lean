/-!
# Entries in key order

A finite map from texts to values as a list of pairs with strictly increasing keys. Insertion keeps
the order, so two maps with the same entries are the same list and iteration is in key order.
-/

namespace Orchestra

/-- Pairs of a key and a value, in increasing key order. -/
abbrev Keyed (α : Type) := List (String × α)

namespace Keyed

variable {α β : Type}

/-- The value stored under a key. -/
def find? (key : String) : Keyed α → Option α
  | [] => none
  | (k, v) :: rest => if k = key then some v else find? key rest

/-- Applies `change` to what is stored under a key, or to nothing, and stores the answer there. -/
def alter (key : String) (change : Option α → α) : Keyed α → Keyed α
  | [] => [(key, change none)]
  | (k, v) :: rest =>
    if k = key then (k, change (some v)) :: rest
    else if key < k then (key, change none) :: (k, v) :: rest
    else (k, v) :: alter key change rest

/-- Stores a value under a key, replacing an earlier one. -/
def insert (key : String) (value : α) (entries : Keyed α) : Keyed α :=
  entries.alter key fun _ => value

/-- Removes a key. -/
def erase (key : String) : Keyed α → Keyed α
  | [] => []
  | (k, v) :: rest => if k = key then rest else (k, v) :: erase key rest

/-- The entries of a list of pairs, later pairs replacing earlier ones with the same key. -/
def ofPairs (pairs : List (String × α)) : Keyed α :=
  pairs.foldl (fun entries (k, v) => insert k v entries) []

/-- The keys, in order. -/
def keys (entries : Keyed α) : List String :=
  entries.map Prod.fst

/-- Strictly increasing keys. -/
def Ordered : Keyed α → Prop
  | [] => True
  | (k, _) :: rest => (∀ p ∈ rest, k < p.1) ∧ Ordered rest

/-- What is stored under the altered key is the changed value, and every other key keeps its own. -/
theorem find?_alter (key other : String) (change : Option α → α) (entries : Keyed α)
    (h : entries.Ordered) :
    find? other (alter key change entries) =
      if key = other then some (change (find? key entries)) else find? other entries := by
  induction entries with
  | nil => by_cases hk : key = other <;> simp [alter, find?, hk]
  | cons p rest ih =>
    obtain ⟨k, v⟩ := p
    obtain ⟨hlt, hrest⟩ := h
    by_cases hk : k = key
    · subst hk
      by_cases ho : k = other <;> simp [alter, find?, ho]
    · by_cases hl : key < k
      · have hnone : find? key rest = none := by
          clear ih
          induction rest with
          | nil => rfl
          | cons q tail ihq =>
            have hq : k < q.1 := hlt q (by simp)
            have hne : q.1 ≠ key := fun e => by
              subst e
              exact absurd (String.lt_trans hl hq) (String.lt_irrefl _)
            simp only [find?, hne, if_false]
            exact ihq (fun p hp => hlt p (by simp [hp])) hrest.2
        by_cases ho : key = other
        · subst ho
          simp [alter, find?, hk, hl, hnone]
        · simp [alter, find?, hk, hl, ho]
      · rw [alter, if_neg hk, if_neg hl]
        simp only [find?]
        rw [ih hrest]
        by_cases ho : k = other
        · subst ho
          simp [Ne.symm hk]
        · simp [ho, hk]

end Keyed

end Orchestra
