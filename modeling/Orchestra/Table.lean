/-!
# Tables

A table hands out the next number for each entry added, and entries are changed but never removed.
-/

namespace Orchestra

/-- Entries numbered from zero. -/
structure Table (α : Type) where
  entries : Array α
deriving Repr, Inhabited

namespace Table

variable {α : Type}

/-- The table without entries. -/
def empty : Table α := ⟨#[]⟩

/-- The number of entries, which is the number of the next one. -/
def size (t : Table α) : Nat :=
  t.entries.size

/-- The entry with a number. -/
def get? (t : Table α) (i : Nat) : Option α :=
  t.entries[i]?

/-- Adds an entry, whose number is the former size. -/
def push (t : Table α) (a : α) : Table α :=
  ⟨t.entries.push a⟩

/-- Changes the entry with a number, if there is one. -/
def modify (t : Table α) (i : Nat) (f : α → α) : Table α :=
  ⟨t.entries.modify i f⟩

/-- The entries in order of their numbers. -/
def toList (t : Table α) : List α :=
  t.entries.toList

@[simp] theorem get?_empty (i : Nat) : (empty : Table α).get? i = none := by
  simp [empty, get?]

@[simp] theorem size_empty : (empty : Table α).size = 0 := rfl

/-- The added entry has the former size as its number, and no other entry changes. -/
theorem get?_push (t : Table α) (a : α) (i : Nat) :
    (t.push a).get? i = if i = t.size then some a else t.get? i :=
  Array.getElem?_push

@[simp] theorem size_push (t : Table α) (a : α) : (t.push a).size = t.size + 1 := by
  simp [push, size]

/-- A change affects the entry with its number only. -/
theorem get?_modify (t : Table α) (i j : Nat) (f : α → α) :
    (t.modify i f).get? j = if i = j then (t.get? j).map f else t.get? j := by
  simp [modify, get?, Array.getElem?_modify]

@[simp] theorem size_modify (t : Table α) (i : Nat) (f : α → α) :
    (t.modify i f).size = t.size := by
  simp [modify, size]

/-- Exactly the numbers below the size are in use. -/
theorem get?_eq_none_iff (t : Table α) (i : Nat) : t.get? i = none ↔ t.size ≤ i := by
  simp [get?, size]

theorem lt_size_of_get? {t : Table α} {i : Nat} {a : α} (h : t.get? i = some a) : i < t.size := by
  apply Nat.lt_of_not_le
  intro hle
  rw [(t.get?_eq_none_iff i).mpr hle] at h
  contradiction

end Table

end Orchestra
