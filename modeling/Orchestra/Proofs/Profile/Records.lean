import Mathlib.Data.List.Basic
import Mathlib.Data.List.Induction
import Orchestra.Profile
import Orchestra.Proofs.Info.Paths

/-!
# Profiles of recorded calls

A profile that was empty at first is made of the calls that have been recorded in it since. As long as the
times of the calls of each name add up to a duration, it has counted those of each name under that name, and
it is the same profile in whatever order they were recorded. The first call that does not fit overflows.
-/

namespace Orchestra

/-- What is recorded of a call. -/
structure CallRecord where
  name : String
  elapsed : Duration
  failed : Bool

namespace CallRecord

/-- The time that some calls have taken. -/
def nanos : List CallRecord → Nat
  | [] => 0
  | r :: rest => r.elapsed.nanos + nanos rest

/-- The calls of each name have taken a time that is a duration. -/
def Fit (records : List CallRecord) : Prop :=
  ∀ name, nanos (records.filter fun r => r.name = name) < Duration.limit

variable {records records' : List CallRecord} {r : CallRecord}

@[simp] theorem nanos_nil : nanos [] = 0 :=
  rfl

@[simp] theorem nanos_singleton : nanos [r] = r.elapsed.nanos :=
  rfl

@[simp] theorem nanos_append : nanos (records ++ records') = nanos records + nanos records' := by
  induction records with
  | nil => exact (Nat.zero_add _).symm
  | cons r rest ih => rw [List.cons_append, nanos, ih, nanos, Nat.add_assoc]

theorem nanos_perm (h : records.Perm records') : nanos records = nanos records' := by
  induction h with
  | nil => rfl
  | cons r _ ih => rw [nanos, nanos, ih]
  | swap r r' rest => exact Nat.add_left_comm _ _ _
  | trans _ _ ih ih' => exact ih.trans ih'

/-- Calls that fit do so in any order, -/
theorem Fit.perm (fit : Fit records) (h : records.Perm records') : Fit records' := fun name =>
  nanos_perm (h.filter _) ▸ fit name

/-- and without the last one. -/
theorem Fit.of_append (fit : Fit (records ++ records')) : Fit records := fun name => by
  refine Nat.lt_of_le_of_lt ?_ (fit name)
  rw [List.filter_append, nanos_append]
  exact Nat.le_add_right _ _

/-- Calls that take no time fit. -/
theorem fit_of_zero (h : ∀ r ∈ records, r.elapsed = .zero) : Fit records := fun name => by
  have hzero : nanos (records.filter fun r => r.name = name) = 0 := by
    induction records with
    | nil => rfl
    | cons r rest ih =>
      obtain ⟨hr, hrest⟩ := List.forall_mem_cons.mp h
      rw [List.filter_cons]
      split
      · rw [nanos, ih hrest, hr]
        rfl
      · exact ih hrest
  rw [hzero]
  decide

end CallRecord

namespace ProfileEntry

open CallRecord (nanos nanos_append nanos_singleton nanos_perm)

variable {records records' : List CallRecord}

/-- The counters of some calls of one name, if there are any. -/
def ofRecords? (records : List CallRecord) : Option ProfileEntry :=
  if records.length = 0 then none
  else some ⟨records.length, records.countP CallRecord.failed, ⟨nanos records⟩⟩

/-- Their total is the time that they have taken. -/
theorem total_ofRecords? (records : List CallRecord) :
    ((ofRecords? records).getD .empty).total = ⟨nanos records⟩ := by
  cases records <;> rfl

/-- A call overflows if and only if the time of them all is no duration. -/
theorem overflows_ofRecords? (records : List CallRecord) (r : CallRecord) :
    ((ofRecords? records).getD .empty).overflows r.elapsed = true ↔
      Duration.limit ≤ nanos (records ++ [r]) := by
  rw [overflows, total_ofRecords?, Duration.add?, nanos_append, nanos_singleton]
  split
  · next hlt => exact iff_of_false nofun (Nat.not_le_of_lt hlt)
  · next hlimit => exact iff_of_true rfl (Nat.le_of_not_lt hlimit)

/-- One more call is counted and its time is added. -/
theorem ofRecords?_append (records : List CallRecord) (r : CallRecord)
    (hlt : nanos (records ++ [r]) < Duration.limit) :
    ofRecords? (records ++ [r]) =
      some (((ofRecords? records).getD .empty).record r.elapsed r.failed) := by
  rw [nanos_append, nanos_singleton] at hlt
  have hadd : ((ofRecords? records).getD .empty).total.add? r.elapsed =
      some ⟨nanos records + r.elapsed.nanos⟩ := by
    rw [total_ofRecords?, Duration.add?, if_pos hlt]
  rw [record, hadd]
  obtain ⟨name, elapsed, failed⟩ := r
  by_cases hnil : records = []
  · subst hnil
    cases failed <;> simp [ofRecords?, empty]
  · have hlength : records.length ≠ 0 := mt List.length_eq_zero_iff.mp hnil
    cases failed <;> simp [ofRecords?, hlength]

/-- Their order does not matter. -/
theorem ofRecords?_perm (h : records.Perm records') : ofRecords? records = ofRecords? records' := by
  rw [ofRecords?, ofRecords?, h.length_eq, h.countP_eq, nanos_perm h]

end ProfileEntry

namespace Keyed

variable {α : Type} {entries : Keyed α}

/-- The keys of entries in order increase strictly. -/
theorem Ordered.pairwise (ordered : entries.Ordered) : entries.keys.Pairwise (· < ·) := by
  induction entries with
  | nil => exact .nil
  | cons p rest ih =>
    obtain ⟨hlt, hrest⟩ := ordered
    refine .cons (fun key hkey => ?_) (ih hrest)
    obtain ⟨q, hq, rfl⟩ := List.mem_map.mp hkey
    exact hlt q hq

/-- The keys are those under which something is found. -/
theorem Ordered.mem_keys (ordered : entries.Ordered) {key : String} :
    key ∈ entries.keys ↔ find? key entries ≠ none := by
  constructor
  · intro h
    obtain ⟨p, hp, rfl⟩ := List.mem_map.mp h
    rw [ordered.find?_of_mem hp]
    nofun
  · intro h
    obtain ⟨value, hvalue⟩ := Option.ne_none_iff_exists'.mp h
    exact List.mem_map.mpr ⟨_, mem_of_find? hvalue, rfl⟩

end Keyed

namespace Profile

open CallRecord (Fit)

/-- The profile in which some calls were recorded, one after the other. -/
def ofRecords (records : List CallRecord) : Profile :=
  records.foldl (fun p r => p.record r.name r.elapsed r.failed) .empty

theorem ofRecords_append (records : List CallRecord) (r : CallRecord) :
    ofRecords (records ++ [r]) = (ofRecords records).record r.name r.elapsed r.failed :=
  List.foldl_append

variable {records records' : List CallRecord}

/-- Its entries are in name order. -/
theorem ordered_ofRecords (records : List CallRecord) : (ofRecords records).entries.Ordered := by
  induction records using List.reverseRecOn with
  | nil => trivial
  | append_singleton records r ih =>
    rw [ofRecords_append]
    exact ih.alter

/-- Under each name it has the counters of the calls of that name, if there are any. -/
theorem get?_ofRecords (fit : Fit records) (name : String) :
    (ofRecords records).get? name =
      ProfileEntry.ofRecords? (records.filter fun r => r.name = name) := by
  induction records using List.reverseRecOn with
  | nil => rfl
  | append_singleton records r ih =>
    replace ih := ih fit.of_append
    rw [get?] at ih
    rw [ofRecords_append, get?, record, Keyed.find?_alter _ _ _ _ (ordered_ofRecords records)]
    by_cases hname : r.name = name
    · have hfilter : (records ++ [r]).filter (fun r => r.name = name) =
          records.filter (fun r => r.name = name) ++ [r] := by
        rw [List.filter_append, List.filter_singleton, decide_eq_true hname, cond_true]
      rw [if_pos hname, hname, ih, hfilter,
        ProfileEntry.ofRecords?_append _ _ (hfilter ▸ fit name)]
    · rw [if_neg hname, ih, List.filter_append, List.filter_singleton, decide_eq_false hname,
        cond_false, List.append_nil]

/-- One more call overflows if and only if it does not fit with those before. -/
theorem overflows_ofRecords (fit : Fit records) (r : CallRecord) :
    (ofRecords records).overflows r.name r.elapsed = true ↔ ¬ Fit (records ++ [r]) := by
  have hfilter (name : String) : (records ++ [r]).filter (fun r => r.name = name) =
      records.filter (fun r => r.name = name) ++ if r.name = name then [r] else [] := by
    rw [List.filter_append, List.filter_singleton]
    split
    · next hname => rw [decide_eq_true hname, cond_true]
    · next hname => rw [decide_eq_false hname, cond_false]
  rw [overflows, get?_ofRecords fit, ProfileEntry.overflows_ofRecords?, ← Nat.not_lt, not_iff_not]
  constructor
  · intro hlt name
    rw [hfilter]
    split
    · next hname => exact hname ▸ hlt
    · rw [List.append_nil]
      exact fit name
  · intro hfit
    have hname := hfit r.name
    rwa [hfilter, if_pos rfl] at hname

/-- A name has no entry if and only if no call of that name was recorded. -/
theorem get?_ofRecords_eq_none (fit : Fit records) {name : String} :
    (ofRecords records).get? name = none ↔ (records.countP fun r => r.name = name) = 0 := by
  rw [get?_ofRecords fit, ProfileEntry.ofRecords?, ← List.countP_eq_length_filter]
  split
  · next hzero => exact iff_of_true rfl hzero
  · next hnonzero => exact iff_of_false nofun hnonzero

/-- Otherwise its entry tells how many there were, and how many of them failed. -/
theorem of_get?_ofRecords (fit : Fit records) {name : String} {e : ProfileEntry}
    (h : (ofRecords records).get? name = some e) :
    e.calls = (records.countP fun r => r.name = name) ∧
      e.errors = (records.countP fun r => r.name = name && r.failed) ∧ e.errors ≤ e.calls := by
  rw [get?_ofRecords fit, ProfileEntry.ofRecords?] at h
  split at h
  · contradiction
  · cases h
    refine ⟨List.countP_eq_length_filter.symm, ?_, List.countP_le_length⟩
    rw [List.countP_filter]
    exact List.countP_congr fun r _ => by rw [Bool.and_comm]

/-- The order in which they were recorded does not matter. -/
theorem ofRecords_perm (fit : Fit records) (h : records.Perm records') :
    ofRecords records = ofRecords records' := by
  have ordered := ordered_ofRecords records
  refine congrArg Profile.mk (ordered.ext (ordered_ofRecords records') fun name => ?_)
  show (ofRecords records).get? name = (ofRecords records').get? name
  rw [get?_ofRecords fit, get?_ofRecords (fit.perm h), ProfileEntry.ofRecords?_perm (h.filter _)]

end Profile

end Orchestra
