import Orchestra.Proofs.Json.Values
import Orchestra.Records

/-!
# Written sample sets

A sample set is written as an array of objects, and a reader that reads doubles exactly gives back every
sample as it was if its energy is a real number. An energy that is none is written as `null`, where no reader
of energies finds a number.
Metadata are written at any depth, but a reader refuses containers beyond its nesting limit, two of which are
taken by the set and the sample around them.
-/

namespace Orchestra

open Json Json.Document

/-! ### Lists and words -/

/-- Items that are read on a condition make a list that is read on the condition that all of them are. -/
theorem mapM_of_forall₂ {α β : Type} {read : α → Option β} {good : β → Prop} [DecidablePred good]
    {as : List α} {bs : List β}
    (items : List.Forall₂ (fun a b => read a = if good b then some b else none) as bs) :
    as.mapM read = if ∀ b ∈ bs, good b then some bs else none := by
  induction items with
  | nil => rfl
  | @cons a b as bs item items ih =>
    rw [List.mapM_cons, item, ih]
    by_cases hb : good b
    · by_cases hbs : ∀ b ∈ bs, good b
      · rw [if_pos hb, if_pos hbs, if_pos (List.forall_mem_cons.mpr ⟨hb, hbs⟩)]
        rfl
      · rw [if_pos hb, if_neg hbs, if_neg fun h => hbs (List.forall_mem_cons.mp h).2]
        rfl
    · rw [if_neg hb, if_neg fun h => hb (List.forall_mem_cons.mp h).1]
      rfl

theorem signed?_intLiteral {n : ℤ} (h : fitsSigned n = true) :
    signed? (.number (intLiteral n)) = some n := by
  simp only [signed?, int?_intLiteral (.inl h), h, if_true]

theorem word?_intLiteral {n : ℤ} (h : fitsUnsigned n = true) :
    word? (.number (intLiteral n)) = some n.toNat := by
  simp only [word?, int?_intLiteral (.inr h), h, if_true]

/-- An unsigned word is read back. -/
theorem exists_word {n : ℕ} (h : fitsUnsigned n = true) :
    ∃ d, Parses (toString n).toList d ∧ word? d = some n :=
  ⟨.number (intLiteral n), parses_int n, word?_intLiteral h⟩

/-- A list of signed words is read back. -/
theorem exists_words {values : List ℤ} (h : ∀ n ∈ values, fitsSigned n = true) :
    ∃ d, Parses (arrayText (values.map Decimal.intText)).toList d ∧
      ∀ inside < nestingLimit, list? inside signed? d = some values := by
  refine ⟨.array (values.map fun n => .number (intLiteral n)), parses_arrayText ?_, fun inside hinside => ?_⟩
  · rw [List.forall₂_map_left_iff, List.forall₂_map_right_iff]
    exact List.forall₂_same.mpr fun n _ => parses_int n
  · have hread : List.Forall₂ (fun d n => signed? d = if fitsSigned n = true then some n else none)
        (values.map fun n => .number (intLiteral n)) values := by
      rw [List.forall₂_map_left_iff]
      exact List.forall₂_same.mpr fun n hn => by rw [signed?_intLiteral (h n hn), if_pos (h n hn)]
    rw [list?, if_pos hinside, mapM_of_forall₂ hread, if_pos h]

theorem Info.eq_empty_of_isEmpty {info : Info} (h : info.isEmpty = true) : info = .empty := by
  obtain ⟨entries⟩ := info
  rw [Info.isEmpty, List.isEmpty_iff] at h
  exact congrArg Info.mk h

namespace Sample

variable {s : Sample} {inside : ℕ}

/-- A sample as it is stored: its values are signed words, its count is an unsigned one, and its metadata are
as they are stored. -/
structure WellFormed (s : Sample) : Prop where
  values : ∀ n ∈ s.values, fitsSigned n = true
  occurrences : fitsUnsigned s.occurrences = true
  metadata : s.metadata.WellFormed

theorem wellFormed_observed {values : List ℤ} (hvalues : ∀ n ∈ values, fitsSigned n = true)
    (energy : Double) : (observed values energy).WellFormed :=
  ⟨hvalues, (by decide : fitsUnsigned (1 : ℕ) = true), Info.Lawful.empty.wellFormed⟩

/-- The members of a written sample. -/
def members (values energy occurrences : Document) (metadata : Option Document) :
    List (Content × Document) :=
  [(some "values", values), (some "energy", energy), (some "num_occurrences", occurrences)] ++
    (metadata.map fun d => (some "metadata", d)).toList

/-- They are the fields of a sample. -/
theorem fields?_members (values energy occurrences : Document) (metadata : Option Document)
    (hinside : inside < nestingLimit) :
    fields? inside ["values", "energy", "num_occurrences", "metadata"]
      (.object (members values energy occurrences metadata)) =
        some [some values, some energy, some occurrences, metadata] := by
  rw [fields?, if_pos hinside]
  cases metadata <;> rfl

/-- A written sample is an object with these members. -/
theorem parses_members {values energy occurrences : Document} {metadata : Option Document}
    (hvalues : Parses (arrayText (s.values.map Decimal.intText)).toList values)
    (henergy : Parses (doubleText s.energy).toList energy)
    (hoccurrences : Parses (toString s.occurrences).toList occurrences)
    (hmetadata : List.Forall₂ (fun e m => m.1 = some e.1 ∧ Parses e.2.toList m.2)
      (if s.metadata.isEmpty then [] else [("metadata", s.metadata.text)])
      (metadata.map fun d => (some "metadata", d)).toList) :
    Parses s.text.toList (.object (members values energy occurrences metadata)) :=
  parses_objectText (.cons ⟨rfl, hvalues⟩ (.cons ⟨rfl, henergy⟩ (.cons ⟨rfl, hoccurrences⟩ hmetadata)))

end Sample

namespace SampleSet

/-- A sample set whose samples are as they are stored. -/
structure Lawful extends SampleSet where
  wellFormed : ∀ s ∈ toList, s.WellFormed

namespace Lawful

/-- The set without samples. -/
def empty : Lawful :=
  ⟨.empty, List.forall_mem_nil _⟩

/-- Appends a sample. -/
def push (set : Lawful) (s : {s : Sample // s.WellFormed}) : Lawful :=
  ⟨set.toSampleSet.push s, List.forall_mem_append.mpr ⟨set.wellFormed, List.forall_mem_singleton.mpr s.2⟩⟩

/-- Concatenates sets in order. -/
def concat (sets : List Lawful) : Lawful where
  toSampleSet := .concat (sets.map toSampleSet)
  wellFormed s hs := by
    obtain ⟨set, hset, hs⟩ := List.mem_flatMap.mp hs
    obtain ⟨set, -, rfl⟩ := List.mem_map.mp hset
    exact set.wellFormed s hs

end Lawful

end SampleSet

/-- What is no member is no field. -/
theorem getElem?_of_fillFields {names : List String} {members : List (Content × Document)}
    {fields filled : List (Option Document)} {i : ℕ} (h : fillFields names members fields = some filled)
    (habsent : ∀ m ∈ members, m.1 ≠ names[i]?) : filled[i]? = fields[i]? := by
  induction members generalizing fields with
  | nil => rw [Option.some.inj h]
  | cons m members ih =>
    obtain ⟨key, d⟩ := m
    obtain ⟨hkey, hmembers⟩ := List.forall_mem_cons.mp habsent
    cases key with
    | none => contradiction
    | some k =>
      rw [fillFields] at h
      split at h
      · exact ih h hmembers
      · next j hj =>
        obtain ⟨hlt, hname, -⟩ := List.findIdx?_eq_some_iff_getElem.mp hj
        have hne : j ≠ i := by
          rintro rfl
          rw [List.getElem?_eq_getElem hlt, eq_of_beq hname] at hkey
          exact hkey rfl
        split at h
        · rw [ih h hmembers, List.getElem?_set_ne hne]
        · contradiction

/-! ### Readers -/

section FloatReader

variable [reader : FloatReader]

/-- A double is read back if it is a real number. -/
theorem exists_double (exact : reader.Exact) (x : Double) : ∃ d, Parses (doubleText x).toList d ∧
    real? d = if x.isFinite then some x else none := by
  by_cases h : x.isFinite = true
  · obtain ⟨l, hparses, hl⟩ := exists_real exact h
    refine ⟨.number l, hparses, ?_⟩
    rw [real?, hl, if_pos h]
    rfl
  · rw [doubleText, if_neg h, if_neg h]
    exact ⟨.null, parses_null, rfl⟩

/-- Metadata are read back unless they are nested too deep. -/
theorem Info.exists_document (exact : reader.Exact) {info : Info} (h : info.WellFormed) :
    ∃ d, Parses info.text.toList d ∧ ∀ inside ≤ nestingLimit, Info.ofDocument? inside d =
      if inside + info.toJson.depth ≤ nestingLimit then some info else none := by
  obtain ⟨d, hparses, hdenotes⟩ := Json.exists_document exact h
  refine ⟨d, hparses, fun inside hinside => ?_⟩
  rw [Info.ofDocument?, hdenotes inside hinside]
  by_cases hdepth : inside + info.toJson.depth ≤ nestingLimit
  · rw [if_pos hdepth, if_pos hdepth]
    rfl
  · rw [if_neg hdepth, if_neg hdepth]

namespace Sample

variable {s : Sample}

/-- Metadata are left out if there are none. -/
theorem exists_metadata (exact : reader.Exact) (h : s.metadata.WellFormed) :
    ∃ metadata : Option Document,
    List.Forall₂ (fun e m => m.1 = some e.1 ∧ Parses e.2.toList m.2)
      (if s.metadata.isEmpty then [] else [("metadata", s.metadata.text)])
      (metadata.map fun d => (some "metadata", d)).toList ∧
    ∀ inside < nestingLimit, optional (Info.ofDocument? inside) .empty metadata =
      if inside + s.metadata.toJson.depth ≤ nestingLimit then some s.metadata else none := by
  by_cases hempty : s.metadata.isEmpty = true
  · refine ⟨none, ?_, fun inside hinside => ?_⟩
    · rw [if_pos hempty]
      exact .nil
    · rw [Info.eq_empty_of_isEmpty hempty]
      exact (if_pos hinside).symm
  · obtain ⟨d, hparses, hread⟩ := Info.exists_document exact h
    refine ⟨some d, ?_, fun inside hinside => hread inside hinside.le⟩
    rw [if_neg hempty]
    exact .cons ⟨rfl, hparses⟩ .nil

/-- A sample is read back if its energy is a real number and its metadata are not nested too deep. -/
theorem exists_document (exact : reader.Exact) (h : s.WellFormed) : ∃ d, Parses s.text.toList d ∧
    ∀ inside, inside + 1 < nestingLimit → ofDocument? inside d =
      if s.energy.isFinite = true ∧ inside + 1 + s.metadata.toJson.depth ≤ nestingLimit then some s
      else none := by
  obtain ⟨values, hvalues, readValues⟩ := exists_words h.values
  obtain ⟨energy, henergy, readEnergy⟩ := exists_double exact s.energy
  obtain ⟨occurrences, hoccurrences, readOccurrences⟩ := exists_word h.occurrences
  obtain ⟨metadata, hmetadata, readMetadata⟩ := exists_metadata exact h.metadata
  refine ⟨_, parses_members hvalues henergy hoccurrences hmetadata, fun inside hinside => ?_⟩
  rw [ofDocument?, fields?_members _ _ _ _ (by omega)]
  simp only [required, readValues (inside + 1) hinside, readEnergy, readOccurrences,
    readMetadata (inside + 1) hinside, Option.bind_eq_bind, Option.bind_some]
  by_cases hfinite : s.energy.isFinite = true <;>
    by_cases hdepth : inside + 1 + s.metadata.toJson.depth ≤ nestingLimit <;> simp [hfinite, hdepth]

/-- Without a member for them the metadata are empty. -/
theorem metadata_of_absent {inside : ℕ} {members : List (Content × Document)}
    (h : ofDocument? inside (.object members) = some s) (habsent : ∀ m ∈ members, m.1 ≠ some "metadata") :
    s.metadata = .empty := by
  obtain ⟨fields, hfields, h⟩ := Option.bind_eq_some_iff.mp h
  rw [fields?] at hfields
  split at hfields
  · have hmetadata := getElem?_of_fillFields (i := 3) hfields habsent
    split at h
    · next values energy occurrences metadata =>
      obtain rfl : metadata = none := Option.some.inj hmetadata
      obtain ⟨_, -, h⟩ := Option.bind_eq_some_iff.mp h
      obtain ⟨_, -, h⟩ := Option.bind_eq_some_iff.mp h
      obtain ⟨_, -, h⟩ := Option.bind_eq_some_iff.mp h
      obtain ⟨_, hempty, h⟩ := Option.bind_eq_some_iff.mp h
      rw [← Option.some.inj h]
      exact (Option.some.inj hempty).symm
    · contradiction
  · contradiction

end Sample

namespace SampleSet

/-- A sample set is read back if all energies are real numbers and no metadata are nested too deep inside the
two containers around them. -/
theorem Lawful.readText?_text (exact : reader.Exact) (set : Lawful) :
    (Document.ofText? set.text).isSome = true ∧ readText? ofDocument? set.text =
      if ∀ s ∈ set.toList, s.energy.isFinite = true ∧ 2 + s.metadata.toJson.depth ≤ nestingLimit
        then some set.toSampleSet else none := by
  obtain ⟨ds, hds⟩ := exists_forall₂ fun s hs => Sample.exists_document exact (set.wellFormed s hs)
  have hparses : Parses set.text.toList (.array ds) :=
    parses_arrayText (List.forall₂_map_left_iff.mpr (hds.imp fun _ _ h => h.1))
  have hread : List.Forall₂ (fun d (s : Sample) => Sample.ofDocument? 1 d =
      if s.energy.isFinite = true ∧ 2 + s.metadata.toJson.depth ≤ nestingLimit then some s else none)
      ds set.toList := hds.flip.imp fun _ _ h => h.2 1 (by decide)
  rw [readText?, Document.ofText?_of_parses hparses, Option.bind_some, ofDocument?, list?, if_pos (by decide),
    mapM_of_forall₂ hread]
  exact ⟨rfl, by split <;> rfl⟩

end SampleSet

end FloatReader

/-- For every reader of doubles that is exact, and every sample set whose values are signed words, whose
counts are unsigned ones and whose metadata are as they are stored. Its text is a JSON document. Reading this
text gives the set back if and only if every energy is a real number and no metadata are nested deeper than
125 containers, their own object being one of them; all other sets are refused. Metadata that are empty are
left out of the text of their sample, and a sample is read with empty metadata where they are left out. -/
theorem written_sets_are_read_back [reader : FloatReader] (exact : reader.Exact) (set : SampleSet.Lawful) :
    let read := readText? SampleSet.ofDocument? set.text
    let readable (s : Sample) : Prop := s.energy.isFinite = true ∧ s.metadata.toJson.depth ≤ 125
    (Document.ofText? set.text).isSome = true ∧
    (read = some set.toSampleSet ↔ ∀ s ∈ set.toList, readable s) ∧
    ((∃ s ∈ set.toList, ¬ readable s) → read = none) ∧
    (∀ s ∈ set.toList, s.metadata.isEmpty = true → s.text = objectText
      [("values", arrayText (s.values.map Decimal.intText)), ("energy", doubleText s.energy),
        ("num_occurrences", toString s.occurrences)]) ∧
    (∀ inside members s, (∀ m ∈ members, m.1 ≠ some "metadata") →
      Sample.ofDocument? inside (.object members) = some s → s.metadata = .empty) := by
  intro read readable
  obtain ⟨hdocument, hread⟩ := set.readText?_text exact
  have hlimit : (∀ s ∈ set.toList, s.energy.isFinite = true ∧ 2 + s.metadata.toJson.depth ≤ nestingLimit) ↔
      ∀ s ∈ set.toList, readable s := by
    refine forall₂_congr fun s _ => and_congr_right fun _ => ?_
    change 2 + s.metadata.toJson.depth ≤ 127 ↔ _
    omega
  refine ⟨hdocument, ?_, ?_, fun s _ hempty => ?_, fun inside members s habsent hs => ?_⟩
  · rw [← hlimit]
    change readText? _ _ = _ ↔ _
    rw [hread]
    simp
  · rintro ⟨s, hs, hbad⟩
    exact hread.trans (if_neg fun hall => hbad (hlimit.mp hall s hs))
  · rw [Sample.text, if_pos hempty]
    rfl
  · exact Sample.metadata_of_absent hs habsent

theorem written_sets_are_read_back_of_two :
    let reader : FloatReader := .nearest
    let note : Sample := ⟨[-3, 7], ⟨0xbff8000000000000⟩, 2, ⟨[("note", .str "a \"b\"")]⟩⟩
    let set : SampleSet := ⟨[note, Sample.observed [1] .zero]⟩
    let unread := set.push (Sample.observed [] .infinity)
    reader.Exact ∧ (∀ s ∈ unread.toList, s.WellFormed) ∧
      readText? SampleSet.ofDocument? set.text = some set ∧
      readText? SampleSet.ofDocument? unread.text = none := by
  intro reader note set unread
  have hnote : note.WellFormed :=
    ⟨by decide, by decide, .obj ⟨List.forall_mem_nil _, trivial⟩ (List.forall_mem_singleton.mpr (.str _))⟩
  let lawful : SampleSet.Lawful :=
    (SampleSet.Lawful.empty.push ⟨note, hnote⟩).push
      ⟨_, Sample.wellFormed_observed (List.forall_mem_singleton.mpr (by decide : fitsSigned 1 = true)) .zero⟩
  let lawfulUnread : SampleSet.Lawful :=
    lawful.push ⟨_, Sample.wellFormed_observed (List.forall_mem_nil _) .infinity⟩
  have exact : reader.Exact := FloatReader.nearest_exact
  refine ⟨exact, lawfulUnread.wellFormed, (written_sets_are_read_back exact lawful).2.1.mpr ?_,
    (written_sets_are_read_back exact lawfulUnread).2.2.1
      ⟨_, List.mem_append_right _ (List.mem_singleton_self _), ?_⟩⟩
  · show ∀ s ∈ set.toList, _
    simp only [set, List.forall_mem_cons]
    exact ⟨by decide, by decide, List.forall_mem_nil _⟩
  · exact fun h => absurd h.1 (by decide)

/-- Arrays within arrays. -/
def Json.nested : ℕ → Json
  | 0 => .arr []
  | n + 1 => .arr [nested n]

theorem Json.depth_nested (n : ℕ) : (nested n).depth = n + 1 := by
  induction n with
  | zero => rfl
  | succ n ih =>
    rw [nested, depth, itemsDepth, itemsDepth, ih]
    rfl

theorem Json.wellFormed_nested (n : ℕ) : (nested n).WellFormed := by
  induction n with
  | zero => exact .arr (List.forall_mem_nil _)
  | succ n ih => exact .arr (List.forall_mem_singleton.mpr ih)

/-- Metadata that are nested one container deeper are written and refused, though the energy is a real
number. -/
theorem deep_metadata_are_refused :
    let set : SampleSet := ⟨[⟨[], .zero, 1, ⟨[("k", Json.nested 124)]⟩⟩]⟩
    (∀ s ∈ set.toList, s.WellFormed ∧ s.energy.isFinite = true ∧ s.metadata.toJson.depth = 126) ∧
      readText? SampleSet.ofDocument? set.text = none := by
  intro set
  have hdepth : (Json.obj [("k", Json.nested 124)]).depth = 126 := by
    rw [depth, entriesDepth, entriesDepth, depth_nested]
    rfl
  have hset : ∀ s ∈ set.toList, s.WellFormed ∧ s.energy.isFinite = true ∧ s.metadata.toJson.depth = 126 := by
    refine List.forall_mem_singleton.mpr ⟨⟨List.forall_mem_nil _, ?_, ?_⟩, by decide, hdepth⟩
    · exact (by decide : fitsUnsigned (1 : ℕ) = true)
    · exact .obj ⟨List.forall_mem_nil _, trivial⟩ (List.forall_mem_singleton.mpr (wellFormed_nested 124))
  exact ⟨hset, Option.isNone_iff_eq_none.mp (by decide +kernel)⟩

end Orchestra
