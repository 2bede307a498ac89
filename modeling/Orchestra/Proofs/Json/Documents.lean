import Orchestra.Proofs.Json.Numbers
import Orchestra.Proofs.Json.Strings

/-!
# Written documents are read back

A text is a document if it is read as this one whatever follows that does not go on with a number. Texts and
numbers are such texts, and so is what is put together from such texts as arrays and objects are written. What
follows an item starts with a comma or a closing bracket, and both end a number.
-/

namespace Orchestra.Json

namespace Document

variable {c close : Char} {cs rest : List Char} {css : List (List Char)} {fuel : ℕ} {d : Document}
  {ds before : List Document} {l : Literal} {member : Content × Document}
  {members earlier : List (Content × Document)}

/-! ### Words -/

/-- A text is a document, whatever follows. Twice its length is enough to read it: an item and the comma or
bracket behind it take one step each. -/
structure Parses (cs : List Char) (d : Document) : Prop where
  first : ∃ c rest, cs = c :: rest ∧ isSpace c = false ∧ c ≠ ']'
  read : ∀ rest fuel, Ends rest → 2 * cs.length ≤ fuel → value? fuel (cs ++ rest) = some (d, rest)

theorem skipSpace_cons (h : isSpace c = false) : skipSpace (c :: cs) = c :: cs :=
  List.dropWhile_cons_of_neg (Bool.not_eq_true _ ▸ h)

/-- Something is left to read with. -/
theorem exists_fuel (hcs : cs ≠ []) (hfuel : 2 * cs.length ≤ fuel) : ∃ k, fuel = k + 1 :=
  Nat.exists_eq_add_one_of_ne_zero fun h =>
    hcs (List.length_eq_zero_iff.mp (by omega))

theorem parses_null : Parses "null".toList .null where
  first := ⟨_, _, rfl, by decide, by decide⟩
  read rest fuel _ hfuel := by
    obtain ⟨k, rfl⟩ := exists_fuel (by decide) hfuel
    rfl

theorem parses_bool (b : Bool) : Parses (text (Json.bool b)).toList (.bool b) where
  first := by cases b <;> exact ⟨_, _, rfl, by decide, by decide⟩
  read rest fuel _ hfuel := by
    cases b <;>
    · obtain ⟨k, rfl⟩ := exists_fuel (by decide) hfuel
      rfl

theorem parses_string (s : String) : Parses (stringText s).toList (.string (some s)) where
  first := ⟨_, _, toList_stringText s, by decide, by decide⟩
  read rest fuel _ hfuel := by
    obtain ⟨k, rfl⟩ := exists_fuel (by simp [toList_stringText]) hfuel
    have hstring : string? ((stringText s).toList ++ rest) = some (some s, rest) := string?_stringText s
    rw [toList_stringText] at hstring ⊢
    exact congrArg (Option.map fun p => (Document.string p.1, p.2)) hstring

theorem isSpace_of_isDigit (h : c.isDigit = true) : isSpace c = false := by
  by_contra hspace
  simp only [isSpace, Bool.not_eq_false, Bool.or_eq_true, decide_eq_true_eq] at hspace
  rcases hspace with ((rfl | rfl) | rfl) | rfl <;> contradiction

/-- What starts with a digit is a number. -/
theorem value?_of_isDigit (h : c.isDigit = true) : value? (fuel + 1) (c :: cs) =
    (unsigned? false (c :: cs)).map fun p => (.number p.1, p.2) := by
  rw [value?, skipSpace_cons (isSpace_of_isDigit h)]
  split
  all_goals first
    | rfl
    | (next heq => cases heq; contradiction)

/-- A literal is written with its sign. -/
theorem parses_number (spells : Spells cs l) :
    Parses (if l.negative then '-' :: cs else cs) (.number l) := by
  obtain ⟨c, digits, rfl, hc⟩ := spells.first
  have hread := spells.read
  cases hnegative : l.negative <;> rw [hnegative] at hread
  · refine ⟨⟨c, digits, rfl, isSpace_of_isDigit hc, ?_⟩, fun rest fuel hrest hfuel => ?_⟩
    · rintro rfl
      contradiction
    · obtain ⟨k, rfl⟩ := exists_fuel (List.cons_ne_nil _ _) hfuel
      refine (value?_of_isDigit hc).trans ?_
      exact congrArg (Option.map fun p => (Document.number p.1, p.2)) (hread rest hrest)
  · refine ⟨⟨'-', _, rfl, by decide, by decide⟩, fun rest fuel hrest hfuel => ?_⟩
    obtain ⟨k, rfl⟩ := exists_fuel (List.cons_ne_nil _ _) hfuel
    exact congrArg (Option.map fun p => (Document.number p.1, p.2)) (hread rest hrest)

/-! ### Arrays and objects -/

/-- What follows an item: a comma and the next item, or the closing bracket. -/
def closed (close : Char) : List (List Char) → List Char
  | [] => [close]
  | cs :: css => ',' :: (cs ++ closed close css)

theorem intercalate_closed (close : Char) (cs : List Char) (css : List (List Char)) :
    [','].intercalate (cs :: css) ++ [close] = cs ++ closed close css := by
  induction css generalizing cs with
  | nil => rw [List.intercalate_singleton, closed]
  | cons cs' css ih =>
    rw [List.intercalate_cons_cons, List.append_assoc, ih, closed, List.append_assoc]
    rfl

/-- A comma or a bracket does not go on with a number. -/
theorem ends_cons (h : c ∈ [',', ']', '\x7d']) (rest : List Char) : Ends (c :: rest) := by
  intro d hd
  obtain rfl : c = d := Option.some.inj hd
  simp only [List.mem_cons, List.not_mem_nil, or_false] at h
  rcases h with rfl | rfl | rfl <;> decide

/-- Items are read up to the bracket that closes their array. -/
theorem items?_closed (item : Parses cs d) (more : List.Forall₂ Parses css ds)
    (hfuel : 2 * (cs ++ closed ']' css).length ≤ fuel + 1) :
    items? fuel (cs ++ (closed ']' css ++ rest)) before = some (before.reverse ++ d :: ds, rest) := by
  -- along the items that follow; the comma before an item pays for the step to it
  induction more generalizing cs d fuel before with
  | nil =>
    rw [closed, List.length_append, List.length_singleton] at hfuel
    obtain ⟨k, rfl⟩ : ∃ k, fuel = k + 1 := Nat.exists_eq_add_one_of_ne_zero (by omega)
    rw [closed, List.singleton_append, items?, item.read _ k (ends_cons (by decide) _) (by omega)]
    exact congrArg (fun items => some (items, rest)) List.reverse_cons
  | @cons cs' d' css ds item' more ih =>
    rw [closed, List.length_append, List.length_cons] at hfuel
    obtain ⟨k, rfl⟩ : ∃ k, fuel = k + 1 := Nat.exists_eq_add_one_of_ne_zero (by omega)
    rw [closed, List.cons_append, items?, item.read _ k (ends_cons (by decide) _) (by omega)]
    change items? k (cs' ++ closed ']' css ++ rest) (d :: before) = _
    rw [List.append_assoc, ih item' (by omega), List.reverse_cons, List.append_assoc]
    rfl

/-- An array that starts with an item is read item by item. -/
theorem value?_items (hc : isSpace c = false) (hclose : c ≠ ']') : value? (fuel + 1) ('[' :: c :: cs) =
    (items? fuel (c :: cs) []).map fun p => (.array p.1, p.2) := by
  have hopen : skipSpace ('[' :: c :: cs) = '[' :: c :: cs := skipSpace_cons (by decide)
  simp only [value?, hopen, skipSpace_cons hc]
  split
  · next heq =>
    cases heq
    contradiction
  · rfl

/-- Documents are an array if they are separated by commas between brackets. -/
theorem parses_array (items : List.Forall₂ Parses css ds) :
    Parses ('[' :: ([','].intercalate css ++ [']'])) (.array ds) where
  first := ⟨_, _, rfl, by decide, by decide⟩
  read rest fuel _ hfuel := by
    obtain ⟨k, rfl⟩ := exists_fuel (List.cons_ne_nil _ _) hfuel
    cases items with
    | nil => rfl
    | @cons cs d css ds item more =>
      rw [intercalate_closed, List.length_cons] at hfuel
      rw [intercalate_closed, List.cons_append, List.append_assoc]
      have hitems : items? k (cs ++ (closed ']' css ++ rest)) [] = some (d :: ds, rest) :=
        items?_closed item more (by omega)
      obtain ⟨c, cs, rfl, hspace, hclose⟩ := item.first
      refine (value?_items hspace hclose).trans ?_
      exact congrArg (Option.map fun p => (Document.array p.1, p.2)) hitems

/-- A key and a value with a colon between them. -/
inductive Member : List Char → Content × Document → Prop
  | intro (key : String) {cs : List Char} {d : Document} (value : Parses cs d) :
    Member ((stringText key).toList ++ ':' :: cs) (some key, d)

/-- A key is read, then the value behind the colon, and then what follows it: the last brace, or a comma
before the next member. -/
theorem members?_succ (key : String) (value : Parses cs d) (hfuel : 2 * cs.length ≤ fuel) :
    members? (fuel + 1) ((stringText key).toList ++ ':' :: cs ++ ('\x7d' :: rest)) earlier =
        some (((some key, d) :: earlier).reverse, rest) ∧
      members? (fuel + 1) ((stringText key).toList ++ ':' :: cs ++ (',' :: rest)) earlier =
        members? fuel rest ((some key, d) :: earlier) := by
  have hspace (after : List Char) : skipSpace ((stringText key).toList ++ ':' :: cs ++ after) =
      (stringText key).toList ++ (':' :: (cs ++ after)) := by
    rw [toList_stringText, List.append_assoc]
    exact skipSpace_cons (by decide)
  have hcolon (after : List Char) : skipSpace (':' :: after) = ':' :: after := skipSpace_cons (by decide)
  have hbrace : skipSpace ('\x7d' :: rest) = '\x7d' :: rest := skipSpace_cons (by decide)
  have hcomma : skipSpace (',' :: rest) = ',' :: rest := skipSpace_cons (by decide)
  have hlast := value.read ('\x7d' :: rest) fuel (ends_cons (by decide) rest) hfuel
  have hmore := value.read (',' :: rest) fuel (ends_cons (by decide) rest) hfuel
  constructor
  · simp only [members?, hspace, string?_stringText, hcolon, hlast, hbrace]
  · simp only [members?, hspace, string?_stringText, hcolon, hmore, hcomma]

/-- Members are read up to the brace that closes their object. -/
theorem members?_closed (item : Member cs member) (more : List.Forall₂ Member css members)
    (hfuel : 2 * (cs ++ closed '\x7d' css).length ≤ fuel + 1) :
    members? fuel (cs ++ (closed '\x7d' css ++ rest)) earlier =
      some (earlier.reverse ++ member :: members, rest) := by
  induction more generalizing cs member fuel earlier with
  | nil =>
    obtain @⟨key, cs, d, value⟩ := item
    rw [closed, List.length_append, List.length_append, List.length_cons, List.length_singleton] at hfuel
    obtain ⟨k, rfl⟩ : ∃ k, fuel = k + 1 := Nat.exists_eq_add_one_of_ne_zero (by omega)
    rw [closed, List.singleton_append, (members?_succ key value (by omega)).1]
    exact congrArg (fun members => some (members, rest)) List.reverse_cons
  | @cons cs' member' css members item' more ih =>
    obtain @⟨key, cs, d, value⟩ := item
    rw [closed, List.length_append, List.length_append, List.length_cons, List.length_cons] at hfuel
    obtain ⟨k, rfl⟩ : ∃ k, fuel = k + 1 := Nat.exists_eq_add_one_of_ne_zero (by omega)
    rw [closed, List.cons_append, (members?_succ key value (by omega)).2, List.append_assoc,
      ih item' (by omega), List.reverse_cons, List.append_assoc]
    rfl

/-- Members are an object if they are separated by commas between braces. -/
theorem parses_object (items : List.Forall₂ Member css members) :
    Parses ('\x7b' :: ([','].intercalate css ++ ['\x7d'])) (.object members) where
  first := ⟨_, _, rfl, by decide, by decide⟩
  read rest fuel _ hfuel := by
    obtain ⟨k, rfl⟩ := exists_fuel (List.cons_ne_nil _ _) hfuel
    cases items with
    | nil => rfl
    | @cons cs member css members item more =>
      rw [intercalate_closed, List.length_cons] at hfuel
      rw [intercalate_closed, List.cons_append, List.append_assoc]
      have hmembers : members? k (cs ++ (closed '\x7d' css ++ rest)) [] = some (member :: members, rest) :=
        members?_closed item more (by omega)
      obtain @⟨key, cs, d, value⟩ := item
      rw [toList_stringText] at hmembers ⊢
      exact congrArg (Option.map fun p => (Document.object p.1, p.2)) hmembers

end Document

open Document

/-! ### Their texts -/

/-- A whole text is the document that it is whatever follows. -/
theorem Document.ofText?_of_parses {text : String} {d : Document} (h : Parses text.toList d) :
    ofText? text = some d := by
  have hread := h.read [] (2 * text.toList.length + 2) nofun (by omega)
  rw [List.append_nil] at hread
  unfold ofText?
  dsimp only
  rw [hread]
  rfl

variable {texts : List String} {ds : List Document} {entries : List (String × String)}
  {members : List (Content × Document)}

/-- A written array is read as the array of what its items are read as. -/
theorem parses_arrayText (items : List.Forall₂ (fun t d => Parses t.toList d) texts ds) :
    Parses (arrayText texts).toList (.array ds) := by
  have hparses := parses_array (List.forall₂_map_left_iff.mpr items)
  rw [arrayText, String.toList_append, String.toList_append, String.toList_intercalate]
  exact hparses

/-- A written object is read as the object of its keys with what their values are read as. -/
theorem parses_objectText
    (items : List.Forall₂ (fun e m => m.1 = some e.1 ∧ Parses e.2.toList m.2) entries members) :
    Parses (objectText entries).toList (.object members) := by
  have hitems : List.Forall₂ Member
      ((entries.map fun e => stringText e.1 ++ ":" ++ e.2).map String.toList) members := by
    rw [List.map_map, List.forall₂_map_left_iff]
    refine items.imp ?_
    rintro ⟨k, v⟩ ⟨key, d⟩ ⟨rfl, hparses⟩
    change Member (stringText k ++ ":" ++ v).toList _
    rw [String.toList_append, String.toList_append, List.append_assoc]
    exact .intro k hparses
  have hparses := parses_object hitems
  rw [objectText, String.toList_append, String.toList_append, String.toList_intercalate]
  exact hparses

end Orchestra.Json
