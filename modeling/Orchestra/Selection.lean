import Orchestra.State

/-!
# Selecting by a key

A key gives each state a double, and lower is better in the total order on words, so every input
has a defined position. Ties keep the earliest candidate, both when a list is searched and when
candidates are offered one by one to a tracker.
-/

namespace Orchestra

/-- A comparison key over states. -/
abbrev Key := State → Double

/-- The earlier-in-order of two words, the first one on a tie. -/
def Double.least (x y : Double) : Double :=
  if y.below x then y else x

/-- The earliest in order of some words, if there are any. -/
def Double.leastOf? : List Double → Option Double
  | [] => none
  | x :: rest => some (rest.foldl Double.least x)

/-- The key of data of any shape: the least over the states held, infinite if there is none. -/
def Data.key (key : Key) (d : Data) : Double :=
  (Double.leastOf? (d.states.map key)).getD .infinity

/-- The better of the best position so far and the candidate at the given position. -/
def betterPosition (key : Key) (best : Option (Nat × Double)) (position : Nat) (s : State) :
    Option (Nat × Double) :=
  match best with
  | some (held, least) =>
    if (key s).below least then some (position, key s) else some (held, least)
  | none => some (position, key s)

/-- The best position among the candidates from `position` on and the best one before them. -/
def bestPosition (key : Key) : Nat → Option (Nat × Double) → List State → Option (Nat × Double)
  | _, best, [] => best
  | position, best, s :: rest =>
    bestPosition key (position + 1) (betterPosition key best position s) rest

/-- The position of the candidate with the least key, the earliest of several. -/
def argmin (key : Key) (candidates : List State) : Except RunError Nat :=
  match bestPosition key 0 none candidates with
  | some (position, _) => .ok position
  | none => .error (.emptyInput "ArgMin")

/-- The candidate with the least key. -/
def selectLeast (key : Key) (candidates : List State) : Except RunError State :=
  match argmin key candidates with
  | .error e => .error e
  | .ok position =>
    match candidates[position]? with
    | some s => .ok s
    | none => .error (.emptyInput "ArgMin")

/-- The best value among those offered so far, with the positions of the offers that replaced it. -/
structure Tracker (α : Type) where
  best : Option (Double × α)
  observed : Nat
  updates : List Nat
deriving Repr, Inhabited

namespace Tracker

variable {α : Type}

/-- A tracker to which nothing was offered. -/
def empty : Tracker α := ⟨none, 0, []⟩

/-- Whether a key is strictly better than the held one. -/
def improves (t : Tracker α) (key : Double) : Bool :=
  match t.best with
  | none => true
  | some (held, _) => key.below held

/-- Offers a candidate, which replaces the best only on strict improvement. -/
def offer (t : Tracker α) (key : Double) (candidate : α) : Tracker α :=
  if t.improves key then
    ⟨some (key, candidate), t.observed + 1, t.updates ++ [t.observed]⟩
  else { t with observed := t.observed + 1 }

/-- The held value. -/
def value? (t : Tracker α) : Option α :=
  t.best.map Prod.snd

/-- The key of the held value. -/
def key? (t : Tracker α) : Option Double :=
  t.best.map Prod.fst

end Tracker

end Orchestra
