import Orchestra.Runnable

/-!
# Folding a list of states

A fold combines a list of states from left to right, with a function or with a runnable that takes
the pair as a list of two. It looks at a stop before each step and then gives up: a partial fold is
never returned.
-/

namespace Orchestra

/-- How two states are combined. -/
inductive Combiner where
  | function (f : State → State → Except RunError State)
  | runnable (r : Runnable)

/-- A fold, with the state to start from or none. -/
structure Reduce where
  combiner : Combiner
  initial : Option State

namespace Reduce

/-- Combines two states and goes on with the result. -/
def combine (r : Reduce) (ctx : Context) (held item : State) (next : State → Task) : Task :=
  match r.combiner with
  | .function f =>
    match f held item with
    | .ok s => next s
    | .error e => .fail e
  | .runnable body =>
    (ctx.execute body (.ofList [held, item])).andThenOk fun output =>
      match output.toState body.name with
      | .ok s => next s
      | .error e => .fail e

/-- Folds the rest of the list into the state held. -/
def fold (r : Reduce) (ctx : Context) : List State → State → Task
  | [], held => .succeed (.one held)
  | item :: rest, held =>
    .ask (.isStopped ctx.token) fun stopped =>
      if stopped then .fail .cancelled else r.combine ctx held item (fold r ctx rest)

/-- Folds a list, from the initial state or else from its first element. -/
def foldList (r : Reduce) (ctx : Context) (items : List State) : Task :=
  match r.initial, items with
  | some initial, _ => r.fold ctx items initial
  | none, first :: rest => r.fold ctx rest first
  | none, [] => .fail (.emptyInput "Reduce")

/-- The debug text shows how states are combined, and whether there is an initial state. -/
def debugText (r : Reduce) : String :=
  Text.debugRecord "Reduce"
    [("combiner", Text.quoted (match r.combiner with
      | .function _ => "fn"
      | .runnable body => body.name)),
     ("initial", Text.debugBool r.initial.isSome)]

/-- The fold as a runnable. -/
def runnable (r : Reduce) : Runnable :=
  ⟨"Reduce", fun _ => r.debugText, fun ctx input =>
    match input.toStates "Reduce" with
    | .ok states => r.foldList ctx states.items
    | .error e => .fail e⟩

end Reduce

end Orchestra
