import Orchestra.Session

/-!
# Trials

A trial is one run of one pipeline in a session of its own: as a task below the root context, which
may be stopped and waited for with a time limit, or directly in the task of the user.
-/

namespace Orchestra

/-- How a pipeline is run. -/
inductive TrialMode where
  /-- As a task below the root context. -/
  | task
  /-- Directly under the root context, unrecorded. -/
  | next
  /-- Directly under the root context, recorded. -/
  | execute
  /-- Directly, as a worker over a list of states. -/
  | mapStates
deriving DecidableEq, Repr

/-- A trial to carry out. -/
structure Trial where
  pipeline : Pipeline
  input : Data
  config : Config
  mode : TrialMode
  /-- Whether the root context is stopped before anything else. -/
  stopped : Bool
  /-- The instant at which the run is stopped; at zero that is before its first step. -/
  stopAt : Option Nat
  /-- How long to wait for the result, counted from the stop. -/
  timeout : Option Nat

namespace Trial

/-- Stops the run under a handle at an instant, once everything due by then has run. -/
def stopRun (s : Session) (h : Handle) (instant : Nat) : Session :=
  let s := if instant = 0 then s else s.advance instant
  s.stop h.token

/-- Runs a built pipeline as a task and waits for it. -/
def runTask (t : Trial) (r : Runnable) (ctx : Context) (s : Session) : Option Ending × Session :=
  let s := s.start ctx "run" r t.input none
  match s.handles.find? "run" with
  | none => (none, s)
  | some h =>
    let s := match t.stopAt with
      | some instant => stopRun s h instant
      | none => s
    s.result "run" h t.timeout

/-- The program of a direct run. -/
def direct (t : Trial) (r : Runnable) (ctx : Context) : Task :=
  match t.mode with
  | .task | .next => r.next ctx t.input
  | .execute => ctx.execute r t.input
  | .mapStates => (Map.ofWorker r).runnable.next ctx t.input

/-- Carries a trial out, in the session that it leaves behind, or fails to build its pipeline. -/
def carryOut (t : Trial) : Except RunError (Option Ending × Session) :=
  let s := Session.ofConfig t.config
  let s := if t.stopped then s.stop s.rootToken else s
  match s.build t.pipeline with
  | (.error e, _) => .error e
  | (.ok r, s) =>
    match s.contexts.get? 0 with
    | none => .ok (none, s)
    | some ctx =>
      if t.mode = .task then .ok (t.runTask r ctx s) else .ok (s.perform (t.direct r ctx))

end Trial

end Orchestra
