/-!
# Errors of a run

The causes for which a runnable, a fan-out or a reader gives no result, with the text shown for
each. Only a cancellation acknowledges a stop; structural errors are not worth a retry. A panic is
reported by the text that it carries, if it carries one.
-/

namespace Orchestra

/-- What a panic carries: a text, borrowed or owned, or something that is no text. -/
inductive Payload where
  | slice (text : String)
  | owned (text : String)
  | other
deriving DecidableEq, Repr

/-- The text by which a panic is reported. -/
def Payload.text : Payload → String
  | slice text => text
  | owned text => text
  | other => "non-string panic payload"

instance : Coe String Payload := ⟨.owned⟩

instance : Coe Payload String := ⟨Payload.text⟩

/-- Why there is no result. -/
inductive RunError where
  | runnable (name message : String)
  | other (root : String) (contexts : List String)
  | emptyInput (operation : String)
  | invalidInput (runnable reason : String)
  | cancelled
  | timeout (operation : String) (ms : Nat)
  | allFailed (count : Nat) (first : RunError)
  | panicked (runnable message : String)
  | config (message : String)
deriving DecidableEq, Repr, Inhabited

namespace RunError

/-- The text shown for an error. Of an error with contexts the last one is shown. -/
def message : RunError → String
  | runnable name text => "runnable " ++ name ++ " failed: " ++ text
  | other root contexts => contexts.getLast?.getD root
  | emptyInput operation => operation ++ " requires at least one input state"
  | invalidInput name reason => "invalid input for " ++ name ++ ": " ++ reason
  | cancelled => "operation cancelled"
  | timeout operation ms => operation ++ " timed out after " ++ toString ms ++ "ms"
  | allFailed count first =>
    "all " ++ toString count ++ " branches failed, first failure: " ++ first.message
  | panicked name text => "runnable " ++ name ++ " panicked: " ++ text
  | config text => "configuration error: " ++ text

/-- Whether the error acknowledges a stop. -/
def isCancelled : RunError → Bool
  | cancelled => true
  | _ => false

/-- Whether another try may succeed. -/
def isRetryable : RunError → Bool
  | runnable .. | other .. | timeout .. | panicked .. => true
  | allFailed _ first => first.isRetryable
  | emptyInput _ | invalidInput .. | cancelled | config _ => false

end RunError

end Orchestra
