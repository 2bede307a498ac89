import Orchestra.RunError

/-!
# About this library

The versions of its two layers, and the answer to a request for a log subscriber: the place for one
is taken for good once the library is in use.
-/

namespace Orchestra.About

/-- The version of the layer of data, settings and runs. -/
def coreVersion : String := "0.1.0"

/-- The version of the layer of composites. -/
def flowVersion : String := "0.1.0"

/-- The error of every further request for a log subscriber. -/
def subscriberTaken : RunError :=
  .config ("tracing already initialised: a global default trace dispatcher has already been set")

end Orchestra.About
