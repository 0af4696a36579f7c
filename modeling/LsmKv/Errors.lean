import Mathlib.Tactic.Common

/-!
# Error names

The stable error codes and the exception type of `errors.hpp`. Messages leave out the path
of the file they are about.
-/

namespace LsmKv

inductive ErrorCode where
  | invalidArgument | storeClosed | ioFailure | corruptionDetected | notImplemented | backpressure
  deriving DecidableEq, Repr

structure Error where
  code : ErrorCode
  message : String
  deriving DecidableEq, Repr

end LsmKv
