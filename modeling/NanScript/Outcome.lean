/-!
# How a process ends

What is left of a process: its exit code and what it wrote.
-/

namespace NanScript

structure Outcome where
  exitCode : Nat := 0
  stdout : String := ""
  stderr : String := ""
  deriving DecidableEq, Repr, Inhabited

end NanScript
