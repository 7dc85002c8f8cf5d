/-!
# Runtime errors

A running program cannot catch an error: the first one ends it.
-/

namespace NanScript

inductive RuntimeError where
  | indexOutOfBounds (index : Int) (length : Nat)
  | nonIntegerIndex
  | divisionByZero
  | getOnNull
  | setOnNull
  | notAList
  | outOfMemory (size : Nat)
  /-- A size that no word holds. -/
  | overflow
  | threadSpawn (reason : String)
  deriving DecidableEq, Repr, Inhabited

def RuntimeError.message : RuntimeError → String
  | indexOutOfBounds index length => s!"Index OOB (index {index}, length {length})"
  | nonIntegerIndex => "Index must be an integer."
  | divisionByZero => "Division by zero (mod)."
  | getOnNull => "Get on null object."
  | setOnNull => "Set on null object."
  | notAList => "List operation on a non-list value."
  | outOfMemory size => s!"Out of memory allocating {size} bytes."
  | overflow => "attempt to add with overflow"
  | threadSpawn reason => s!"Failed to spawn thread: {reason}"

end NanScript
