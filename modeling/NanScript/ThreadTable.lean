import NanScript.Value

/-!
# Threads and their results

A thread is known by a handle, a number of 32 bits. Handles are given out upward from one; behind the greatest number
comes the least. From its start until it is joined the table keeps the argument of a thread and, once it has returned,
its result; a collection takes both for roots. Of several that join one thread only the first has a claim to the
result.
-/

namespace NanScript

structure ThreadEntry where
  argument : Value
  result : Option Value := none
  claimable : Bool := false
  deriving DecidableEq, Repr, Inhabited

structure ThreadTable where
  next : Int32 := 1
  entries : List (Int32 × ThreadEntry) := []
  deriving DecidableEq, Repr, Inhabited

namespace ThreadTable

def get? (table : ThreadTable) (handle : Int32) : Option ThreadEntry := table.entries.lookup handle

def modify (table : ThreadTable) (handle : Int32) (change : ThreadEntry → ThreadEntry) : ThreadTable :=
  { table with
    entries := table.entries.map fun (other, entry) => (other, if other = handle then change entry else entry) }

/-- Make an entry under the next handle. An entry that is there already is replaced. -/
def enter (table : ThreadTable) (argument : Value) : Int32 × ThreadTable :=
  (table.next,
    { next := table.next + 1
      entries := table.entries.filter (·.1 != table.next) ++ [(table.next, { argument })] })

def started (table : ThreadTable) (handle : Int32) : ThreadTable := table.modify handle ({ · with claimable := true })

def returned (table : ThreadTable) (handle : Int32) (result : Value) : ThreadTable :=
  table.modify handle ({ · with result := some result })

/-- Claim a thread: the one who succeeds waits for it and takes its result. -/
def claim (table : ThreadTable) (handle : Int32) : Bool × ThreadTable :=
  match table.get? handle with
  | some entry => (entry.claimable, table.modify handle ({ · with claimable := false }))
  | none => (false, table)

def take (table : ThreadTable) (handle : Int32) : Option Value × ThreadTable :=
  ((table.get? handle).bind (·.result), { table with entries := table.entries.filter (·.1 != handle) })

def pinned (table : ThreadTable) : List Value :=
  table.entries.flatMap fun (_, entry) => entry.argument :: entry.result.toList

end ThreadTable

end NanScript
