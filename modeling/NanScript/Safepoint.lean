/-!
# Safepoints

A collection may only run while no other thread touches the heap. Threads that run compiled code register. One that
wants to collect raises a flag and waits; the others look at the flag now and then, and park as long as it is up. A
parked thread leaves behind where its stack ends and what its registers hold, for the collection to look through.

Each operation here is one section under the registry's lock.
-/

namespace NanScript

structure Capture where
  stackTop : Nat
  registers : List UInt64 := []
  deriving DecidableEq, Repr, Inhabited

structure RegisteredThread where
  id : Nat
  stackBottom : Nat
  capture : Capture
  deriving DecidableEq, Repr, Inhabited

structure Registry where
  threads : List RegisteredThread := []
  stopped : Nat := 0
  collecting : Bool := false
  suspend : Bool := false
  deriving DecidableEq, Repr, Inhabited

namespace Registry

def isRegistered (registry : Registry) (id : Nat) : Bool := registry.threads.any (·.id == id)

def others (registry : Registry) (id : Nat) : Nat := registry.threads.countP (·.id != id)

/-- Register a thread, or move the bottom of the stack of a registered one. -/
def register (registry : Registry) (id stackBottom : Nat) : Registry :=
  if registry.isRegistered id then
    { registry with
      threads := registry.threads.map fun thread => if thread.id = id then { thread with stackBottom } else thread }
  else { registry with threads := registry.threads ++ [⟨id, stackBottom, { stackTop := stackBottom }⟩] }

def unregister (registry : Registry) (id : Nat) : Registry :=
  { registry with threads := registry.threads.filter (·.id != id) }

/-- Begin to park. The thread then waits, unless it is not registered or nobody asks for it. -/
def park (registry : Registry) (id : Nat) (capture : Capture) : Bool × Registry :=
  if registry.isRegistered id && registry.suspend then
    (true,
      { registry with
        threads := registry.threads.map fun thread => if thread.id = id then { thread with capture } else thread
        stopped := registry.stopped + 1 })
  else (false, registry)

/-- A parked thread goes on. It can do so only while the flag is down. -/
def resume? (registry : Registry) : Option Registry :=
  if registry.suspend then none else some { registry with stopped := registry.stopped - 1 }

def beginCollection (registry : Registry) : Bool × Registry :=
  if registry.collecting then (false, registry) else (true, { registry with collecting := true, suspend := true })

def worldStopped (registry : Registry) (collector : Nat) : Bool := registry.others collector ≤ registry.stopped

def endCollection (registry : Registry) : Registry := { registry with collecting := false, suspend := false }

end Registry

end NanScript
