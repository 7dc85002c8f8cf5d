import NanScript.Machine.Record

/-!
# Threads of a running program

A thread runs a function on one argument. Here it runs to its end as soon as it is started: what the threads of a
program compute does not depend on when they run, only the order of what they do to a shared list does.
-/

namespace NanScript

inductive Routine where
  | identity
  | double
  | wrap
  | object
  | sum
  | churn
  | collect
  | pushAll (count : Nat)
  deriving DecidableEq, Repr, Inhabited

namespace Run

def times (count : Nat) (action : Nat → Run Unit) : Run Unit := (List.range count).forM action

def routine (argument : Value) : Routine → Run Value
  | .identity => return argument
  | .double => add argument argument
  | .wrap => do
    let list ← listNew
    listPush list argument
    return list
  | .object => do
    let object ← objectNew
    let _ ← objectSet object (some (← internText (Text.utf8 "v"))) argument
    return object
  | .sum => do (← listItems argument).foldlM add (Value.ofInt 0)
  | .churn => do
    times 64 fun _ => do let _ ← allocate 64
    return argument
  | .collect => do
    times 3 fun _ => do let _ ← collect
    return argument
  | .pushAll count => do
    times count fun number => listPush argument (Value.ofInt number)
    return .null

/-- The thread of the system that runs a thread. -/
def runner (handle : Int32) : Nat := handle.toUInt32.toNat

/-- Start a thread. It is registered while it runs, and its result is in the table before it is not. -/
def spawn (work : Routine) (argument : Value) : Run Int32 := do
  let handle ← modifyGet fun machine =>
    let (handle, threads) := machine.threads.enter argument
    (handle, { machine with
      threads := threads.started handle
      registry := machine.registry.register (runner handle) 0 })
  let result ← routine argument work
  modify fun machine =>
    { machine with
      threads := machine.threads.returned handle result
      registry := machine.registry.unregister (runner handle) }
  return handle

/-- Wait for a thread. Its result is given once; a handle that is unknown or used up gives null. -/
def join (handle : Int32) : Run Value :=
  modifyGet fun machine =>
    let (claimed, threads) := machine.threads.claim handle
    if claimed then
      let (result, threads) := threads.take handle
      (result.getD .null, { machine with threads })
    else (.null, { machine with threads })

def joinValue (handle : Value) : Run Value :=
  match handle.int? with
  | some number => join number
  | none => return .null

def collectParked (handles : List Int32) : Run Bool := do
  let ids := handles.map runner
  modify fun machine =>
    { machine with registry := ids.foldl (fun registry id => registry.register id 0) machine.registry }
  let stopped ← modifyGet fun machine =>
    let (begun, registry) := machine.registry.beginCollection
    let registry := ids.foldl (fun registry id => (registry.park id { stackTop := 0 }).2) registry
    (begun && registry.worldStopped 0, { machine with registry })
  let _ ← collect
  modifyGet fun machine =>
    let released := ids.foldlM (fun registry _ => registry.resume?) machine.registry.endCollection
    let registry := ids.foldl Registry.unregister (released.getD machine.registry)
    (stopped && released.isSome, { machine with registry })

end Run

end NanScript
