import NanScript.Heap.Allocator
import NanScript.Heap.Collection
import NanScript.RuntimeError
import NanScript.Safepoint
import NanScript.ThreadTable

/-!
# The machine

What a running program works on: the heap, the texts that are part of the program, the words of its top-level
variables, its threads, and what it has printed. The top-level variables and what the thread table keeps are the roots
of every collection.

An operation may fail; what it did before stays done.
-/

namespace NanScript

structure Machine where
  heap : Heap := {}
  /-- The program's own texts, each closed by a zero byte. -/
  data : Array UInt8 := #[]
  globals : Array Value := #[]
  threads : ThreadTable := {}
  registry : Registry := {}
  printed : Array UInt8 := #[]
  /-- Where the blocks of the heap come from. -/
  allocator : Allocator := .upward
  deriving Inhabited

abbrev Run := EStateM RuntimeError Machine

namespace Machine

def roots (machine : Machine) : List UInt64 :=
  (machine.globals.toList ++ machine.threads.pinned).map Value.bits

end Machine

namespace Run

/-! ### Blocks -/

def collect : Run Heap.Swept :=
  modifyGet fun machine =>
    let (swept, heap) := machine.heap.collect machine.roots
    (swept, { machine with heap })

def place? (size : UInt64) : Run (Option Nat) :=
  modifyGet fun machine =>
    let (address?, heap) := machine.heap.place machine.allocator size
    (address?, { machine with heap })

/-- Ask for a block, and once more after a collection if there is no room for it. -/
def request (size : UInt64) : Run Nat := do
  match ← place? size with
  | some address => return address
  | none =>
    let _ ← collect
    match ← place? size with
    | some address => return address
    | none => throw (.outOfMemory size.toNat)

/-- The address of a new block of zeros. A collection runs first if the block would exceed the budget; the budget itself
refuses nothing. -/
def allocate (size : UInt64) : Run Nat := do
  let some whole := Heap.rounded size | throw .overflow
  let some exceeds := (← get).heap.wouldExceed whole | throw .overflow
  if exceeds then
    let _ ← collect
  request whole

def read (address position : Nat) : Run UInt64 := return (← get).heap.read address position

def write (address position : Nat) (word : UInt64) : Run Unit :=
  modify fun machine => { machine with heap := machine.heap.write address position word }

/-! ### Variables -/

def load (source : Nat) : Run Value := return (← get).globals.getD source .null

def store (target : Nat) (value : Value) : Run Unit :=
  modify fun machine => { machine with globals := machine.globals.setIfInBounds target value }

end Run

end NanScript
