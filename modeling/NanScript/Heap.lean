import NanScript.Heap.Filter
import NanScript.Value
import Std.Data.HashMap

/-!
# The heap

The heap is a list of blocks, each a run of zeroed words at an address of its own. An index leads from the address of a
block to its position in the list. The heap has a budget, but does not enforce it: whoever allocates asks first and
collects if the budget would be exceeded. Where a block goes is not for the heap to say: it takes the address that it is
given, and remembers what it was asked for and what came of it.
-/

namespace NanScript

/-- A run of words. Those behind the last one written are zero. -/
structure Block where
  address : Nat
  /-- In bytes, a multiple of eight. -/
  size : UInt64
  words : Array UInt64 := #[]
  /-- Whether the collection under way has reached the block. -/
  marked : Bool := false
  deriving DecidableEq, Repr, Inhabited

namespace Block

def wordCount (block : Block) : Nat := block.size.toNat / 8

def read (block : Block) (position : Nat) : UInt64 := block.words.getD position 0

/-- Write a word. A position outside the block is ignored. -/
def write (block : Block) (position : Nat) (word : UInt64) : Block :=
  if position < block.wordCount then
    let padding := position + 1 - block.words.size
    { block with words := (block.words ++ Array.replicate padding 0).setIfInBounds position word }
  else block

/-- The lowest byte of a word comes first. -/
def byte (block : Block) (offset : Nat) : UInt8 :=
  (block.read (offset / 8) >>> (8 * (offset % 8)).toUInt64).toUInt8

def contains (block : Block) (address : Nat) : Bool :=
  block.address ≤ address && address < block.address + block.size.toNat

end Block

namespace Heap

/-- What happened to a heap. -/
inductive Event where
  | placed (address : Nat) (size : UInt64)
  | refused (size : UInt64)
  | collected
  deriving DecidableEq, Repr, Inhabited

end Heap

structure Heap where
  blocks : Array Block := #[]
  index : Std.HashMap Nat Nat := {}
  bytes : UInt64 := 0
  filter : Filter := {}
  /-- No block has ever reached beyond this address. -/
  top : Nat := 0
  /-- The last event comes first. -/
  log : List Heap.Event := []
  deriving Inhabited

namespace Heap

def limit : UInt64 := 67108864

/-- No address reaches this: a boxed address has 48 bits. -/
def addressBound : Nat := 0x1000000000000

/-- No block reaches beyond this: the upper half of the addresses is not for blocks. -/
def ceiling : Nat := 0x800000000000

/-- A size rounded up to a whole number of words, at least one. There may be no such size. -/
def rounded (size : UInt64) : Option UInt64 :=
  let positive := max size 1
  if positive % 8 = 0 then some positive
  else if positive.toNat + 8 ≤ UInt64.size then some (positive + (8 - positive % 8))
  else none

/-- Whether a block of some size would exceed the budget. The sum may not fit a word. -/
def wouldExceed (heap : Heap) (size : UInt64) : Option Bool :=
  if heap.bytes.toNat + size.toNat < UInt64.size then some (limit < heap.bytes + size) else none

/-- Take a block at an address where nothing is. -/
def insert (heap : Heap) (address : Nat) (size : UInt64) : Heap where
  blocks := heap.blocks.push { address, size }
  index := heap.index.insert address heap.blocks.size
  bytes := heap.bytes + size
  filter := heap.filter.insert address
  top := max heap.top (address + size.toNat)
  log := .placed address size :: heap.log

def refuse (heap : Heap) (size : UInt64) : Heap := { heap with log := .refused size :: heap.log }

/-! ### Words of blocks -/

def read (heap : Heap) (address position : Nat) : UInt64 :=
  match heap.index[address]? with
  | some place => (heap.blocks.getD place default).read position
  | none => 0

def write (heap : Heap) (address position : Nat) (word : UInt64) : Heap :=
  match heap.index[address]? with
  | some place => { heap with blocks := heap.blocks.modify place (·.write position word) }
  | none => heap

def blockAt? (heap : Heap) (address : Nat) : Option Block := heap.blocks.find? (·.contains address)

end Heap

end NanScript
