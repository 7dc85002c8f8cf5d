import NanScript.Heap

/-!
# Where blocks go

An allocator answers each request for a block with an address, or refuses it. It may give out the address of a block that
was freed again, and may refuse whatever it likes; all that is asked of it is that nothing else is where the block goes.
-/

namespace NanScript

/-- Two blocks share neither their address nor any byte. -/
def Block.Apart (first second : Block) : Prop :=
  first.address ≠ second.address ∧
    (first.address + first.size.toNat ≤ second.address ∨ second.address + second.size.toNat ≤ first.address)

namespace Heap

/-- A place for a block: aligned, below the ceiling, and apart from all blocks. -/
structure Fresh (heap : Heap) (address : Nat) (size : UInt64) : Prop where
  nonzero : address ≠ 0
  aligned : address % 8 = 0
  bound : address + size.toNat ≤ ceiling
  apart : ∀ block ∈ heap.blocks, block.Apart { address, size }

/-- No block reaches beyond the top. -/
def Bounded (heap : Heap) : Prop := ∀ block ∈ heap.blocks, block.address + block.size.toNat ≤ heap.top

end Heap

structure Allocator where
  place : Heap → UInt64 → Option Nat
  fresh : ∀ {heap : Heap} {size : UInt64} {address : Nat},
    heap.Bounded → place heap size = some address → heap.Fresh address size

namespace Allocator

/-- Where the first block goes. -/
def base : Nat := 0x560000000000

/-- Blocks of this size and more are refused. -/
def refusal : Nat := 0x10000000000

/-- The first multiple of eight that leaves room for the sixteen bytes in front of a block. -/
def above (top : Nat) : Nat := max base ((top + 23) / 8 * 8)

/-- Addresses go upward, and none is given out twice. -/
def upward : Allocator where
  place heap size :=
    if size.toNat < refusal && above heap.top + size.toNat ≤ Heap.ceiling then some (above heap.top) else none
  fresh {heap size address} hbounded hplace := by
    have hbase : above heap.top ≠ 0 ∧ above heap.top % 8 = 0 ∧ heap.top < above heap.top := by
      unfold above base
      omega
    split at hplace
    · next hroom =>
      obtain rfl := Option.some.inj hplace
      simp only [Bool.and_eq_true, decide_eq_true_eq] at hroom
      refine ⟨hbase.1, hbase.2.1, hroom.2, fun block hblock => ?_⟩
      have hbelow := hbounded block hblock
      exact ⟨by dsimp only; omega, .inl (by dsimp only; omega)⟩
    · contradiction

instance : Inhabited Allocator := ⟨upward⟩

end Allocator

namespace Heap

/-- No allocator is asked for more than this: sizes are rounded up to whole words and have a sign. -/
def largest : UInt64 := 0x7FFFFFFFFFFFFFF8

/-- Ask for a block. -/
def place (heap : Heap) (allocator : Allocator) (size : UInt64) : Option Nat × Heap :=
  match if largest < size then none else allocator.place heap size with
  | some address => (some address, heap.insert address size)
  | none => (none, heap.refuse size)

end Heap

end NanScript
